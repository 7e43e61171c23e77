import Einherjar.Colorforth.Converter
import Einherjar.Colorforth.Decoders
import Einherjar.Lib.Pieces
import Einherjar.Lib.Numeral

/-! The converter's `totext`: from an image to the text of its blocks. The functions after the
class are taken for the methods that they are written to be. -/
namespace Einherjar.Colorforth
open Einherjar.Lib

/-- The names in `accepted_functions`. -/
def functionName : BlockFunction → List Char
  | .extension => "extension".toList
  | .execute => "execute".toList
  | .executeLong => "executelong".toList
  | .define => "define".toList
  | .compileWord => "compileword".toList
  | .compileLong => "compilelong".toList
  | .compileShort => "compileshort".toList
  | .compileMacro => "compilemacro".toList
  | .executeShort => "executeshort".toList
  | .text => "text".toList
  | .textCapitalized => "textcapitalized".toList
  | .textAllCaps => "textallcaps".toList
  | .variable => "variable".toList
  | .compilerFeedback => "compiler_feedback".toList
  | .displayMacro => "display_macro".toList
  | .commentedNumber => "commented_number".toList
  | .hexExecuteLong => "hex_executelong".toList
  | .hexExecuteShort => "hex_executeshort".toList
  | .hexCompileShort => "hex_compileshort".toList
  | .hexCompileLong => "hex_compilelong".toList
  | .hexCommentedNumber => "hex_commented_number".toList

def hexChars : List Char :=
  ['0', '1', '2', '3', '4', '5', '6', '7', '8', '9', 'a', 'b', 'c', 'd', 'e', 'f']

/-- `word & 0xf` -/
def tmpTag (word : Cell) : ℕ := (word &&& 0xf#32).toNat

def hexbit (word : Cell) : Bool := decide (word &&& 0x10#32 ≠ 0)

/-- The fields of the class; `has_output` exists from the first call of `print_text` on that
prints a letter. -/
structure ParseCFBlockToText where
  out : List Char
  hasOutput : Bool

namespace ParseCFBlockToText

def init : ParseCFBlockToText := ⟨[], false⟩

def puts (s : ParseCFBlockToText) (text : List Char) : ParseCFBlockToText :=
  { s with out := s.out ++ text }

/-- The loop of `print_hex`. A digit is added where it is zero, not where it is not. -/
def printHexLoop : ℕ → Cell → Bool → List Char
  | 0, _, _ => []
  | n + 1, i, f =>
    if i &&& 0xf0000000#32 = 0 then
      if f then '0' :: printHexLoop n (i <<< 4) f
      else hexChars.getD (i >>> 28).toNat '\x00' :: printHexLoop n (i <<< 4) true
    else printHexLoop n (i <<< 4) f

/-- A number is the same modulo 2³² for `print_hex`. -/
def printHex (i : Cell) : List Char := if i = 0 then ['0'] else printHexLoop 8 i false

/-- The loop of `print_dec`. Where the digit is zero, `j` stays as it is. -/
def printDecLoop : ℕ → ℕ → ℕ → Bool → Outcome (List Char)
  | 0, _, _, _ => .outOfFuel
  | fuel + 1, j, i, f =>
    if j = 0 then .done []
    else if i / j = 0 then
      (printDecLoop fuel j i f).bind fun text => .done (if f then '0' :: text else text)
    else
      match hexChars[i / j]? with
      | none => .stopped
      | some c =>
        (printDecLoop fuel (j / 10) (i - j * (i / j)) true).bind fun text => .done (c :: text)

def printDec (fuel : ℕ) (i : Cell) : Outcome (List Char) :=
  if i = 0 then .done ['0']
  else if i.toInt < 0 then
    (printDecLoop fuel 1000000000 i.toInt.natAbs false).bind fun text => .done ('-' :: text)
  else printDecLoop fuel 1000000000 i.toInt.natAbs false

def printHexOrDec (fuel : ℕ) (n word : Cell) : Outcome (List Char) :=
  if word &&& 0x10#32 ≠ 0 then .done (printHex n) else printDec fuel n

def printText (fuel word : ℕ) (s : ParseCFBlockToText) : Outcome ParseCFBlockToText :=
  (Converter.printText fuel word).bind fun text =>
    .done ⟨s.out ++ text, s.hasOutput || decide (word ≠ 0)⟩

def printTags (endWord : Bool) (typebits : ℕ) (hexbit : Bool) (s : ParseCFBlockToText) :
    ParseCFBlockToText :=
  let s := if endWord then s.puts ") ".toList else s
  let s := if typebits = 3 ∧ endWord then s.puts ['\n'] else s
  let name := functionName (functions.getD typebits .extension)
  if hexbit then s.puts ("hex_".toList ++ name ++ ['(']) else s.puts (name ++ ['('])

/-- `while pos < 256`, for the words from `pos` on; with them end the block and the loop. -/
def printWords (fuel : ℕ) : List Cell → Bool → ParseCFBlockToText →
    Outcome (Bool × ParseCFBlockToText)
  | [], endWord, s => .done (endWord, s)
  | word :: rest, endWord, s =>
    let name := word.toNat &&& 0xfffffff0
    if tmpTag word = 0 then (s.printText fuel name).bind (printWords fuel rest true)
    else if tmpTag word = 2 ∨ tmpTag word = 5 then
      let s := s.printTags endWord (tmpTag word) (hexbit word)
      match rest with
      | [] => .done (endWord, s)
      | anotherWord :: rest =>
        (printHexOrDec fuel anotherWord word).bind fun text =>
          printWords fuel rest true (s.puts text)
    else if tmpTag word = 6 ∨ tmpTag word = 8 ∨ tmpTag word = 0xf then
      let s := s.printTags endWord (tmpTag word) (hexbit word)
      (printHexOrDec fuel (word.sshiftRight 5) word).bind fun text =>
        printWords fuel rest true (s.puts text)
    else if tmpTag word = 0xc then
      ((s.printTags endWord (tmpTag word) false).printText fuel name).bind fun s =>
        match rest with
        | [] => .done (endWord, s)
        | value :: rest =>
          (printDec fuel value).bind fun text =>
            printWords fuel rest true ((s.printTags true 4 false).puts text)
    else
      ((s.printTags endWord (tmpTag word) false).printText fuel name).bind
        (printWords fuel rest true)

/-- The body of `for block in range(..)`. Before `has_output` exists, it cannot be asked for. -/
def printBlock (fuel block : ℕ) (blockData : List Cell) (s : ParseCFBlockToText) :
    Outcome ParseCFBlockToText :=
  let s := s.puts ("\x7bblock ".toList ++ numeral 10 block ++ "\x7d\n".toList)
  if ∀ word ∈ blockData, word = 0 then .done s
  else
    (printWords fuel blockData false s).bind fun st =>
      if st.1 then
        if st.2.hasOutput then .done (st.2.puts ")\n".toList) else .stopped
      else .done st.2

def parseInput (fuel : ℕ) (contents : List Cell) : Outcome ParseCFBlockToText :=
  Outcome.forEach (fun block => printBlock fuel block (chunk 256 contents block))
    (List.range (contents.length / 256)) .init

end ParseCFBlockToText

def totext (fuel : ℕ) (image : List Cell) : Outcome (List Char) :=
  (ParseCFBlockToText.parseInput fuel image).bind fun s => .done s.out

end Einherjar.Colorforth
