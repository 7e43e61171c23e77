import Einherjar.Colorforth.Code
import Einherjar.Colorforth.Interpreter

/-! The converter's encoder: from the functions of the text form to the cells of a block. -/
namespace Einherjar.Colorforth
open Einherjar.Lib

/-- The names in `accepted_functions`. -/
inductive BlockFunction where
  | extension
  | execute
  | executeLong
  | define
  | compileWord
  | compileLong
  | compileShort
  | compileMacro
  | executeShort
  | text
  | textCapitalized
  | textAllCaps
  | variable
  | compilerFeedback
  | displayMacro
  | commentedNumber
  | hexExecuteLong
  | hexExecuteShort
  | hexCompileShort
  | hexCompileLong
  | hexCommentedNumber
  deriving DecidableEq

/-- `functions`; the tag of a function is its index. -/
def functions : List BlockFunction :=
  [.extension, .execute, .executeLong, .define, .compileWord, .compileLong, .compileShort,
   .compileMacro, .executeShort, .text, .textCapitalized, .textAllCaps, .variable,
   .compilerFeedback, .displayMacro, .commentedNumber]

/-- For a key of `fivebit_functions`, the function without the prefix `hex_`. -/
def fivebitFunction : BlockFunction → Option BlockFunction
  | .hexExecuteLong => some .executeLong
  | .hexExecuteShort => some .executeShort
  | .hexCompileShort => some .compileShort
  | .hexCompileLong => some .compileLong
  | .hexCommentedNumber => some .commentedNumber
  | _ => none

def getTagsForFunction (f : BlockFunction) : ℕ :=
  match fivebitFunction f with
  | some f => 0b10000 ||| functions.idxOf f
  | none => functions.idxOf f

/-- `None` when the character is not in the table, an exception. -/
def huffmanForChar (c : Char) : Option (ℕ × ℕ) :=
  if c ∈ code then some (codeLength (code.idxOf c), codeNumber (code.idxOf c)) else none

def mask : ℕ := 0xffffffff

/-- The variables of the loops in `word_to_long_array`; `rest` is `param[idx:]`. -/
structure PackState where
  packed : ℕ
  bits : ℕ
  extensionMode : Bool
  tmp : List Cell
  rest : List Char

/-- `finish_pack(tmp, packed, bits, (0 if extension_mode else tag))`, and the cell begun anew. -/
def finishPack (tag : ℕ) (st : PackState) : PackState :=
  { st with
    tmp := st.tmp ++ [BitVec.ofNat 32 (((st.packed <<< (st.bits + 4)) &&& mask) |||
      (if st.extensionMode then 0 else tag))]
    packed := 0
    bits := 28
    extensionMode := true }

/-- The loop that shrinks a character: its length and bits when it fits, `none` when a bit that
is not zero would be cut off. -/
def shrink (bits : ℕ) : ℕ → ℕ → Option (ℕ × ℕ)
  | 0, shrinked => some (0, shrinked)
  | hl + 1, shrinked =>
    if hl + 1 ≤ bits then some (hl + 1, shrinked)
    else if shrinked &&& 1 = 1 then none
    else shrink bits hl (shrinked >>> 1)

/-- The body of `while 1` for the character `c`. -/
def packChar (tag : ℕ) (st : PackState) (c : Char) (rest : List Char) : Outcome PackState :=
  match huffmanForChar c with
  | none => .stopped
  | some (hl, hc) =>
    if hl ≤ st.bits then
      .done { st with
        packed := ((st.packed <<< hl) &&& mask) ||| hc
        bits := st.bits - hl
        rest := rest }
    else
      match shrink st.bits hl hc with
      | some (hl, shrinked) =>
        .done { st with
          packed := ((st.packed <<< hl) &&& mask) ^^^ shrinked
          bits := st.bits - hl
          rest := rest }
      | none => .done (finishPack tag st)

/-- `while 1` -/
def packLoop (tag : ℕ) : ℕ → PackState → Outcome PackState
  | 0, _ => .outOfFuel
  | fuel + 1, st =>
    match st.rest with
    | [] => .done st
    | c :: rest =>
      if st.bits = 0 then .done st
      else (packChar tag st c rest).bind (packLoop tag fuel)

/-- `while idx < len(param)` -/
def wordLoop (tag : ℕ) : ℕ → PackState → Outcome PackState
  | 0, _ => .outOfFuel
  | fuel + 1, st =>
    if st.rest = [] then .done st
    else
      (packLoop tag fuel st).bind fun st =>
        wordLoop tag fuel (if st.bits ≠ 28 ∧ st.packed ≠ 0 then finishPack tag st else st)

/-- The branch of `word_to_long_array` for words. -/
def packWord (fuel tag : ℕ) (param : List Char) : Outcome (List Cell) :=
  (wordLoop tag fuel ⟨0, 28, false, [], param⟩).bind fun st => .done st.tmp

def digitValue (base : ℕ) (c : Char) : Option ℕ :=
  let value :=
    if '0' ≤ c ∧ c ≤ '9' then c.toNat - 48
    else if 'a' ≤ c ∧ c ≤ 'f' then c.toNat - 87
    else if 'A' ≤ c ∧ c ≤ 'F' then c.toNat - 55
    else base
  if value < base then some value else none

def digitsValue (base : ℕ) : List Char → ℕ → Option ℕ
  | [], value => some value
  | c :: cs, value =>
    match digitValue base c with
    | some d => digitsValue base cs (base * value + d)
    | none => none

/-- The digits of a numeral, of which there must be one; `0x` may stand before those of base
16. -/
def unsignedInt (base : ℕ) (text : List Char) : Option ℕ :=
  match text with
  | [] => none
  | '0' :: 'x' :: c :: cs | '0' :: 'X' :: c :: cs =>
    if base = 16 then digitsValue base (c :: cs) 0 else none
  | c :: cs => digitsValue base (c :: cs) 0

def isSpace (c : Char) : Bool := c ∈ [' ', '\t', '\n', '\x0b', '\x0c', '\r']

/-- `int(text, base)`; `none` is the exception. -/
def int (base : ℕ) (text : List Char) : Option ℤ :=
  match ((text.dropWhile isSpace).reverse.dropWhile isSpace).reverse with
  | '-' :: cs => (unsignedInt base cs).map fun n => -(n : ℤ)
  | '+' :: cs => (unsignedInt base cs).map fun n => (n : ℤ)
  | cs => (unsignedInt base cs).map fun n => (n : ℤ)

/-- `int(param, 16)` or `int(param, 10)`, as the tag says. -/
def taggedInt (tag : ℕ) (param : List Char) : Option ℤ :=
  int (if tag &&& 0b10000 ≠ 0 then 16 else 10) param

def longFunctions : List BlockFunction :=
  [.hexCompileLong, .hexExecuteLong, .compileLong, .executeLong]

def shortFunctions : List BlockFunction :=
  [.compileShort, .executeShort, .hexCompileShort, .hexExecuteShort, .commentedNumber,
   .hexCommentedNumber]

/-- `word_to_long_array`: the cells, and `in_variable` after it. -/
def wordToLongArray (fuel : ℕ) (inVariable : Bool) (f : BlockFunction) (param : List Char) :
    Outcome (List Cell × Bool) :=
  let tag := getTagsForFunction f
  if f ∈ longFunctions then
    match taggedInt tag param with
    | some v => .done ([BitVec.ofNat 32 tag, BitVec.ofInt 32 v], inVariable)
    | none => .stopped
  else if f ∈ shortFunctions then
    match taggedInt tag param with
    | some v => .done ([(BitVec.ofInt 32 v <<< 5) + BitVec.ofNat 32 tag], inVariable)
    | none => .stopped
  else if f = .compileWord ∧ inVariable then
    match int 10 param with
    | some v => .done ([BitVec.ofInt 32 v], false)
    | none => .stopped
  else (packWord fuel tag param).bind fun cells => .done (cells, inVariable)

/-- A function and its parameter. -/
abbrev Token := BlockFunction × List Char

/-- `function_action`: the cells that it adds to the block. -/
def functionAction (fuel : ℕ) (inVariable : Bool) (tok : Token) : Outcome (List Cell × Bool) :=
  wordToLongArray fuel (if tok.1 = .variable then true else inVariable) tok.1 tok.2

/-- The cells of a block's functions, one after another. -/
def encodeTokens (fuel : ℕ) : Bool → List Token → Outcome (List Cell × Bool)
  | inVariable, [] => .done ([], inVariable)
  | inVariable, tok :: toks =>
    (functionAction fuel inVariable tok).bind fun head =>
      (encodeTokens fuel head.2 toks).bind fun tail => .done (head.1 ++ tail.1, tail.2)

end Einherjar.Colorforth
