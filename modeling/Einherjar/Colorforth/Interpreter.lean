import Einherjar.Colorforth.Code
import Einherjar.Io.Vga
import Einherjar.Lib.Fuel
import Mathlib.Logic.Function.Basic

/-! The colorForth interpreter: the built-in words, the dispatch of a coloured word, the
execution of a block, and what becomes of a word typed at the prompt of the editor. -/
namespace Einherjar.Colorforth
open Einherjar.Io Einherjar.Lib

/-- A cell, `cell_t`. -/
abbrev Cell := BitVec 32

/-- The functions of the built-in words. -/
inductive Builtin where
  | comma
  | load
  | loads
  | forth
  | macroWord
  | dot
  | add
  | divide
  deriving DecidableEq

/-- `word_t` -/
structure DictionaryWord where
  name : Cell
  codeAddress : Builtin
  deriving DecidableEq

inductive Dictionary where
  | forthDictionary
  | macroDictionary
  deriving DecidableEq

/-- The variables of the interpreter. `tos` counts from the start of the stack; the stack
goes on into the memory on both sides of the array. -/
structure Forth where
  stack : ℤ → Cell
  tos : ℤ
  selectedDictionary : Dictionary
  isHex : Bool
  ip : Option Builtin
  calls : List VgaCall

namespace Forth

def push (s : Forth) (x : Cell) : Forth :=
  { s with stack := Function.update s.stack s.tos x, tos := s.tos + 1 }

/-- The cell that `stack_pop` returns; the state after it is `drop`. -/
def top (s : Forth) : Cell := s.stack (s.tos - 1)

def drop (s : Forth) : Forth := { s with tos := s.tos - 1 }

def call (s : Forth) (calls : List VgaCall) : Forth := { s with calls := s.calls ++ calls }

end Forth

/-! The built-in words. `run` is `run_block`. -/

def comma (s : Forth) : Outcome Forth := .done s

def load (run : Cell → Forth → Outcome Forth) (s : Forth) : Outcome Forth := run s.top s.drop

/-- `for (; i <= j; i += 2)` -/
def loadsLoop (run : Cell → Forth → Outcome Forth) (j : Cell) :
    ℕ → Cell → Forth → Outcome Forth
  | 0, _, _ => .outOfFuel
  | fuel + 1, i, s =>
    if i.sle j then (load run (s.push i)).bind (loadsLoop run j fuel (i + 2)) else .done s

def loads (fuel : ℕ) (run : Cell → Forth → Outcome Forth) (s : Forth) : Outcome Forth :=
  loadsLoop run s.top fuel s.drop.top s.drop.drop

def forth (s : Forth) : Outcome Forth := .done { s with selectedDictionary := .forthDictionary }

def macroWord (s : Forth) : Outcome Forth :=
  .done { s with selectedDictionary := .macroDictionary }

def add (s : Forth) : Outcome Forth := .done (s.drop.drop.push (s.top + s.drop.top))

/-- The processor does not come back from a division by zero, nor from one that overflows. -/
def divide (s : Forth) : Outcome Forth :=
  if s.top = 0 ∨ s.drop.top = 0x80000000#32 ∧ s.top = -1 then .stopped
  else .done (s.drop.drop.push (s.drop.top.sdiv s.top))

/-- `printf("%d ", (int)stack_pop())` -/
def dot (s : Forth) : Outcome Forth := .done (s.drop.call (display (itoa s.top 10 ++ [' '])))

def runBuiltin (b : Builtin) (fuel : ℕ) (run : Cell → Forth → Outcome Forth) :
    Forth → Outcome Forth :=
  match b with
  | .comma => comma
  | .load => load run
  | .loads => loads fuel run
  | .forth => forth
  | .macroWord => macroWord
  | .dot => dot
  | .add => add
  | .divide => divide

/-- The entries of `forth_dictionary` before the one without a name. -/
def forthDictionary : List DictionaryWord :=
  [⟨0xfc000000, .comma⟩, ⟨0xa1ae0000, .load⟩, ⟨0xa1ae0800, .loads⟩, ⟨0xb1896400, .forth⟩,
   ⟨0x8ac84c00, .macroWord⟩, ⟨0xea000000, .dot⟩, ⟨0xf6000000, .add⟩, ⟨0xee000000, .divide⟩]

/-- The entries of `macro_dictionary`: none. -/
def macroDictionary : List DictionaryWord := []

/-- The color byte does not matter. -/
def lookupWord (name : Cell) : Dictionary → Option DictionaryWord
  | .forthDictionary => forthDictionary.find? fun w => name &&& ~~~0xf#32 == w.name
  | .macroDictionary => macroDictionary.find? fun w => name &&& ~~~0xf#32 == w.name

def execute (fuel : ℕ) (run : Cell → Forth → Outcome Forth) (word : DictionaryWord) (s : Forth) :
    Outcome Forth :=
  runBuiltin word.codeAddress fuel run { s with ip := some word.codeAddress }

/-! The actions of the colours. -/

def ignore (_word : Cell) (s : Forth) : Outcome Forth := .done s

def interpretForthWord (fuel : ℕ) (run : Cell → Forth → Outcome Forth) (word : Cell) (s : Forth) :
    Outcome Forth :=
  match lookupWord word .forthDictionary with
  | some foundWord => execute fuel run foundWord s
  | none => .done s

def interpretBigNumber (_number : Cell) (s : Forth) : Outcome Forth := .done s
def createWord (_word : Cell) (s : Forth) : Outcome Forth := .done s
def compileWord (_word : Cell) (s : Forth) : Outcome Forth := .done s
def compileBigNumber (_number : Cell) (s : Forth) : Outcome Forth := .done s
def compileNumber (_number : Cell) (s : Forth) : Outcome Forth := .done s
def compileMacro (_word : Cell) (s : Forth) : Outcome Forth := .done s

def interpretNumber (number : Cell) (s : Forth) : Outcome Forth :=
  .done (s.push (number.sshiftRight 5))

def variableWord (_word : Cell) (s : Forth) : Outcome Forth := .done s

/-- `color_word_action`: extensions, comments, compiler feedback and display macros are
ignored. -/
def colorWordAction (fuel : ℕ) (run : Cell → Forth → Outcome Forth) (color : ℕ) (word : Cell)
    (s : Forth) : Outcome Forth :=
  match color with
  | 1 => interpretForthWord fuel run word s
  | 2 => interpretBigNumber word s
  | 3 => createWord word s
  | 4 => compileWord word s
  | 5 => compileBigNumber word s
  | 6 => compileNumber word s
  | 7 => compileMacro word s
  | 8 => interpretNumber word s
  | 12 => variableWord word s
  | _ => ignore word s

def dispatchWord (fuel : ℕ) (run : Cell → Forth → Outcome Forth) (word : Cell) (s : Forth) :
    Outcome Forth :=
  colorWordAction fuel run (word &&& 0xf#32).toNat word s

/-- The cells that the loop of `run_block` goes through: up to `limit - 1`, exclusive. -/
def runBlockCells (n : Cell) : List ℕ :=
  let start := n * 256
  let limit := (n + 1) * 256
  List.range' start.toNat ((limit - 1).toNat - start.toNat)

/-- The depth of nested loads and the iterations of `loads` are bounded by the fuel. -/
def runBlock (blocks : ℕ → Cell) : ℕ → Cell → Forth → Outcome Forth
  | 0, _, _ => .outOfFuel
  | fuel + 1, n, s =>
    Outcome.forEach (fun i => dispatchWord fuel (runBlock blocks fuel) (blocks i))
      (runBlockCells n) s

/-- The state that `colorforth_initialize` leaves, with zeros around the stack as well. -/
def colorforthInitialize : Forth where
  stack _ := 0
  tos := 0
  selectedDictionary := .forthDictionary
  isHex := false
  ip := none
  calls := []

/-! The command prompt of the editor. -/

/-- Every second byte from `first` to `last` of the video memory is set to 0. -/
def eraseText (first last : ℕ) : List VgaCall :=
  (List.range ((last - first) / 2 + 1)).map fun k => .eraseVideo (first + 2 * k)

def commandPromptErase : List VgaCall :=
  eraseText (0xB8000 + 21 * 80 * 2 + 2) (0xB8000 + 22 * 80 * 2 + 80 * 2 - 2) ++
    [.setPosition 2 21, .updateCursor]

def commandPrompt : List VgaCall :=
  [.setPosition 2 21, .setAttributes (fgYellow ||| bgBlack), .updateCursor]

def eraseStack : List VgaCall :=
  eraseText (0xB8000 + 23 * 80 * 2) (0xB8000 + 24 * 80 * 2) ++ [.setPosition 2 21, .updateCursor]

def dotS (s : Forth) : Forth :=
  s.call (eraseStack ++ [.setPosition 0 22, .setAttributes (fgYellow ||| bgBlack)] ++
    display ("\nStack [".toList ++ itoa (BitVec.ofInt 32 s.tos) 10 ++ "]: ".toList) ++
    (List.range s.tos.toNat).flatMap (fun i : ℕ =>
      display (itoa (s.stack i) (if s.isHex then 16 else 10) ++ [' '])) ++
    display ['\n'])

def isNumber (word : List Char) : Bool :=
  word.all fun c => c ∈ ['0', '1', '2', '3', '4', '5', '6', '7', '8', '9']

def atoi (word : List Char) : BitVec 32 :=
  word.foldl (fun k c => k * 10 + BitVec.ofNat 32 c.toNat - 48) 0

def interpretNumberTag : BitVec 32 := 8
def interpretWordTag : BitVec 32 := 1

def wordNotFound : List VgaCall :=
  [.setPosition 0 22, .setAttributes (fgPink ||| bgBlack)] ++
    display "Error: Word not found!".toList

/-- The end of `do_cmd`, from the dispatch of the cell on. -/
def dispatchCommand (fuel : ℕ) (run : Cell → Forth → Outcome Forth) (packed : Cell) (s : Forth) :
    Outcome Forth :=
  (dispatchWord fuel run packed s).bind fun t => .done ((dotS t).call commandPrompt)

def doCmd (codeAddress : BitVec 32) (fuel : ℕ) (run : Cell → Forth → Outcome Forth)
    (word : List Char) (s : Forth) : Outcome Forth :=
  let s := s.call commandPromptErase
  if isNumber word then
    dispatchCommand fuel run ((atoi word <<< 5) + interpretNumberTag) s
  else
    let s := s.call [.setPosition 0 18]
    (pack codeAddress word).bind fun packed =>
      let packed := (packed &&& 0xfffffff0#32) ||| interpretWordTag
      match lookupWord packed .forthDictionary with
      | none => .done ((s.call wordNotFound).call commandPrompt)
      | some _ => dispatchCommand fuel run packed s

section monotone

variable {run run' : Cell → Forth → Outcome Forth} {fuel fuel' : ℕ}

theorem loadsLoop_mono (hrun : ∀ n s, run n s ≤ run' n s) (hfuel : fuel ≤ fuel') (i j : Cell)
    (s : Forth) : loadsLoop run j fuel i s ≤ loadsLoop run' j fuel' i s := by
  induction fuel generalizing fuel' i s with
  | zero => exact Outcome.outOfFuel_le _
  | succ fuel ih =>
    obtain ⟨fuel', rfl⟩ := Nat.exists_eq_succ_of_ne_zero (Nat.ne_zero_of_lt hfuel)
    unfold loadsLoop
    by_cases hij : i.sle j
    · rw [if_pos hij, if_pos hij]
      exact Outcome.bind_mono (hrun _ _) (ih (Nat.le_of_succ_le_succ hfuel) _)
    · rw [if_neg hij, if_neg hij]

theorem runBuiltin_mono (hrun : ∀ n s, run n s ≤ run' n s) (hfuel : fuel ≤ fuel') (b : Builtin)
    (s : Forth) : runBuiltin b fuel run s ≤ runBuiltin b fuel' run' s := by
  cases b with
  | load => exact hrun _ _
  | loads => exact loadsLoop_mono hrun hfuel _ _ _
  | _ => exact le_rfl

theorem interpretForthWord_mono (hrun : ∀ n s, run n s ≤ run' n s) (hfuel : fuel ≤ fuel')
    (word : Cell) (s : Forth) :
    interpretForthWord fuel run word s ≤ interpretForthWord fuel' run' word s := by
  unfold interpretForthWord
  split
  · exact runBuiltin_mono hrun hfuel _ _
  · exact le_rfl

theorem dispatchWord_mono (hrun : ∀ n s, run n s ≤ run' n s) (hfuel : fuel ≤ fuel')
    (word : Cell) (s : Forth) : dispatchWord fuel run word s ≤ dispatchWord fuel' run' word s := by
  unfold dispatchWord colorWordAction
  split
  · exact interpretForthWord_mono hrun hfuel _ _
  all_goals exact le_rfl

/-- More fuel takes the execution of a block further, and changes nothing else. -/
theorem runBlock_mono (blocks : ℕ → Cell) (n : Cell) (s : Forth) :
    Monotone fun fuel => runBlock blocks fuel n s := by
  apply monotone_nat_of_le_succ
  intro fuel
  induction fuel generalizing n s with
  | zero => exact Outcome.outOfFuel_le _
  | succ fuel ih =>
    exact Outcome.forEach_mono (fun i => dispatchWord_mono ih (Nat.le_succ fuel) (blocks i)) _ _

end monotone

end Einherjar.Colorforth
