import Einherjar.Colorforth.Interpreter
import Einherjar.Lib.Traced

/-! The interpreter once more, with a record of what it does to the data stack, of the blocks it
reads and of its divisions. Without the record it is the interpreter. -/
namespace Einherjar.Colorforth
open Einherjar.Io Einherjar.Lib

/-- The accesses: a pop and a push with the stack pointer before it, the start of a block, a
division of `b` by `a`. The steps: a number, a built-in word and an iteration of `loads`, with
the state before it. -/
inductive Event
  | pop (tos : ℤ)
  | push (tos : ℤ)
  | block (n : Cell)
  | divide (b a : Cell)
  | number (s : Forth)
  | word (b : Builtin) (s : Forth)
  | iteration (i : Cell) (s : Forth)

/-- `STACK_SIZE` -/
def stackSize : ℕ := 42

namespace Event

/-- An access to the stack stays in its array. -/
def OnStack : Event → Prop
  | .pop tos => 0 < tos ∧ tos ≤ stackSize
  | .push tos => 0 ≤ tos ∧ tos < stackSize
  | _ => True

end Event

namespace Watched

def stackPush (x : Cell) (s : Forth) : Traced Event Forth :=
  .after (.push s.tos) (.quiet (.done (s.push x)))

/-- `rest` goes on with the cell that was popped. -/
def stackPop (s : Forth) (rest : Cell → Forth → Traced Event Forth) : Traced Event Forth :=
  .after (.pop s.tos) (rest s.top s.drop)

def load (run : Cell → Forth → Traced Event Forth) (s : Forth) : Traced Event Forth :=
  stackPop s run

def loadsLoop (run : Cell → Forth → Traced Event Forth) (j : Cell) :
    ℕ → Cell → Forth → Traced Event Forth
  | 0, _, _ => .quiet .outOfFuel
  | fuel + 1, i, s =>
    if i.sle j then
      .after (.iteration i s)
        (((stackPush i s).bind (load run)).bind (loadsLoop run j fuel (i + 2)))
    else .quiet (.done s)

def loads (fuel : ℕ) (run : Cell → Forth → Traced Event Forth) (s : Forth) : Traced Event Forth :=
  stackPop s fun j s => stackPop s fun i s => loadsLoop run j fuel i s

def add (s : Forth) : Traced Event Forth :=
  stackPop s fun a s => stackPop s fun b s => stackPush (a + b) s

def divide (s : Forth) : Traced Event Forth :=
  stackPop s fun a s => stackPop s fun b s =>
    .after (.divide b a)
      (if a = 0 ∨ b = 0x80000000#32 ∧ a = -1 then .quiet .stopped else stackPush (b.sdiv a) s)

def dot (s : Forth) : Traced Event Forth :=
  stackPop s fun n s => .quiet (.done (s.call (display (itoa n 10 ++ [' ']))))

def runBuiltin (b : Builtin) (fuel : ℕ) (run : Cell → Forth → Traced Event Forth) (s : Forth) :
    Traced Event Forth :=
  match b with
  | .comma => .quiet (comma s)
  | .load => load run s
  | .loads => loads fuel run s
  | .forth => .quiet (forth s)
  | .macroWord => .quiet (macroWord s)
  | .dot => dot s
  | .add => add s
  | .divide => divide s

def execute (fuel : ℕ) (run : Cell → Forth → Traced Event Forth) (word : DictionaryWord)
    (s : Forth) : Traced Event Forth :=
  let s := { s with ip := some word.codeAddress }
  .after (.word word.codeAddress s) (runBuiltin word.codeAddress fuel run s)

def interpretForthWord (fuel : ℕ) (run : Cell → Forth → Traced Event Forth) (word : Cell)
    (s : Forth) : Traced Event Forth :=
  match lookupWord word .forthDictionary with
  | some foundWord => execute fuel run foundWord s
  | none => .quiet (.done s)

def interpretNumber (number : Cell) (s : Forth) : Traced Event Forth :=
  .after (.number s) (stackPush (number.sshiftRight 5) s)

/-- The other colours do nothing. -/
def dispatchWord (fuel : ℕ) (run : Cell → Forth → Traced Event Forth) (word : Cell) (s : Forth) :
    Traced Event Forth :=
  match (word &&& 0xf#32).toNat with
  | 1 => interpretForthWord fuel run word s
  | 8 => interpretNumber word s
  | _ => .quiet (.done s)

def runBlock (blocks : ℕ → Cell) : ℕ → Cell → Forth → Traced Event Forth
  | 0, n, _ => .after (.block n) (.quiet .outOfFuel)
  | fuel + 1, n, s =>
    .after (.block n)
      (.forEach (fun i => dispatchWord fuel (runBlock blocks fuel) (blocks i))
        (runBlockCells n) s)

def dispatchCommand (fuel : ℕ) (run : Cell → Forth → Traced Event Forth) (packed : Cell)
    (s : Forth) : Traced Event Forth :=
  (dispatchWord fuel run packed s).bind fun t => .quiet (.done ((dotS t).call commandPrompt))

def doCmd (codeAddress : BitVec 32) (fuel : ℕ) (run : Cell → Forth → Traced Event Forth)
    (word : List Char) (s : Forth) : Traced Event Forth :=
  let s := s.call commandPromptErase
  if isNumber word then
    dispatchCommand fuel run ((atoi word <<< 5) + interpretNumberTag) s
  else
    let s := s.call [.setPosition 0 18]
    (Traced.quiet (pack codeAddress word)).bind fun packed =>
      let packed := (packed &&& 0xfffffff0#32) ||| interpretWordTag
      match lookupWord packed .forthDictionary with
      | none => .quiet (.done ((s.call wordNotFound).call commandPrompt))
      | some _ => dispatchCommand fuel run packed s

/-! Without the record. -/

variable {run : Cell → Forth → Traced Event Forth}

theorem outcome_loadsLoop (j : Cell) (fuel : ℕ) (i : Cell) (s : Forth) :
    (loadsLoop run j fuel i s).outcome =
      Colorforth.loadsLoop (fun n s => (run n s).outcome) j fuel i s := by
  induction fuel generalizing i s with
  | zero => rfl
  | succ fuel ih =>
    unfold loadsLoop Colorforth.loadsLoop
    split_ifs
    · simp only [Traced.outcome_after, Traced.outcome_bind, ih]
      rfl
    · rfl

theorem outcome_divide (s : Forth) : (divide s).outcome = Colorforth.divide s := by
  unfold divide stackPop Colorforth.divide
  simp only [Traced.outcome_after]
  split_ifs
  · rfl
  · rfl

theorem outcome_runBuiltin (b : Builtin) (fuel : ℕ) (s : Forth) :
    (runBuiltin b fuel run s).outcome =
      Colorforth.runBuiltin b fuel (fun n s => (run n s).outcome) s := by
  cases b with
  | loads => exact outcome_loadsLoop _ _ _ _
  | divide => exact outcome_divide s
  | _ => rfl

theorem outcome_interpretForthWord (fuel : ℕ) (word : Cell) (s : Forth) :
    (interpretForthWord fuel run word s).outcome =
      Colorforth.interpretForthWord fuel (fun n s => (run n s).outcome) word s := by
  unfold interpretForthWord Colorforth.interpretForthWord
  cases lookupWord word .forthDictionary with
  | none => rfl
  | some foundWord => exact outcome_runBuiltin _ _ _

theorem outcome_dispatchWord (fuel : ℕ) (word : Cell) (s : Forth) :
    (dispatchWord fuel run word s).outcome =
      Colorforth.dispatchWord fuel (fun n s => (run n s).outcome) word s := by
  unfold dispatchWord Colorforth.dispatchWord colorWordAction
  generalize (word &&& 0xf#32).toNat = color
  split
  · exact outcome_interpretForthWord _ _ _
  · rfl
  · next hforth hnumber =>
    split
    all_goals first | contradiction | rfl

/-- The record does not change what a block does. -/
theorem outcome_runBlock (blocks : ℕ → Cell) (fuel : ℕ) (n : Cell) (s : Forth) :
    (runBlock blocks fuel n s).outcome = Colorforth.runBlock blocks fuel n s := by
  induction fuel generalizing n s with
  | zero => rfl
  | succ fuel ih =>
    have hrun : (fun n s => (runBlock blocks fuel n s).outcome) = Colorforth.runBlock blocks fuel :=
      funext₂ ih
    unfold runBlock Colorforth.runBlock
    simp only [Traced.outcome_after, Traced.outcome_forEach, outcome_dispatchWord, hrun]

theorem outcome_doCmd (codeAddress : BitVec 32) (fuel : ℕ) (word : List Char) (s : Forth) :
    (doCmd codeAddress fuel run word s).outcome =
      Colorforth.doCmd codeAddress fuel (fun n s => (run n s).outcome) word s := by
  unfold doCmd Colorforth.doCmd dispatchCommand Colorforth.dispatchCommand
  split_ifs
  · simp only [Traced.outcome_bind, outcome_dispatchWord, Traced.outcome_quiet]
  · simp only [Traced.outcome_bind, Traced.outcome_quiet]
    congr 1
    funext packed
    cases lookupWord (packed &&& 0xfffffff0#32 ||| interpretWordTag) .forthDictionary with
    | none => rfl
    | some _ => simp only [Traced.outcome_bind, outcome_dispatchWord, Traced.outcome_quiet]

end Watched

end Einherjar.Colorforth
