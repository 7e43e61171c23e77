import Einherjar.Colorforth.Code
import Einherjar.Colorforth.Interpreter

/-! The built-in words under the names that their codes spell, and how a cell finds them. -/
namespace Einherjar.Colorforth
open Einherjar.Io Einherjar.Lib

/-- The names that the packed codes of the dictionary spell. -/
def spelling : Builtin → List Char
  | .comma => [',']
  | .load => ['l', 'o', 'a', 'd']
  | .loads => ['l', 'o', 'a', 'd', 's']
  | .forth => ['f', 'o', 'r', 't', 'h']
  | .macroWord => ['m', 'a', 'c', 'r', 'o']
  | .dot => ['.']
  | .add => ['+']
  | .divide => ['/']

def dictionaryEntry (b : Builtin) : DictionaryWord := ⟨nameCell (spelling b) 0, b⟩

theorem forthDictionary_eq :
    forthDictionary = [.comma, .load, .loads, .forth, .macroWord, .dot, .add, .divide].map
      dictionaryEntry := by decide

theorem isWord_spelling (b : Builtin) : IsWord (spelling b) := by cases b <;> decide

theorem fits_spelling (b : Builtin) : Fits 28 (codeBits (spelling b)) := by cases b <;> decide

theorem mem_forthDictionary {w : DictionaryWord} (h : w ∈ forthDictionary) :
    w = dictionaryEntry w.codeAddress := by
  rw [forthDictionary_eq] at h
  obtain ⟨b, -, rfl⟩ := List.mem_map.mp h
  rfl

theorem lookupWord_of_name {x : Cell} {b : Builtin}
    (h : x &&& ~~~0xf#32 = nameCell (spelling b) 0) :
    lookupWord x .forthDictionary = some (dictionaryEntry b) := by
  rw [lookupWord, h]
  cases b <;> decide

theorem lookupWord_eq_none {x : Cell} (h : ∀ b, x &&& ~~~0xf#32 ≠ nameCell (spelling b) 0) :
    lookupWord x .forthDictionary = none := by
  rw [lookupWord, List.find?_eq_none]
  intro w hw heq
  rw [mem_forthDictionary hw] at heq
  exact h _ (eq_of_beq heq)

/-- A state in which every built-in word returns. -/
def calmForth : Forth := { colorforthInitialize with stack := fun i => if i = -1 then 1 else 2 }

theorem dispatchWord_of_lookup {x : Cell} (hcolor : (x &&& 0xf#32).toNat = 1) {b : Builtin}
    (h : lookupWord x .forthDictionary = some (dictionaryEntry b)) (fuel : ℕ)
    (run : Cell → Forth → Outcome Forth) (s : Forth) :
    dispatchWord fuel run x s = execute fuel run (dictionaryEntry b) s := by
  unfold dispatchWord
  rw [hcolor]
  change interpretForthWord fuel run x s = _
  rw [interpretForthWord, h]

theorem dispatchWord_of_lookup_none {x : Cell} (hcolor : (x &&& 0xf#32).toNat = 1)
    (h : lookupWord x .forthDictionary = none) (fuel : ℕ)
    (run : Cell → Forth → Outcome Forth) (s : Forth) : dispatchWord fuel run x s = .done s := by
  unfold dispatchWord
  rw [hcolor]
  change interpretForthWord fuel run x s = _
  rw [interpretForthWord, h]

theorem execute_calm (b : Builtin) (calls : List VgaCall) :
    ∃ t, execute 1 (fun _ s => .done s) (dictionaryEntry b) (calmForth.call calls) = .done t ∧
      t.ip = some b := by
  cases b <;> exact ⟨_, rfl, rfl⟩

end Einherjar.Colorforth
