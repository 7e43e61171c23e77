import Einherjar.Colorforth.Watched

/-! The words act on the top of the data stack only: with other cells underneath, a program does
the same and leaves these cells alone. -/
namespace Einherjar.Colorforth
open Einherjar.Io Einherjar.Lib

/-- The data stack consists of `cells`, the bottom first. -/
structure Forth.Holds (s : Forth) (cells : List Cell) : Prop where
  tos : s.tos = cells.length
  cell : ∀ i (h : i < cells.length), s.stack i = cells[i]

/-- Nothing is popped from below the bottom, nothing is divided by zero, and the stack does not
exceed `STACK_SIZE`, even on top of `height` more cells. -/
def Event.Within (height : ℕ) : Event → Prop
  | .pop tos => 0 < tos
  | .push tos => tos + height < stackSize
  | .divide _ a => a ≠ 0
  | _ => True

instance (height : ℕ) (e : Event) : Decidable (e.Within height) :=
  match e with
  | .pop tos => inferInstanceAs (Decidable (0 < tos))
  | .push tos => inferInstanceAs (Decidable (tos + height < stackSize))
  | .divide _ a => inferInstanceAs (Decidable (a ≠ 0))
  | .block _ | .number _ | .word _ _ | .iteration _ _ => .isTrue trivial

/-- The same event on a stack that is higher. -/
inductive Event.Raised (height : ℕ) : Event → Event → Prop
  | pop (tos : ℤ) : Raised height (.pop tos) (.pop (tos + height))
  | push (tos : ℤ) : Raised height (.push tos) (.push (tos + height))
  | block (n : Cell) : Raised height (.block n) (.block n)
  | divide (b a : Cell) : Raised height (.divide b a) (.divide b a)
  | number (s t : Forth) : Raised height (.number s) (.number t)
  | word (b : Builtin) (s t : Forth) : Raised height (.word b s) (.word b t)
  | iteration (i : Cell) (s t : Forth) : Raised height (.iteration i s) (.iteration i t)

/-- The stack of `t` is that of `s` on top of `base`, and both have printed the same since `p`
and `q`. -/
structure Over (base : List Cell) (p q : List VgaCall) (s t : Forth) : Prop where
  nonneg : 0 ≤ s.tos
  tos : t.tos = s.tos + base.length
  below : ∀ i (h : i < base.length), t.stack i = base[i]
  above : ∀ i : ℤ, 0 ≤ i → i < s.tos → t.stack (i + base.length) = s.stack i
  printed : ∃ o, s.calls = p ++ o ∧ t.calls = q ++ o

namespace Over

variable {base cells : List Cell} {p q : List VgaCall} {s t : Forth}

theorem holds (h : Over base p q s t) (hs : s.Holds cells) : t.Holds (base ++ cells) where
  tos := by
    rw [h.tos, hs.tos, List.length_append]
    push_cast
    ring
  cell i hi := by
    by_cases hbase : i < base.length
    · rw [h.below i hbase, List.getElem_append_left hbase]
    · have hlt : i - base.length < cells.length := by
        rw [List.length_append] at hi
        omega
      have habove := h.above (i - base.length : ℕ) (Int.natCast_nonneg _)
        (by rw [hs.tos]; exact_mod_cast hlt)
      rw [List.getElem_append_right (Nat.le_of_not_lt hbase), ← hs.cell _ hlt, ← habove]
      congr 1
      omega

theorem push (h : Over base p q s t) (x : Cell) : Over base p q (s.push x) (t.push x) where
  nonneg := Int.add_nonneg h.nonneg Int.one_nonneg
  tos := by
    change t.tos + 1 = s.tos + 1 + base.length
    rw [h.tos]
    ring
  below i hi := by
    have hne : (i : ℤ) ≠ t.tos := by
      have := h.tos
      have := h.nonneg
      omega
    exact (Function.update_of_ne hne ..).trans (h.below i hi)
  above i h0 hi := by
    change Function.update t.stack t.tos x _ = Function.update s.stack s.tos x i
    rw [h.tos]
    by_cases htop : i = s.tos
    · rw [htop, Function.update_self, Function.update_self]
    · have hlt : i < s.tos := lt_of_le_of_ne (Int.lt_add_one_iff.mp hi) htop
      rw [Function.update_of_ne (by omega), Function.update_of_ne htop]
      exact h.above i h0 hlt
  printed := h.printed

theorem top (h : Over base p q s t) (hpos : 0 < s.tos) : s.top = t.top := by
  have habove := h.above (s.tos - 1) (by omega) (by omega)
  change s.stack (s.tos - 1) = t.stack (t.tos - 1)
  rw [← habove, h.tos]
  congr 1
  ring

theorem drop (h : Over base p q s t) (hpos : 0 < s.tos) : Over base p q s.drop t.drop where
  nonneg := Int.le_sub_one_of_lt hpos
  tos := by
    change t.tos - 1 = s.tos - 1 + base.length
    rw [h.tos]
    ring
  below := h.below
  above i h0 hi := h.above i h0 (hi.trans (Int.sub_one_lt_of_le le_rfl))
  printed := h.printed

theorem call (h : Over base p q s t) (calls : List VgaCall) :
    Over base p q (s.call calls) (t.call calls) where
  nonneg := h.nonneg
  tos := h.tos
  below := h.below
  above := h.above
  printed := by
    obtain ⟨o, hs, ht⟩ := h.printed
    refine ⟨o ++ calls, ?_, ?_⟩
    · rw [← List.append_assoc, ← hs]
      rfl
    · rw [← List.append_assoc, ← ht]
      rfl

/-- The other variables do not matter. -/
theorem congr {s' t' : Forth} (h : Over base p q s t)
    (hs : s'.stack = s.stack ∧ s'.tos = s.tos ∧ s'.calls = s.calls)
    (ht : t'.stack = t.stack ∧ t'.tos = t.tos ∧ t'.calls = t.calls) : Over base p q s' t' where
  nonneg := hs.2.1 ▸ h.nonneg
  tos := by rw [ht.2.1, hs.2.1, h.tos]
  below := ht.1 ▸ h.below
  above := by
    rw [ht.1, hs.1, hs.2.1]
    exact h.above
  printed := by
    rw [hs.2.2, ht.2.2]
    exact h.printed

end Over

namespace Watched

variable {base : List Cell} {p q : List VgaCall} {s t : Forth}

section words

variable {run run' : Cell → Forth → Traced Event Forth}

end words

end Watched

section ConcreteStack

def stackOf (cells : List Cell) : Forth := cells.foldl Forth.push colorforthInitialize

end ConcreteStack

end Einherjar.Colorforth
