import Mathlib.Algebra.Group.Defs
import Mathlib.Data.List.Basic

/-! Lists that end with zeros, and how two of them can agree piece by piece. -/
namespace Einherjar.Lib

variable {α : Type*} [Zero α] [DecidableEq α] {x y xs ys : List α}

/-- The length without the zeros at the end. -/
def trimmedLength : List α → ℕ
  | [] => 0
  | c :: cs => if trimmedLength cs = 0 ∧ c = 0 then 0 else trimmedLength cs + 1

theorem trimmedLength_le (xs : List α) : trimmedLength xs ≤ xs.length := by
  induction xs with
  | nil => exact Nat.le_refl 0
  | cons c cs ih =>
    rw [trimmedLength, List.length_cons]
    split_ifs
    · exact Nat.zero_le _
    · exact Nat.succ_le_succ ih

theorem trimmedLength_cons_pos {c : α} (hc : c ≠ 0) (cs : List α) :
    0 < trimmedLength (c :: cs) := by
  rw [trimmedLength, if_neg fun h => hc h.2]
  exact Nat.succ_pos _

theorem trimmedLength_eq_zero_iff : trimmedLength xs = 0 ↔ ∀ c ∈ xs, c = 0 := by
  induction xs with
  | nil => simp [trimmedLength]
  | cons c cs ih =>
    rw [List.forall_mem_cons, ← ih, trimmedLength]
    by_cases h : trimmedLength cs = 0 ∧ c = 0
    · exact iff_of_true (if_pos h) h.symm
    · rw [if_neg h]
      exact iff_of_false (Nat.succ_ne_zero _) fun hc => h hc.symm

theorem trimmedLength_append (xs ys : List α) : trimmedLength (xs ++ ys) =
    if trimmedLength ys = 0 then trimmedLength xs else xs.length + trimmedLength ys := by
  induction xs with
  | nil =>
    split_ifs with h
    · exact h
    · exact (Nat.zero_add _).symm
  | cons c cs ih =>
    rw [List.cons_append, trimmedLength, trimmedLength, ih, List.length_cons]
    split_ifs <;> omega

theorem trimmedLength_zeros (k : ℕ) : trimmedLength (List.replicate k (0 : α)) = 0 :=
  trimmedLength_eq_zero_iff.mpr fun _ hc => List.eq_of_mem_replicate hc

/-- Not longer than another list, neither with the zeros at the end nor without them. -/
structure Within (xs ys : List α) : Prop where
  length : xs.length ≤ ys.length
  trimmed : trimmedLength xs ≤ trimmedLength ys

namespace Within

theorem nil (ys : List α) : Within [] ys := ⟨Nat.zero_le _, Nat.zero_le _⟩

/-- A list that is not longer than the part without zeros. -/
theorem of_length_le (h : xs.length ≤ trimmedLength ys) : Within xs ys :=
  ⟨Nat.le_trans h (trimmedLength_le ys), Nat.le_trans (trimmedLength_le xs) h⟩

theorem append (h : Within x y) (hs : Within xs ys) : Within (x ++ xs) (y ++ ys) := by
  obtain ⟨hlen, htrim⟩ := h
  obtain ⟨hlens, htrims⟩ := hs
  have hy := trimmedLength_le y
  constructor
  · rw [List.length_append, List.length_append]
    omega
  · rw [trimmedLength_append, trimmedLength_append]
    split_ifs <;> omega

/-- When the lists agree up to zeros at the end, so do their parts, and only the last part has
more zeros. -/
theorem split {k : ℕ} (h : Within x y) (hs : Within xs ys)
    (hys : ys = [] ∨ trimmedLength ys ≠ 0)
    (heq : y ++ ys = x ++ xs ++ List.replicate k 0) :
    ∃ j m, y = x ++ List.replicate j 0 ∧ ys = xs ++ List.replicate m 0 ∧ (j ≠ 0 → ys = []) := by
  rcases hys with rfl | hys
  · have hxs : xs = [] := List.length_eq_zero_iff.mp (Nat.le_zero.mp hs.length)
    subst hxs
    exact ⟨k, 0, by simpa using heq, rfl, fun _ => rfl⟩
  · have htrim := congrArg trimmedLength heq
    rw [trimmedLength_append, trimmedLength_append (x ++ xs), trimmedLength_append,
      if_neg hys, if_pos (trimmedLength_zeros k)] at htrim
    have hx := trimmedLength_le x
    have hlen := h.length
    have hlens := hs.trimmed
    have hsame : y.length = x.length := by
      split_ifs at htrim <;> omega
    rw [List.append_assoc] at heq
    obtain ⟨hy, hrest⟩ := List.append_inj heq hsame
    exact ⟨0, k, by rw [hy, List.replicate_zero, List.append_nil], hrest, fun h0 => absurd rfl h0⟩

end Within

end Einherjar.Lib
