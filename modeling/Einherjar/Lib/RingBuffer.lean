import Mathlib.Data.List.Basic
import Mathlib.Logic.Function.Basic

/-! Ring buffers that keep two indices and no fill count, so that one cell stays unused:
equal indices mean an empty buffer. -/
namespace Einherjar.Lib

variable {n : ℕ} {α : Type*}

structure Ring (n : ℕ) (α : Type*) where
  cells : Fin n → α
  read : Fin n
  write : Fin n

namespace Ring

/-- The index behind `i`, around the end of the buffer. -/
def next (i : Fin n) : Fin n := ⟨(i + 1) % n, Nat.mod_lt _ (Nat.zero_lt_of_lt i.isLt)⟩

/-- The index `k` places behind `i`. -/
def offset (i : Fin n) (k : ℕ) : Fin n := ⟨(i + k) % n, Nat.mod_lt _ (Nat.zero_lt_of_lt i.isLt)⟩

/-- The number of elements between the indices. -/
def count (r : Ring n α) : ℕ := (r.write + n - r.read) % n

/-- The elements between the indices, oldest first. -/
def contents (r : Ring n α) : List α := (List.range r.count).map fun k => r.cells (offset r.read k)

def push (r : Ring n α) (x : α) : Ring n α :=
  { r with cells := Function.update r.cells r.write x, write := next r.write }

def pop (r : Ring n α) : Ring n α := { r with read := next r.read }

/-- Arithmetic of two indices around the end. -/
theorem count_eq (r : Ring n α) : r.count =
    if r.read.val ≤ r.write.val then r.write.val - r.read.val
    else r.write.val + n - r.read.val := by
  have hr := r.read.isLt
  have hw := r.write.isLt
  unfold count
  split_ifs with h
  · rw [show r.write.val + n - r.read.val = r.write.val - r.read.val + n by omega,
      Nat.add_mod_right, Nat.mod_eq_of_lt (by omega)]
  · exact Nat.mod_eq_of_lt (by omega)

theorem next_val (i : Fin n) : (next i).val = if i.val + 1 = n then 0 else i.val + 1 := by
  have hi := i.isLt
  unfold next
  split_ifs with h
  · simp [h]
  · exact Nat.mod_eq_of_lt (by omega)

theorem offset_val (i : Fin n) {k : ℕ} (hk : k < n) :
    (offset i k).val = if i.val + k < n then i.val + k else i.val + k - n := by
  have hi := i.isLt
  unfold offset
  split_ifs with h
  · exact Nat.mod_eq_of_lt h
  · change (i.val + k) % n = _
    rw [Nat.mod_eq_sub_mod (by omega), Nat.mod_eq_of_lt (by omega)]

theorem count_lt (r : Ring n α) : r.count < n := Nat.mod_lt _ (Nat.zero_lt_of_lt r.read.isLt)

theorem count_push (r : Ring n α) (x : α) :
    (r.push x).count = if r.count + 1 = n then 0 else r.count + 1 := by
  have hr := r.read.isLt
  have hw := r.write.isLt
  rw [count_eq, count_eq]
  simp only [push, next_val]
  split_ifs <;> omega

theorem count_pop (r : Ring n α) (h : r.count ≠ 0) : r.pop.count = r.count - 1 := by
  have hr := r.read.isLt
  have hw := r.write.isLt
  rw [count_eq] at h ⊢
  rw [count_eq]
  simp only [pop, next_val]
  split_ifs at h ⊢ <;> omega

theorem offset_count (r : Ring n α) : offset r.read r.count = r.write := by
  have hr := r.read.isLt
  have hw := r.write.isLt
  apply Fin.ext
  rw [offset_val _ r.count_lt, count_eq]
  split_ifs <;> omega

theorem offset_ne_write (r : Ring n α) {k : ℕ} (hk : k < r.count) :
    offset r.read k ≠ r.write := by
  have hr := r.read.isLt
  have hw := r.write.isLt
  have hn := r.count_lt
  intro he
  have hval := congrArg Fin.val he
  rw [offset_val _ (by omega)] at hval
  rw [count_eq] at hk hn
  split_ifs at hval hk hn <;> omega

theorem offset_next (i : Fin n) (k : ℕ) : offset (next i) k = offset i (k + 1) := by
  apply Fin.ext
  unfold offset next
  simp only [Nat.mod_add_mod]
  congr 1
  omega

theorem contents_push (r : Ring n α) (x : α) (h : r.count + 1 < n) :
    (r.push x).contents = r.contents ++ [x] := by
  have hcount : (r.push x).count = r.count + 1 := by
    rw [count_push, if_neg (Nat.ne_of_lt h)]
  unfold contents
  rw [hcount, List.range_succ, List.map_append]
  congr 1
  · apply List.map_congr_left
    intro k hk
    have hne := r.offset_ne_write (List.mem_range.mp hk)
    exact Function.update_of_ne hne ..
  · have hlast : (r.push x).cells (offset (r.push x).read r.count) = x := by
      change Function.update r.cells r.write x (offset r.read r.count) = x
      rw [offset_count, Function.update_self]
    rw [List.map_singleton, hlast]

/-- One element more than fits makes the buffer look empty. -/
theorem contents_push_full (r : Ring n α) (x : α) (h : r.count + 1 = n) :
    (r.push x).contents = [] := by
  have hcount : (r.push x).count = 0 := by rw [count_push, if_pos h]
  unfold contents
  rw [hcount]
  rfl

theorem contents_pop (r : Ring n α) (h : r.count ≠ 0) :
    r.contents = r.cells r.read :: r.pop.contents := by
  obtain ⟨k, hk⟩ := Nat.exists_eq_succ_of_ne_zero h
  have hpop : r.pop.count = k := by rw [count_pop r h, hk]; rfl
  have hzero : offset r.read 0 = r.read := Fin.ext (Nat.mod_eq_of_lt r.read.isLt)
  unfold contents
  rw [hk, hpop, List.range_succ_eq_map, List.map_cons, List.map_map, hzero]
  congr 1
  apply List.map_congr_left
  intro j _
  exact congrArg r.cells (offset_next r.read j).symm

theorem count_eq_zero_iff (r : Ring n α) : r.count = 0 ↔ r.read = r.write := by
  have hr := r.read.isLt
  have hw := r.write.isLt
  rw [count_eq, Fin.ext_iff]
  split_ifs <;> omega

end Ring

end Einherjar.Lib
