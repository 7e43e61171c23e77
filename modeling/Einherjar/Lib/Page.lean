import Mathlib.Data.Nat.Notation
import Mathlib.Logic.Basic

/-! A page of cells with a fixed number of columns and no last row, written from the first cell
on. -/
namespace Einherjar.Lib

variable {α : Type*}

/-- What has been written, and the position of the cursor. -/
@[ext] structure Page (α : Type*) where
  cell : ℕ → ℕ → α
  row : ℕ
  column : ℕ

namespace Page

variable {p : Page α} {columns : ℕ} {blank : α}

def empty (blank : α) : Page α := ⟨fun _ _ => blank, 0, 0⟩

def newLine (p : Page α) : Page α := { p with row := p.row + 1, column := 0 }

/-- Write at the cursor, and go on in the next row after the last column. -/
def put (columns : ℕ) (p : Page α) (a : α) : Page α :=
  let cell := fun r c => if r = p.row ∧ c = p.column then a else p.cell r c
  if p.column + 1 < columns then ⟨cell, p.row, p.column + 1⟩ else ⟨cell, p.row + 1, 0⟩

/-- The first of the last `rows` rows up to the cursor. -/
def top (rows : ℕ) (p : Page α) : ℕ := p.row + 1 - rows

/-- The cursor is on the page, and nothing has been written below its row. -/
structure Open (columns : ℕ) (blank : α) (p : Page α) : Prop where
  column_lt : p.column < columns
  blank_below : ∀ r c, p.row < r → p.cell r c = blank

@[simp] theorem newLine_cell : p.newLine.cell = p.cell := rfl
@[simp] theorem newLine_row : p.newLine.row = p.row + 1 := rfl
@[simp] theorem newLine_column : p.newLine.column = 0 := rfl

theorem put_of_lt (h : p.column + 1 < columns) (a : α) :
    (p.put columns a).row = p.row ∧ (p.put columns a).column = p.column + 1 := by
  simp [put, if_pos h]

theorem put_of_ge (h : ¬ p.column + 1 < columns) (a : α) :
    (p.put columns a).row = p.row + 1 ∧ (p.put columns a).column = 0 := by
  simp [put, if_neg h]

theorem put_cell (a : α) (r c : ℕ) :
    (p.put columns a).cell r c = if r = p.row ∧ c = p.column then a else p.cell r c := by
  by_cases h : p.column + 1 < columns
  · rw [put, if_pos h]
  · rw [put, if_neg h]

theorem open_empty (h : 0 < columns) : (empty blank).Open columns blank :=
  ⟨h, fun _ _ _ => rfl⟩

theorem Open.newLine (h : p.Open columns blank) : p.newLine.Open columns blank := by
  refine ⟨Nat.lt_of_le_of_lt (Nat.zero_le _) h.column_lt, fun r c hr => ?_⟩
  rw [newLine_row] at hr
  exact h.blank_below r c (by omega)

theorem Open.put (h : p.Open columns blank) (a : α) : (p.put columns a).Open columns blank := by
  by_cases hc : p.column + 1 < columns
  · obtain ⟨hrow, hcolumn⟩ := put_of_lt hc a
    refine ⟨hcolumn ▸ hc, fun r c hr => ?_⟩
    rw [hrow] at hr
    rw [put_cell, if_neg (by omega)]
    exact h.blank_below r c hr
  · obtain ⟨hrow, hcolumn⟩ := put_of_ge hc a
    have hpos := h.column_lt
    refine ⟨by omega, fun r c hr => ?_⟩
    rw [hrow] at hr
    rw [put_cell, if_neg (by omega)]
    exact h.blank_below r c (by omega)

/-- The row after a last column is blank. -/
theorem Open.blank_row (h : p.Open columns blank) (hp : ¬ p.column + 1 < columns) (a : α) (c : ℕ) :
    (p.put columns a).cell (p.put columns a).row c = blank := by
  rw [(put_of_ge hp a).1, put_cell, if_neg (by omega)]
  exact h.blank_below _ _ (Nat.lt_succ_self _)

end Page

end Einherjar.Lib
