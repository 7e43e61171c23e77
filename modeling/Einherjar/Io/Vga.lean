import Mathlib.Data.List.Basic
import Einherjar.Io.Screen

/-! The calls that the colorForth system makes of the VGA driver, and the parts of `printf`
that it uses. -/
namespace Einherjar.Io

/-- A call of the driver, or a byte of the video memory set to 0. -/
inductive VgaCall where
  | clear
  | updateCursor
  | setPosition (x y : BitVec 8)
  | updatePosition (x y : BitVec 8)
  | setAttributes (attributes : BitVec 8)
  | displayCharacter (character : Char)
  /-- `vga_display_character` of a byte that was read outside its table. -/
  | displayUnknown
  | eraseVideo (address : ℕ)
  deriving DecidableEq

def fgGreen : BitVec 8 := 2
def fgRed : BitVec 8 := 4
def fgMagenta : BitVec 8 := 5
def fgBrown : BitVec 8 := 6
def fgBrightGreen : BitVec 8 := 10
def fgBrightCyan : BitVec 8 := 11
def fgPink : BitVec 8 := 12
def fgYellow : BitVec 8 := 14
def fgBrightWhite : BitVec 8 := 15
def bgBlack : BitVec 8 := 0

/-- Characters displayed one after another, as `printf` displays a string. -/
def display (text : List Char) : List VgaCall := text.map .displayCharacter

/-- The loop of `itoa`: the digits from the last one on. There are at most ten. -/
def itoaDigits (base : BitVec 32) : ℕ → BitVec 32 → List Char
  | 0, _ => []
  | fuel + 1, value =>
    if value = 0 then []
    else
      let remainder := value.srem base
      let character := if (9 : BitVec 32).slt remainder then remainder - 10 + 97 else remainder + 48
      Char.ofNat (character.toNat % 256) :: itoaDigits base fuel (value.sdiv base)

def itoa (value base : BitVec 32) : List Char :=
  if value = 0 then ['0']
  else if value.slt 0 ∧ base = 10 then (itoaDigits base 10 (-value) ++ ['-']).reverse
  else (itoaDigits base 10 value).reverse

/-! What calls leave on the rows of the screen. -/

/-- The characters of the rows, one row after another: those before the cursor, the last one first,
and those from the cursor on. -/
abbrev Rows := List Char × List Char

/-- Neither a new line nor another character that only moves the cursor. -/
def Printable (text : List Char) : Prop := ∀ c ∈ text, Plain (BitVec.ofNat 8 c.toNat)

instance (text : List Char) : Decidable (Printable text) :=
  List.decidableBAll (fun c : Char => Plain (BitVec.ofNat 8 c.toNat)) text

def writeText (rows : Rows) (text : List Char) : Rows :=
  (text.reverse ++ rows.1, rows.2.drop text.length)

/-- The rows after a call; `none` when the call leaves them or displays an unknown byte. From the
first column the cursor does not go back to the row above. -/
def rowsCall (rows : Rows) : VgaCall → Option Rows
  | .displayCharacter c => if Printable [c] then some (writeText rows [c]) else none
  | .updatePosition x y =>
    match rows.1 with
    | c :: before =>
      if x = -1 ∧ y = 0 ∧ rows.1.length % vgaColumns ≠ 0 then some (before, c :: rows.2) else none
    | [] => none
  | .updateCursor => some rows
  | .setAttributes _ => some rows
  | _ => none

def rowsAfter (rows : Rows) (calls : List VgaCall) : Option Rows := calls.foldlM rowsCall rows

/-- The text on rows that were empty before the calls. -/
def rowsText (calls : List VgaCall) : Option (List Char) :=
  (rowsAfter ([], []) calls).map fun rows => rows.1.reverse ++ rows.2

theorem rowsAfter_cons (rows : Rows) (x : VgaCall) (calls : List VgaCall) :
    rowsAfter rows (x :: calls) = (rowsCall rows x).bind fun rows => rowsAfter rows calls := rfl

theorem rowsAfter_append (rows : Rows) (calls calls' : List VgaCall) :
    rowsAfter rows (calls ++ calls') =
      (rowsAfter rows calls).bind fun rows => rowsAfter rows calls' := by
  unfold rowsAfter
  rw [List.foldlM_append]
  rfl

theorem writeText_append (rows : Rows) (text text' : List Char) :
    writeText rows (text ++ text') = writeText (writeText rows text) text' := by
  simp [writeText, List.drop_drop]

/-- Behind the last character there is nothing. -/
theorem writeText_last (before text : List Char) :
    writeText (before, []) text = (text.reverse ++ before, []) := by
  rw [writeText, List.drop_nil]

theorem writeText_length (rows : Rows) (text : List Char) :
    (writeText rows text).1.length = rows.1.length + text.length := by
  simp [writeText, Nat.add_comm]

theorem printable_append {text text' : List Char} :
    Printable (text ++ text') ↔ Printable text ∧ Printable text' := List.forall_mem_append

theorem rowsAfter_display (rows : Rows) {text : List Char} (h : Printable text) :
    rowsAfter rows (display text) = some (writeText rows text) := by
  induction text generalizing rows with
  | nil => rfl
  | cons c text ih =>
    obtain ⟨hc, htext⟩ := printable_append.mp (show Printable ([c] ++ text) from h)
    have hcall : rowsCall rows (.displayCharacter c) = some (writeText rows [c]) := if_pos hc
    change rowsAfter rows (.displayCharacter c :: display text) = _
    rw [rowsAfter_cons, hcall, Option.bind_some, ih _ htext, ← writeText_append]
    rfl

/-- The cursor goes back to a character, unless it is in the first column. -/
theorem rowsAfter_back (c : Char) (before after : List Char) :
    rowsAfter (c :: before, after) [.updatePosition (-1) 0, .updateCursor] =
      if (before.length + 1) % vgaColumns ≠ 0 then some (before, c :: after) else none := by
  rw [rowsAfter_cons]
  by_cases h : (before.length + 1) % vgaColumns ≠ 0
  · have hcall : rowsCall (c :: before, after) (.updatePosition (-1) 0) =
        some (before, c :: after) := if_pos ⟨rfl, rfl, h⟩
    rw [hcall, if_pos h]
    rfl
  · have hcall : rowsCall (c :: before, after) (.updatePosition (-1) 0) = none :=
      if_neg fun h' => h h'.2.2
    rw [hcall, if_neg h]
    rfl

theorem rowsAfter_displayUnknown {calls : List VgaCall} (h : .displayUnknown ∈ calls)
    (rows : Rows) : rowsAfter rows calls = none := by
  induction calls generalizing rows with
  | nil => simp at h
  | cons x calls ih =>
    rw [rowsAfter_cons]
    rcases List.mem_cons.mp h with rfl | h
    · rfl
    · cases rowsCall rows x with
      | none => rfl
      | some next => exact ih h next

end Einherjar.Io
