import Einherjar.Colorforth.CellDisplay
import Einherjar.Colorforth.Encoder
import Einherjar.Colorforth.Numbers

/-! What the editor displays of the numbers that the converter stores, and of variables with their
values. -/
namespace Einherjar.Colorforth
open Einherjar.Io Einherjar.Lib

section numbers

theorem printDec_of_toInt {i : Cell} {v : ℤ} (h : i.toInt = v) (hv : -2 ^ 31 < v) :
    printDec i = display (decimal v) := by
  have hne : i ≠ 0x80000000#32 := by
    rintro rfl
    rw [← h] at hv
    revert hv
    decide
  rw [printDec_eq hne, h]

theorem printable_numeral (base n : ℕ) : Printable (numeral base n) := by
  have hdigit : ∀ d, Plain (BitVec.ofNat 8 (Nat.digitChar d).toNat) := by
    intro d
    by_cases hd : d < 16
    · interval_cases d <;> decide
    · rw [Nat.digitChar_eq_star.mpr (Nat.le_of_not_lt hd)]
      decide
  intro c hc
  unfold numeral at hc
  split_ifs at hc
  · rw [List.mem_singleton.mp hc]
    decide
  · obtain ⟨d, -, rfl⟩ := List.mem_map.mp hc
    exact hdigit d

theorem printable_decimal (v : ℤ) : Printable (decimal v) := by
  unfold decimal
  split_ifs
  · exact List.forall_mem_cons.mpr ⟨by decide, printable_numeral _ _⟩
  · exact printable_numeral _ _

theorem rowsAfter_number (rows : Rows) (foreground : BitVec 8) {numeral : List Char}
    (h : Printable numeral) :
    rowsAfter rows (attributes foreground :: (display numeral ++ [.displayCharacter ' '])) =
      some (writeText rows (numeral ++ [' '])) := by
  have hblank : display numeral ++ [.displayCharacter ' '] = display (numeral ++ [' ']) := by
    simp [display]
  rw [hblank, rowsAfter_cons]
  change rowsAfter rows (display (numeral ++ [' '])) = _
  rw [rowsAfter_display _ (printable_append.mpr ⟨h, printable_blank⟩)]

theorem rowsText_number (foreground : BitVec 8) {numeral : List Char} (h : Printable numeral) :
    rowsText (attributes foreground :: (display numeral ++ [.displayCharacter ' '])) =
      some (numeral ++ [' ']) := by
  rw [rowsText, rowsAfter_number _ foreground h]
  simp [writeText]

/-- What a long number is displayed as: all 32 bits of a hexadecimal one. -/
def shownLong (f : BlockFunction) (v : ℤ) : List Char :=
  if (fivebitFunction f).isSome then numeral 16 (BitVec.ofInt 32 v).toNat else decimal v

/-- What a short number is displayed as: a hexadecimal one with the sign of its 27 bits. -/
def shownShort (f : BlockFunction) (v : ℤ) : List Char :=
  if (fivebitFunction f).isSome then numeral 16 (BitVec.ofInt 32 (v.bmod (2 ^ 27))).toNat
  else decimal v

variable {f : BlockFunction} {v : ℤ}

theorem ownsPayload_long (hf : f ∈ longFunctions) :
    ownsPayload (BitVec.ofNat 32 (getTagsForFunction f)) := by
  revert f
  decide

/-- A long number is displayed as its numeral. -/
theorem rowsAfter_long (hf : f ∈ longFunctions)
    (hrange : fivebitFunction f = none → -2 ^ 31 < v ∧ v < 2 ^ 31) {blocks : ℕ → Cell} {p : ℕ}
    (hpayload : blocks (p + 1) = BitVec.ofInt 32 v) (rows : Rows) :
    rowsAfter rows (displayWord blocks p (BitVec.ofNat 32 (getTagsForFunction f))).1 =
      some (writeText rows (shownLong f v ++ [' '])) := by
  cases hbase : fivebitFunction f with
  | none =>
    obtain ⟨hlo, hhi⟩ := hrange hbase
    have hprint := printDec_of_toInt (BitVec.toInt_ofInt_eq_self (by decide) hlo.le hhi) hlo
    have hcases : f = .compileLong ∨ f = .executeLong := by
      clear hrange
      revert f
      decide
    have htext : shownLong f v = decimal v := by simp [shownLong, hbase]
    rw [htext]
    rcases hcases with rfl | rfl
    all_goals
      change rowsAfter rows
        (attributes _ :: (printDec (blocks (p + 1)) ++ [.displayCharacter ' '])) = _
      rw [hpayload, hprint, rowsAfter_number _ _ (printable_decimal v)]
  | some g =>
    have hcases : f = .hexCompileLong ∨ f = .hexExecuteLong := by
      clear hrange
      revert f g
      decide
    have htext : shownLong f v = numeral 16 (BitVec.ofInt 32 v).toNat := by simp [shownLong, hbase]
    rw [htext]
    rcases hcases with rfl | rfl
    all_goals
      change rowsAfter rows
        (attributes _ :: (printHex (blocks (p + 1)) ++ [.displayCharacter ' '])) = _
      rw [hpayload, printHex_eq, rowsAfter_number _ _ (printable_numeral _ _)]

theorem toNat_short (v : ℤ) {tag : ℕ} (htag : tag < 32) :
    ∃ k, k < 2 ^ 27 ∧ ((BitVec.ofInt 32 v <<< 5) + BitVec.ofNat 32 tag).toNat = k * 32 + tag ∧
      (k : ℤ) = v % 2 ^ 27 := by
  refine ⟨(v % 2 ^ 27).toNat, ?_, ?_, ?_⟩
  · omega
  · rw [BitVec.toNat_add, BitVec.toNat_shiftLeft, BitVec.toNat_ofNat, BitVec.toNat_ofInt,
      Nat.shiftLeft_eq]
    omega
  · omega

theorem tag_shortFunction (hf : f ∈ shortFunctions) :
    getTagsForFunction f < 32 ∧ getTagsForFunction f % 16 ∈ [6, 8, 15] ∧
      (fivebitFunction f = none → getTagsForFunction f < 16) := by
  revert f
  decide

theorem ownsPayload_short (hf : f ∈ shortFunctions) (v : ℤ) :
    ¬ ownsPayload ((BitVec.ofInt 32 v <<< 5) + BitVec.ofNat 32 (getTagsForFunction f)) := by
  obtain ⟨htag, hcolor, -⟩ := tag_shortFunction hf
  obtain ⟨k, -, hk, -⟩ := toNat_short v htag
  simp only [List.mem_cons, List.not_mem_nil, or_false] at hcolor
  unfold ownsPayload
  rw [toNat_color, hk]
  omega

/-- The field above the five bits of the tag, as a signed number. -/
theorem toInt_shifted {cell : Cell} {k tag : ℕ} (hk : k < 2 ^ 27) (htag : tag < 32)
    (hcell : cell.toNat = k * 32 + tag) :
    (cell.sshiftRight 5).toInt = if k < 2 ^ 26 then (k : ℤ) else k - 2 ^ 27 := by
  rw [BitVec.toInt_sshiftRight, Int.shiftRight_eq_div_pow, BitVec.toInt_eq_toNat_cond, hcell]
  split_ifs <;> omega

/-- A cell with the tag of a short number is displayed in the base that the tag says. -/
theorem displayWord_short (hf : f ∈ shortFunctions) {cell : Cell} {k : ℕ}
    (hcell : cell.toNat = k * 32 + getTagsForFunction f) :
    ∃ foreground, ∀ blocks p, (displayWord blocks p cell).1 =
      attributes foreground :: printNumber cell (fivebitFunction f).isSome := by
  have hcolor : (cell &&& 0xf#32).toNat = getTagsForFunction f % 16 := by
    rw [toNat_color, hcell]
    omega
  have hhex : (cell &&& 0x10#32 ≠ 0) ↔ getTagsForFunction f / 16 % 2 = 1 := by
    rw [hexBit_iff, hcell]
    omega
  unfold displayWord
  rw [hcolor]
  simp only [shortFunctions, List.mem_cons, List.not_mem_nil, or_false] at hf
  rcases hf with rfl | rfl | rfl | rfl | rfl | rfl
  · have hdec : ¬ (cell &&& 0x10#32 ≠ 0) := fun h => absurd (hhex.mp h) (by decide)
    exact ⟨fgBrightGreen, fun _ _ => by simp only [if_neg hdec]; rfl⟩
  · have hdec : ¬ (cell &&& 0x10#32 ≠ 0) := fun h => absurd (hhex.mp h) (by decide)
    exact ⟨fgYellow, fun _ _ => by simp only [if_neg hdec]; rfl⟩
  · have hhex := hhex.mpr (by decide)
    exact ⟨fgGreen, fun _ _ => by simp only [if_pos hhex]; rfl⟩
  · have hhex := hhex.mpr (by decide)
    exact ⟨fgBrown, fun _ _ => by simp only [if_pos hhex]; rfl⟩
  · have hdec : ¬ (cell &&& 0x10#32 ≠ 0) := fun h => absurd (hhex.mp h) (by decide)
    exact ⟨fgBrightWhite, fun _ _ => by simp only [decide_eq_false hdec]; rfl⟩
  · have hhex := hhex.mpr (by decide)
    exact ⟨fgBrightWhite, fun _ _ => by simp only [decide_eq_true hhex]; rfl⟩

/-- A short number is displayed as its numeral. -/
theorem rowsAfter_short (hf : f ∈ shortFunctions)
    (hrange : fivebitFunction f = none → -2 ^ 26 ≤ v ∧ v < 2 ^ 26) (blocks : ℕ → Cell) (p : ℕ)
    (rows : Rows) :
    rowsAfter rows (displayWord blocks p
        ((BitVec.ofInt 32 v <<< 5) + BitVec.ofNat 32 (getTagsForFunction f))).1 =
      some (writeText rows (shownShort f v ++ [' '])) := by
  obtain ⟨htag, -, -⟩ := tag_shortFunction hf
  obtain ⟨k, hkLt, hk, hkv⟩ := toNat_short v htag
  obtain ⟨foreground, hshown⟩ := displayWord_short hf hk
  have hshift := toInt_shifted hkLt htag hk
  have hval : (if k < 2 ^ 26 then (k : ℤ) else k - 2 ^ 27) = v.bmod (2 ^ 27) := by
    rw [Int.bmod_def]
    split_ifs <;> omega
  rw [hshown, printNumber]
  cases hbase : fivebitFunction f with
  | none =>
    have hself : v.bmod (2 ^ 27) = v := by
      have := hrange hbase
      exact Int.bmod_eq_of_le (by omega) (by omega)
    have htext : shownShort f v = decimal v := by simp [shownShort, hbase]
    rw [htext, Option.isSome_none, if_neg Bool.false_ne_true,
      printDec_of_toInt (hshift.trans (hval.trans hself)) (by have := hrange hbase; omega),
      rowsAfter_number _ _ (printable_decimal v)]
  | some g =>
    have hcell : ((BitVec.ofInt 32 v <<< 5) +
        BitVec.ofNat 32 (getTagsForFunction f)).sshiftRight 5 =
          BitVec.ofInt 32 (v.bmod (2 ^ 27)) := by
      apply BitVec.eq_of_toInt_eq
      rw [hshift, ← hval, BitVec.toInt_ofInt_eq_self (by decide)]
      · split_ifs <;> omega
      · split_ifs <;> omega
    have htext : shownShort f v = numeral 16 (BitVec.ofInt 32 (v.bmod (2 ^ 27))).toNat := by
      simp [shownShort, hbase]
    rw [htext, Option.isSome_some, if_pos rfl, printHex_eq, hcell,
      rowsAfter_number _ _ (printable_numeral _ _)]

end numbers

section valued

variable {w : List Char} {blocks : ℕ → Cell} {p : ℕ}

theorem rowsAfter_variable (rows : Rows) {w numeral : List Char} (hw : Printable w)
    (h : Printable numeral) :
    rowsAfter rows (attributes fgMagenta :: display (w ++ [' ']) ++
        attributes fgBrightGreen :: (display numeral ++ [.displayCharacter ' '])) =
      some (writeText rows (w ++ [' '] ++ (numeral ++ [' ']))) := by
  have hname : rowsAfter rows (attributes fgMagenta :: display (w ++ [' '])) =
      some (writeText rows (w ++ [' '])) := by
    rw [rowsAfter_cons]
    change rowsAfter rows (display (w ++ [' '])) = _
    rw [rowsAfter_display _ (printable_append.mpr ⟨hw, printable_blank⟩)]
  rw [rowsAfter_append, hname, Option.bind_some, rowsAfter_number _ _ h, ← writeText_append]

theorem displayWord_variable (hw : IsWord w) (hfits : Fits 28 (codeBits w)) :
    (displayWord blocks p (nameCell w 12)).1 =
      attributes fgMagenta :: display (w ++ [' ']) ++
        attributes fgBrightGreen :: printPayload (nameCell w 12) (blocks (p + 1)) := by
  have hcolor : (nameCell w 12 &&& 0xf#32).toNat = 12 := color_nameCell (by decide)
  unfold displayWord
  rw [hcolor, printName_nameCell ⟨hw.letters, hfits⟩ (by decide)]
  rfl

theorem writeText_variable_inj {rows : Rows} {w text text' : List Char} :
    writeText rows (w ++ [' '] ++ (text ++ [' '])) =
        writeText rows (w ++ [' '] ++ (text' ++ [' '])) ↔ text = text' := by
  constructor
  · intro h
    have hbefore := congrArg Prod.fst h
    simpa [writeText] using hbefore
  · rintro rfl
    rfl

/-- The name takes all the bits: its last bit asks for a hexadecimal number. -/
theorem rowsAfter_variable_hex (hw : IsWord w) (hfits : Fits 28 (codeBits w))
    (hfull : ¬ Fits 27 (codeBits w)) {v : ℤ} (hpayload : blocks (p + 1) = BitVec.ofInt 32 v)
    (rows : Rows) :
    rowsAfter rows (displayWord blocks p (nameCell w 12)).1 =
        some (writeText rows (w ++ [' '] ++ (decimal v ++ [' ']))) ↔ 0 ≤ v ∧ v ≤ 9 := by
  have hbit : nameCell w 12 &&& 0x10#32 ≠ 0 := by
    rw [hexBit_nameCell (by decide)]
    have heven : Fits 27 (codeBits w) ↔ field 28 (codeBits w) % 2 = 0 := hfits.iff_even
    rw [heven] at hfull
    omega
  have hname := (printable_append.mp (show IsGroup w from ⟨hw.letters, hfits⟩).printable).1
  rw [displayWord_variable hw hfits, printPayload, if_pos hbit, hpayload, printHex_eq,
    rowsAfter_variable rows hname (printable_numeral _ _), Option.some_inj, writeText_variable_inj,
    numeral_sixteen_eq_decimal_iff (m := (BitVec.ofInt 32 v).toNat)]
  · intro hv
    rw [BitVec.toNat_ofInt]
    omega
  · intro hv hv9
    rw [BitVec.toNat_ofInt]
    omega

theorem rowsAfter_variable_dec (hw : IsWord w) (hfits : Fits 27 (codeBits w)) {v : ℤ}
    (hpayload : blocks (p + 1) = BitVec.ofInt 32 v) (rows : Rows) :
    rowsAfter rows (displayWord blocks p (nameCell w 12)).1 =
        some (writeText rows (w ++ [' '] ++ (decimal v ++ [' ']))) ↔
      -2 ^ 31 < v ∧ v < 2 ^ 31 := by
  have hfits28 : Fits 28 (codeBits w) := hfits.mono (by decide)
  have hbit : ¬ (nameCell w 12 &&& 0x10#32 ≠ 0) := by
    rw [hexBit_nameCell (by decide)]
    have heven : field 28 (codeBits w) % 2 = 0 := hfits28.iff_even.mp hfits
    omega
  have hself : -2 ^ 31 ≤ v → v < 2 ^ 31 → (BitVec.ofInt 32 v).toInt = v :=
    @BitVec.toInt_ofInt_eq_self 32 (by decide) v
  have hname := (printable_append.mp (show IsGroup w from ⟨hw.letters, hfits28⟩).printable).1
  rw [displayWord_variable hw hfits28, printPayload, if_neg hbit, hpayload]
  by_cases hmin : BitVec.ofInt 32 v = 0x80000000#32
  · -- the most negative number is not displayed
    refine iff_of_false ?_ fun ⟨hlo, hhi⟩ => ?_
    · rw [hmin, rowsAfter_displayUnknown]
      · simp
      · simp [printDec_intMin]
    · have hval := hself hlo.le hhi
      rw [hmin] at hval
      rw [← hval] at hlo
      revert hlo
      decide
  · rw [printDec_eq hmin, rowsAfter_variable rows hname (printable_decimal _), Option.some_inj,
      writeText_variable_inj]
    constructor
    · intro hdec
      have hv := decimal_injective hdec
      have hlt := @BitVec.toInt_lt 32 (BitVec.ofInt 32 v)
      have hle := @BitVec.le_toInt 32 (BitVec.ofInt 32 v)
      have hne : (BitVec.ofInt 32 v).toInt ≠ -2 ^ 31 := fun h =>
        hmin (BitVec.eq_of_toInt_eq (h.trans (by decide)))
      simp only [Nat.add_one_sub_one] at hlt hle
      omega
    · intro h
      obtain ⟨hlo, hhi⟩ := h
      rw [hself hlo.le hhi]

end valued

end Einherjar.Colorforth
