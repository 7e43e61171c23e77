import Einherjar.Colorforth.Display

/-! The number printers of the editor emit canonical numerals. -/
namespace Einherjar.Colorforth
open Einherjar.Io Einherjar.Lib

theorem displayHex_digit {k : ℕ} (hk : k < 16) :
    displayHex k = .displayCharacter (Nat.digitChar k) := by
  interval_cases k <;> rfl

/-- Digits displayed one after another. -/
def displayDigits (ds : List ℕ) : List VgaCall := display (ds.map Nat.digitChar)

theorem displayDigits_cons (d : ℕ) (ds : List ℕ) :
    displayDigits (d :: ds) = .displayCharacter (Nat.digitChar d) :: displayDigits ds := rfl

theorem display_numeral {base n : ℕ} (hbase : 1 < base) {places : ℕ} (hn : n < base ^ places)
    (hpos : n ≠ 0) :
    displayDigits (placeDigits base places n false) = display (numeral base n) := by
  rw [placeDigits_fresh hbase places n hn, displayDigits, numeral, if_neg hpos]

theorem printDecLoop_eq (places n : ℕ) (hn : n < 10 ^ places) (f : Bool) :
    printDecLoop places (10 ^ places / 10) n f = displayDigits (placeDigits 10 places n f) := by
  induction places generalizing n f with
  | zero => rfl
  | succ places ih =>
    have hpos : 0 < 10 ^ places := by positivity
    have hj : 10 ^ (places + 1) / 10 = 10 ^ places := by
      rw [pow_succ, Nat.mul_div_cancel _ (by decide)]
    have hk : (n : ℤ).tdiv ((10 ^ places : ℕ) : ℤ) = ((n / 10 ^ places : ℕ) : ℤ) := by
      rw [← Int.ofNat_tdiv]
    rw [hj, printDecLoop, if_neg hpos.ne', placeDigits]
    simp only [hk, Int.natCast_eq_zero]
    by_cases hzero : n / 10 ^ places = 0
    · have hlt : n < 10 ^ places := (Nat.div_eq_zero_iff_lt hpos).mp hzero
      rw [if_pos hzero, if_pos hzero, ih n hlt f]
      cases f <;> rfl
    · have hdigit : n / 10 ^ places < 16 := by
        have : n / 10 ^ places < 10 := Nat.div_lt_of_lt_mul (by rwa [← pow_succ])
        omega
      have hrest : (n : ℤ) - ((10 ^ places : ℕ) : ℤ) * ((n / 10 ^ places : ℕ) : ℤ) =
          ((n % 10 ^ places : ℕ) : ℤ) := by
        rw [Int.natCast_mod, Int.natCast_div, Int.emod_def]
      rw [if_neg hzero, if_neg hzero, hrest, ih _ (Nat.mod_lt n hpos), displayHex_digit hdigit,
        displayDigits_cons]

/-- `print_dec` emits the decimal numeral of every number but the most negative one. -/
theorem printDec_eq {i : Cell} (hi : i ≠ 0x80000000#32) :
    printDec i = display (decimal i.toInt) := by
  have hbounds : -2 ^ 31 < i.toInt ∧ i.toInt < 2 ^ 31 := by
    have hlt := @BitVec.toInt_lt 32 i
    have hle := @BitVec.le_toInt 32 i
    have hne : i.toInt ≠ -2 ^ 31 := fun h => hi (BitVec.eq_of_toInt_eq (h.trans (by decide)))
    simp only [Nat.add_one_sub_one] at hlt hle
    omega
  unfold printDec decimal
  by_cases hzero : i = 0
  · rw [if_pos hzero, hzero]
    rfl
  · have hne : i.toInt ≠ 0 := fun h => hzero (BitVec.eq_of_toInt_eq (h.trans (by decide)))
    have hloop : ∀ n : ℕ, n < 2 ^ 31 → n ≠ 0 →
        printDecLoop 10 1000000000 n false = display (numeral 10 n) := by
      intro n hn hn0
      have hten : n < 10 ^ 10 := by omega
      have heq := printDecLoop_eq 10 n hten false
      rw [show 10 ^ 10 / 10 = 1000000000 by decide] at heq
      rw [heq, display_numeral (by decide) hten hn0]
    by_cases hneg : i.toInt < 0
    · have hminus : (-i).toInt = (i.toInt.natAbs : ℤ) := by
        rw [BitVec.toInt_neg_of_ne_intMin]
        · omega
        · exact hi
      rw [if_neg hzero, if_pos hneg, if_pos hneg, hminus, hloop _ (by omega) (by omega)]
      rfl
    · have hplus : i.toInt = (i.toInt.natAbs : ℤ) := by omega
      rw [if_neg hzero, if_neg hneg, if_neg hneg]
      rw [hplus, hloop _ (by omega) (by omega)]
      rfl

theorem and_high_nibble (i : BitVec 32) : i &&& 0xf0000000#32 = (i >>> 28) <<< 28 := by
  ext k hk
  interval_cases k <;> simp

theorem high_nibble_eq_zero_iff (i : BitVec 32) :
    i &&& 0xf0000000#32 = 0 ↔ (i >>> 28).toNat = 0 := by
  have hlt := i.isLt
  rw [and_high_nibble, ← BitVec.toNat_inj, BitVec.toNat_shiftLeft, BitVec.toNat_ushiftRight,
    Nat.shiftLeft_eq, Nat.shiftRight_eq_div_pow]
  change _ = 0 ↔ _
  omega

/-- The highest of the remaining hexadecimal digits, and what is shifted up for the others. -/
theorem hex_place {places n : ℕ} (hplaces : places < 8) (hn : n < 16 ^ (places + 1)) :
    (BitVec.ofNat 32 (n * 16 ^ (8 - (places + 1))) >>> 28).toNat = n / 16 ^ places ∧
      BitVec.ofNat 32 (n * 16 ^ (8 - (places + 1))) <<< 4 =
        BitVec.ofNat 32 (n % 16 ^ places * 16 ^ (8 - places)) := by
  have hsplit : 16 ^ places * 16 ^ (8 - (places + 1)) = 2 ^ 28 := by
    rw [← pow_add, show places + (8 - (places + 1)) = 7 by omega]
    rfl
  have hwhole : 16 ^ places * 16 ^ (8 - places) = 2 ^ 32 := by
    rw [← pow_add, show places + (8 - places) = 8 by omega]
    rfl
  have hup : 16 ^ (8 - (places + 1)) * 2 ^ 4 = 16 ^ (8 - places) := by
    rw [show 8 - places = 8 - (places + 1) + 1 by omega, pow_succ 16, show 2 ^ 4 = 16 from rfl]
  constructor
  · have hlt : n * 16 ^ (8 - (places + 1)) < 2 ^ 32 := by
      have hmul := Nat.mul_lt_mul_of_pos_right hn (show 0 < 16 ^ (8 - (places + 1)) by positivity)
      rwa [pow_succ', Nat.mul_assoc, hsplit] at hmul
    rw [BitVec.toNat_ushiftRight, BitVec.toNat_ofNat, Nat.mod_eq_of_lt hlt,
      Nat.shiftRight_eq_div_pow, ← hsplit, Nat.mul_div_mul_right _ _ (by positivity)]
  · apply BitVec.eq_of_toNat_eq
    rw [BitVec.toNat_shiftLeft, BitVec.toNat_ofNat, BitVec.toNat_ofNat, Nat.shiftLeft_eq,
      Nat.mod_mul_mod, Nat.mul_assoc, hup]
    conv_lhs => rw [← Nat.mod_add_div n (16 ^ places), Nat.add_mul, Nat.mul_right_comm, hwhole,
      Nat.add_mul_mod_self_left]

theorem printHexLoop_eq {places n : ℕ} (hplaces : places ≤ 8) (hn : n < 16 ^ places) (f : Bool) :
    printHexLoop places (BitVec.ofNat 32 (n * 16 ^ (8 - places))) f =
      displayDigits (placeDigits 16 places n f) := by
  induction places generalizing n f with
  | zero => rfl
  | succ places ih =>
    have hpos : 0 < 16 ^ places := by positivity
    obtain ⟨htop, hshift⟩ := hex_place hplaces hn
    have hmod := Nat.mod_lt n hpos
    rw [printHexLoop, placeDigits]
    simp only [high_nibble_eq_zero_iff, htop, hshift]
    by_cases hzero : n / 16 ^ places = 0
    · have hlt : n < 16 ^ places := (Nat.div_eq_zero_iff_lt hpos).mp hzero
      rw [if_pos hzero, if_pos hzero, ih (by omega) hmod f, Nat.mod_eq_of_lt hlt]
      cases f <;> rfl
    · have hdigit : n / 16 ^ places < 16 := Nat.div_lt_of_lt_mul (by rwa [← pow_succ])
      rw [if_neg hzero, if_neg hzero, ih (by omega) hmod, displayHex_digit hdigit,
        displayDigits_cons]

/-- `print_hex` emits the hexadecimal numeral of every number. -/
theorem printHex_eq (i : BitVec 32) : printHex i = display (numeral 16 i.toNat) := by
  have hlt : i.toNat < 16 ^ 8 := i.isLt
  unfold printHex
  by_cases hzero : i = 0
  · rw [if_pos hzero, hzero]
    rfl
  · have hne : i.toNat ≠ 0 := fun h => hzero (BitVec.eq_of_toNat_eq h)
    have hloop := printHexLoop_eq (le_refl 8) hlt false
    rw [Nat.sub_self, pow_zero, Nat.mul_one, BitVec.ofNat_toNat, BitVec.setWidth_eq] at hloop
    rw [if_neg hzero, hloop, display_numeral (by decide) hlt hne]

/-- The most negative number makes `print_dec` read outside the table of digits. -/
theorem printDec_intMin : .displayUnknown ∈ printDec 0x80000000#32 := by decide

/-- The printers emit the numerals of a number, and read inside the table of digits. -/
structure PrintsNumerals (v : Cell) : Prop where
  dec : printDec v = display (decimal v.toInt)
  hexadecimal : printHex v = display (numeral 16 v.toNat)
  inTable : .displayUnknown ∉ printDec v ++ printHex v

theorem displayUnknown_notMem_display (text : List Char) : .displayUnknown ∉ display text := by
  intro h
  obtain ⟨c, -, hc⟩ := List.mem_map.mp h
  cases hc

/-- The printers are right on all numbers but the most negative one, which has no negation. -/
theorem printsNumerals_iff (v : Cell) : PrintsNumerals v ↔ v ≠ 0x80000000#32 := by
  constructor
  · rintro h rfl
    exact h.inTable (List.mem_append_left _ printDec_intMin)
  · intro hv
    have hdec := printDec_eq hv
    have hhex := printHex_eq v
    refine ⟨hdec, hhex, ?_⟩
    rw [hdec, hhex, List.mem_append]
    rintro (h | h)
    · exact displayUnknown_notMem_display _ h
    · exact displayUnknown_notMem_display _ h

/-- `-2147483648` is not printed. -/
theorem intMin_notPrinted : ¬ ∀ v : Cell, PrintsNumerals v := by
  intro h
  exact (h 0x80000000#32).inTable (List.mem_append_left _ printDec_intMin)

end Einherjar.Colorforth
