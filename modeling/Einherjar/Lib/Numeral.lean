import Mathlib.Data.Nat.Digits.Lemmas
import Mathlib.Tactic.IntervalCases
import Mathlib.Tactic.Ring

/-! Positional numerals, and the loop that emits one digit place after another and leaves
out the leading zeros. -/
namespace Einherjar.Lib

/-- The canonical numeral of `n`: no leading zeros. -/
def numeral (base n : ℕ) : List Char :=
  if n = 0 then ['0'] else (Nat.digits base n).reverse.map Nat.digitChar

/-- The canonical decimal numeral of an integer. -/
def decimal (v : ℤ) : List Char :=
  if v < 0 then '-' :: numeral 10 v.natAbs else numeral 10 v.natAbs

/-- The digits of `i` at the `places` lowest places, from the highest on. Zeros are left out
until `started` is set. -/
def placeDigits (base : ℕ) : ℕ → ℕ → Bool → List ℕ
  | 0, _, _ => []
  | places + 1, i, started =>
    if i / base ^ places = 0 then
      if started then 0 :: placeDigits base places i started
      else placeDigits base places i started
    else i / base ^ places :: placeDigits base places (i % base ^ places) true

/-- The digit at the highest place, and the digits of the rest filled up with zeros. -/
theorem digits_highest {base i places : ℕ} (hbase : 1 < base) (hi : i < base ^ (places + 1))
    (hk : i / base ^ places ≠ 0) :
    Nat.digits base i = Nat.digits base (i % base ^ places) ++
      List.replicate (places - (Nat.digits base (i % base ^ places)).length) 0 ++
        [i / base ^ places] := by
  have hpos : 0 < base ^ places := by positivity
  have hlt : i / base ^ places < base := Nat.div_lt_of_lt_mul (by rwa [← Nat.pow_succ])
  have hlen : (Nat.digits base (i % base ^ places)).length ≤ places :=
    (Nat.digits_length_le_iff hbase _).mpr (Nat.mod_lt i hpos)
  rw [← Nat.digits_of_lt base (i / base ^ places) hk hlt,
    Nat.digits_append_zeroes_append_digits hbase (Nat.pos_of_ne_zero hk),
    Nat.add_sub_cancel' hlen, Nat.mod_add_div]

theorem placeDigits_started {base : ℕ} (hbase : 1 < base) (places i : ℕ)
    (hi : i < base ^ places) :
    placeDigits base places i true =
      List.replicate (places - (Nat.digits base i).length) 0 ++ (Nat.digits base i).reverse := by
  induction places generalizing i with
  | zero =>
    obtain rfl : i = 0 := by simpa using hi
    simp [placeDigits]
  | succ places ih =>
    have hpos : 0 < base ^ places := by positivity
    unfold placeDigits
    by_cases hk : i / base ^ places = 0
    · have hlt : i < base ^ places := (Nat.div_eq_zero_iff_lt hpos).mp hk
      have hlen := (Nat.digits_length_le_iff hbase i).mpr hlt
      rw [if_pos hk, if_pos rfl, ih i hlt, Nat.succ_sub hlen, List.replicate_succ, List.cons_append]
    · have hmod := Nat.mod_lt i hpos
      have hlen : (Nat.digits base (i % base ^ places)).length ≤ places :=
        (Nat.digits_length_le_iff hbase _).mpr hmod
      rw [if_neg hk, ih _ hmod, digits_highest hbase hi hk]
      simp only [List.reverse_append, List.reverse_replicate, List.reverse_singleton,
        List.length_append, List.length_replicate, List.length_singleton]
      have hzero : places + 1 - ((Nat.digits base (i % base ^ places)).length +
          (places - (Nat.digits base (i % base ^ places)).length) + 1) = 0 := by omega
      rw [hzero]
      simp

theorem placeDigits_fresh {base : ℕ} (hbase : 1 < base) (places i : ℕ)
    (hi : i < base ^ places) : placeDigits base places i false = (Nat.digits base i).reverse := by
  induction places generalizing i with
  | zero =>
    obtain rfl : i = 0 := by simpa using hi
    simp [placeDigits]
  | succ places ih =>
    have hpos : 0 < base ^ places := by positivity
    unfold placeDigits
    by_cases hk : i / base ^ places = 0
    · rw [if_pos hk, if_neg Bool.false_ne_true, ih i ((Nat.div_eq_zero_iff_lt hpos).mp hk)]
    · have hmod := Nat.mod_lt i hpos
      rw [if_neg hk, placeDigits_started hbase places _ hmod, digits_highest hbase hi hk]
      simp

/-- A character that is no digit. -/
theorem notMem_numeral {c : Char} (hc : ∀ d < 16, Nat.digitChar d ≠ c) (hstar : c ≠ '*')
    (base n : ℕ) : c ∉ numeral base n := by
  intro h
  unfold numeral at h
  split_ifs at h
  · exact hc 0 (by decide) (List.mem_singleton.mp h).symm
  · obtain ⟨d, -, hd⟩ := List.mem_map.mp h
    by_cases hd16 : d < 16
    · exact hc d hd16 hd
    · rw [Nat.digitChar_eq_star.mpr (Nat.le_of_not_lt hd16)] at hd
      exact hstar hd.symm

theorem numeral_ne_minus (base n : ℕ) (cs : List Char) : numeral base n ≠ '-' :: cs := by
  intro h
  exact notMem_numeral (by decide) (by decide) base n (h ▸ List.mem_cons_self)

theorem numeral_ne_nil (base n : ℕ) : numeral base n ≠ [] := by
  unfold numeral
  split_ifs with hn
  · exact List.cons_ne_nil _ _
  · intro h
    have hdigits : Nat.digits base n = [] :=
      List.reverse_eq_nil_iff.mp (List.map_eq_nil_iff.mp h)
    exact Nat.digits_ne_nil_iff_ne_zero.mpr hn hdigits

theorem digitChar_injOn {ds es : List ℕ} (hds : ∀ d ∈ ds, d < 16) (hes : ∀ e ∈ es, e < 16)
    (h : ds.map Nat.digitChar = es.map Nat.digitChar) : ds = es := by
  induction ds generalizing es with
  | nil => exact (List.map_eq_nil_iff.mp h.symm).symm
  | cons d ds ih =>
    cases es with
    | nil => simp at h
    | cons e es =>
      obtain ⟨hhead, htail⟩ := List.cons.inj h
      have hde : d = e := by
        have hd := hds d List.mem_cons_self
        have he := hes e List.mem_cons_self
        clear hds hes ih h htail
        interval_cases d <;> interval_cases e <;> first | rfl | exact absurd hhead (by decide)
      rw [hde, ih (fun x hx => hds x (List.mem_cons_of_mem _ hx))
        (fun x hx => hes x (List.mem_cons_of_mem _ hx)) htail]

/-- A hexadecimal numeral that reads as the decimal numeral of a number not smaller has one
digit. -/
theorem le_nine_of_numeral_eq {m n : ℕ} (h : numeral 16 m = numeral 10 n) (hmn : m ≤ n) :
    n ≤ 9 := by
  by_contra hn
  have hn0 : n ≠ 0 := by omega
  have hm0 : m ≠ 0 := by
    rintro rfl
    have hlen := congrArg List.length h
    have hshort : ¬ (Nat.digits 10 n).length ≤ 1 := by
      rw [Nat.digits_length_le_iff (by decide)]
      omega
    simp only [numeral, hn0, if_true, if_false, List.length_map, List.length_reverse,
      List.length_singleton] at hlen
    omega
  rw [numeral, numeral, if_neg hm0, if_neg hn0, List.map_reverse, List.map_reverse,
    List.reverse_inj] at h
  have hdigits : Nat.digits 16 m = Nat.digits 10 n :=
    digitChar_injOn (fun d hd => Nat.digits_lt_base (by decide) hd)
      (fun e he => (Nat.digits_lt_base (by decide) he).trans (by decide)) h
  have hm := Nat.ofDigits_digits 16 m
  have hten := Nat.ofDigits_digits 10 n
  rw [hdigits] at hm
  have hhead := Nat.digits_def' (b := 10) (by decide) (Nat.pos_of_ne_zero hn0)
  rw [hhead, Nat.ofDigits_cons] at hm hten
  have hmono := Nat.ofDigits_monotone (Nat.digits 10 (n / 10)) (show 10 ≤ 16 by decide)
  omega

theorem numeral_injective {base : ℕ} (hbase : 1 < base) (hle : base ≤ 16) {m n : ℕ}
    (h : numeral base m = numeral base n) : m = n := by
  have hzero : ∀ {k : ℕ}, numeral base k = ['0'] → k = 0 := by
    intro k hk
    by_contra hne
    rw [numeral, if_neg hne, List.map_reverse] at hk
    have hone : (Nat.digits base k).map Nat.digitChar = ['0'] := by
      rw [← List.reverse_reverse ((Nat.digits base k).map Nat.digitChar), hk]
      rfl
    obtain ⟨d, hd, hchar⟩ := List.map_eq_singleton_iff.mp hone
    have hlast := Nat.getLast_digit_ne_zero base hne
    simp only [hd, List.getLast_singleton] at hlast
    exact hlast (Nat.digitChar_eq_zero.mp hchar)
  by_cases hm : m = 0
  · subst hm
    exact (hzero (h.symm.trans rfl)).symm
  · by_cases hn : n = 0
    · subst hn
      exact hzero (h.trans rfl)
    · rw [numeral, numeral, if_neg hm, if_neg hn, List.map_reverse, List.map_reverse,
        List.reverse_inj] at h
      exact Nat.digits_inj_iff.mp (digitChar_injOn
        (fun d hd => (Nat.digits_lt_base hbase hd).trans_le hle)
        (fun e he => (Nat.digits_lt_base hbase he).trans_le hle) h)

theorem decimal_injective {v w : ℤ} (h : decimal v = decimal w) : v = w := by
  have hnat : ∀ {m n : ℕ}, numeral 10 m = numeral 10 n → m = n :=
    numeral_injective (by decide) (by decide)
  unfold decimal at h
  by_cases hv : v < 0
  · by_cases hw : w < 0
    · rw [if_pos hv, if_pos hw] at h
      have := hnat (List.cons.inj h).2
      omega
    · rw [if_pos hv, if_neg hw] at h
      exact absurd h.symm (numeral_ne_minus _ _ _)
  · by_cases hw : w < 0
    · rw [if_neg hv, if_pos hw] at h
      exact absurd h (numeral_ne_minus _ _ _)
    · rw [if_neg hv, if_neg hw] at h
      have := hnat h
      omega

/-- A hexadecimal numeral is the decimal numeral of a number not smaller only for one digit. -/
theorem numeral_sixteen_eq_decimal_iff {m : ℕ} {v : ℤ} (hm : 0 ≤ v → m ≤ v.natAbs)
    (hsmall : 0 ≤ v → v ≤ 9 → m = v.natAbs) :
    numeral 16 m = decimal v ↔ 0 ≤ v ∧ v ≤ 9 := by
  unfold decimal
  constructor
  · intro h
    by_cases hv : v < 0
    · rw [if_pos hv] at h
      exact absurd h (numeral_ne_minus _ _ _)
    · rw [if_neg hv] at h
      have := le_nine_of_numeral_eq h (hm (by omega))
      omega
  · intro h
    obtain ⟨hv, hv9⟩ := h
    rw [if_neg (by omega), hsmall hv hv9]
    generalize hn : v.natAbs = n
    unfold numeral
    by_cases hzero : n = 0
    · rw [if_pos hzero, if_pos hzero]
    · rw [if_neg hzero, if_neg hzero, Nat.digits_of_lt 16 n hzero (by omega),
        Nat.digits_of_lt 10 n hzero (by omega)]

end Einherjar.Lib
