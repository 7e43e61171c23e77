import Einherjar.Colorforth.Numbers
import Einherjar.Colorforth.Totext

/-! The numbers that `totext` prints, and what the converter reads in them. -/
namespace Einherjar.Colorforth
open Einherjar.Lib

section reading

/-- The number that a list of digits denotes, the first one being the highest. -/
theorem digitsValue_digits {ds : List ℕ} (hds : ∀ d ∈ ds, d < 10) (value : ℕ) :
    digitsValue 10 (ds.map Nat.digitChar) value =
      some (ds.foldl (fun v d => 10 * v + d) value) := by
  induction ds generalizing value with
  | nil => rfl
  | cons d ds ih =>
    have hdigit : digitValue 10 (Nat.digitChar d) = some d := by
      have hd := hds d List.mem_cons_self
      interval_cases d <;> rfl
    rw [List.map_cons, digitsValue, hdigit]
    exact ih (fun e he => hds e (List.mem_cons_of_mem d he)) _

theorem foldl_digits (n : ℕ) :
    ((Nat.digits 10 n).reverse.foldl (fun v d => 10 * v + d) 0) = n := by
  rw [List.foldl_reverse]
  conv_rhs => rw [← Nat.ofDigits_digits 10 n, Nat.ofDigits_eq_foldr]
  congr 1
  funext d v
  rw [Nat.add_comm]
  rfl

/-- The characters of a numeral. -/
theorem mem_numeral {n : ℕ} {c : Char} (h : c ∈ numeral 10 n) : ∃ d < 10, c = Nat.digitChar d := by
  unfold numeral at h
  split_ifs at h
  · rw [List.mem_singleton.mp h]
    exact ⟨0, by decide, rfl⟩
  · obtain ⟨d, hd, rfl⟩ := List.mem_map.mp h
    exact ⟨d, Nat.digits_lt_base (by decide) (List.mem_reverse.mp hd), rfl⟩

theorem unsignedInt_of_plain {base : ℕ} {text : List Char} (hne : text ≠ [])
    (hx : ∀ c ∈ text, c ≠ 'x' ∧ c ≠ 'X') :
    unsignedInt base text = digitsValue base text 0 := by
  unfold unsignedInt
  split
  · exact absurd rfl hne
  · exact absurd rfl (hx 'x' (by simp)).1
  · exact absurd rfl (hx 'X' (by simp)).2
  · rfl

theorem unsignedInt_numeral (n : ℕ) : unsignedInt 10 (numeral 10 n) = some n := by
  have hvalue : digitsValue 10 (numeral 10 n) 0 = some n := by
    unfold numeral
    split_ifs with h
    · rw [h]
      rfl
    · rw [digitsValue_digits fun d hd =>
        Nat.digits_lt_base (by decide) (List.mem_reverse.mp hd), foldl_digits]
  have hx : ∀ c ∈ numeral 10 n, c ≠ 'x' ∧ c ≠ 'X' := by
    intro c hc
    obtain ⟨d, hd, rfl⟩ := mem_numeral hc
    interval_cases d <;> decide
  rw [unsignedInt_of_plain (numeral_ne_nil 10 n) hx, hvalue]

/-- Nothing is stripped from a text without spaces. -/
theorem strip_eq {text : List Char} (h : ∀ c ∈ text, isSpace c = false) :
    ((text.dropWhile isSpace).reverse.dropWhile isSpace).reverse = text := by
  have hself : ∀ cs : List Char, (∀ c ∈ cs, isSpace c = false) → cs.dropWhile isSpace = cs := by
    intro cs hcs
    cases cs with
    | nil => rfl
    | cons c cs => rw [List.dropWhile_cons_of_neg (by simp [hcs c List.mem_cons_self])]
  rw [hself text h, hself _ fun c hc => h c (List.mem_reverse.mp hc), List.reverse_reverse]

theorem int_of_unsigned {base n : ℕ} {text : List Char} (h : ∀ c ∈ text, isSpace c = false)
    (hsign : ∀ cs, text ≠ '-' :: cs ∧ text ≠ '+' :: cs) (hn : unsignedInt base text = some n) :
    int base text = some (n : ℤ) := by
  unfold int
  rw [strip_eq h]
  split
  · exact absurd rfl (hsign _).1
  · exact absurd rfl (hsign _).2
  · rw [hn]
    rfl

/-- The decimal numeral of a number is read as this number. -/
theorem int_decimal (v : ℤ) : int 10 (decimal v) = some v := by
  have hspace : ∀ n : ℕ, ∀ c ∈ numeral 10 n, isSpace c = false := by
    intro n c hc
    obtain ⟨d, hd, rfl⟩ := mem_numeral hc
    interval_cases d <;> decide
  have hplus : ∀ n cs, numeral 10 n ≠ '+' :: cs := by
    intro n cs h
    obtain ⟨d, hd, hc⟩ := mem_numeral (h ▸ List.mem_cons_self : '+' ∈ numeral 10 n)
    interval_cases d <;> exact absurd hc (by decide)
  unfold decimal
  split_ifs with hneg
  · have hminus : ∀ c ∈ '-' :: numeral 10 v.natAbs, isSpace c = false :=
      List.forall_mem_cons.mpr ⟨by decide, hspace _⟩
    unfold int
    rw [strip_eq hminus]
    simp only [unsignedInt_numeral]
    change some (-(v.natAbs : ℤ)) = some v
    rw [Option.some.injEq]
    omega
  · rw [int_of_unsigned (hspace _) (fun cs => ⟨numeral_ne_minus 10 _ cs, hplus _ cs⟩)
      (unsignedInt_numeral _)]
    congr 1
    omega

theorem int_zeros (k : ℕ) : int 16 (List.replicate (k + 1) '0') = some 0 := by
  have hzero : ∀ c ∈ List.replicate (k + 1) '0', c = '0' := fun c hc => List.eq_of_mem_replicate hc
  have hvalue : digitsValue 16 (List.replicate (k + 1) '0') 0 = some 0 := by
    induction k + 1 with
    | zero => rfl
    | succ k ih => exact ih
  refine int_of_unsigned (fun c hc => by rw [hzero c hc]; decide) (fun cs => ?_) ?_
  · rw [List.replicate_succ]
    exact ⟨fun h => absurd (List.cons.inj h).1 (by decide),
      fun h => absurd (List.cons.inj h).1 (by decide)⟩
  · rw [unsignedInt_of_plain (by simp) fun c hc => by rw [hzero c hc]; decide, hvalue]

end reading

namespace ParseCFBlockToText

section decimals

theorem printDecLoop_mono (j i : ℕ) (f : Bool) : Monotone fun fuel => printDecLoop fuel j i f := by
  apply monotone_nat_of_le_succ
  intro n
  induction n generalizing j i f with
  | zero => exact Outcome.outOfFuel_le _
  | succ n ih =>
    rw [printDecLoop, printDecLoop]
    split_ifs
    · exact le_rfl
    · exact Outcome.bind_mono (ih _ _ _) fun _ => le_rfl
    · exact Outcome.bind_mono (ih _ _ _) fun _ => le_rfl
    · cases hexChars[i / j]? with
      | none => exact le_rfl
      | some c => exact Outcome.bind_mono (ih _ _ _) fun _ => le_rfl

theorem printDec_mono (i : Cell) : Monotone fun fuel => printDec fuel i := by
  intro m n hmn
  simp only [printDec]
  split_ifs
  · exact le_rfl
  · exact Outcome.bind_mono (printDecLoop_mono _ _ _ hmn) fun _ => le_rfl
  · exact printDecLoop_mono _ _ _ hmn

theorem printHexOrDec_mono (n word : Cell) : Monotone fun fuel => printHexOrDec fuel n word := by
  intro a b hab
  simp only [printHexOrDec]
  split_ifs
  · exact le_rfl
  · exact printDec_mono n hab

/-- None of the digits at the lowest places is zero. -/
def NoZeroDigit : ℕ → ℕ → Prop
  | 0, _ => True
  | places + 1, i => i / 10 ^ places ≠ 0 ∧ NoZeroDigit places (i % 10 ^ places)

instance decidableNoZeroDigit : ∀ places i, Decidable (NoZeroDigit places i)
  | 0, _ => isTrue trivial
  | places + 1, i =>
    have := decidableNoZeroDigit places (i % 10 ^ places)
    inferInstanceAs (Decidable (i / 10 ^ places ≠ 0 ∧ NoZeroDigit places (i % 10 ^ places)))

/-- At a digit that is zero the loop turns round. -/
theorem printDecLoop_spins {j i : ℕ} (hj : j ≠ 0) (hi : i / j = 0) (f : Bool) (fuel : ℕ) :
    printDecLoop fuel j i f = .outOfFuel := by
  induction fuel with
  | zero => rfl
  | succ fuel ih =>
    rw [printDecLoop, if_neg hj, if_pos hi, ih]
    rfl

theorem limit_printDecLoop (places : ℕ) {i : ℕ} (hi : i < 10 ^ places) (f : Bool) :
    (Outcome.limit fun fuel => printDecLoop fuel (10 ^ places / 10) i f) =
      if NoZeroDigit places i then .done ((placeDigits 10 places i f).map Nat.digitChar)
      else .outOfFuel := by
  rw [← Outcome.limit_succ (printDecLoop_mono _ _ _)]
  induction places generalizing i f with
  | zero => exact Outcome.limit_const _
  | succ places ih =>
    have hpos : 0 < 10 ^ places := by positivity
    have hj : 10 ^ (places + 1) / 10 = 10 ^ places := by
      rw [pow_succ, Nat.mul_div_cancel _ (by decide)]
    have hdef : NoZeroDigit (places + 1) i ↔
        i / 10 ^ places ≠ 0 ∧ NoZeroDigit places (i % 10 ^ places) := Iff.rfl
    simp only [hj, hdef, placeDigits]
    by_cases hzero : i / 10 ^ places = 0
    · rw [if_neg fun h => h.1 hzero, Outcome.limit_eq_outOfFuel_iff]
      exact fun n => printDecLoop_spins hpos.ne' hzero f (n + 1)
    · have hdigit : i / 10 ^ places < 10 := Nat.div_lt_of_lt_mul (by rwa [← pow_succ])
      have hchar : hexChars[i / 10 ^ places]? = some (Nat.digitChar (i / 10 ^ places)) := by
        generalize i / 10 ^ places = d at hdigit
        interval_cases d <;> rfl
      have hmod : i - 10 ^ places * (i / 10 ^ places) = i % 10 ^ places := by
        have := Nat.div_add_mod i (10 ^ places)
        omega
      have hstep : ∀ n, printDecLoop (n + 1) (10 ^ places) i f =
          (printDecLoop n (10 ^ places / 10) (i % 10 ^ places) true).bind fun text =>
            .done (Nat.digitChar (i / 10 ^ places) :: text) := by
        intro n
        rw [printDecLoop, if_neg hpos.ne', if_neg hzero, hchar, hmod]
      simp only [hstep]
      rw [Outcome.limit_bind (printDecLoop_mono _ _ _) fun _ _ _ _ => le_rfl,
        ← Outcome.limit_succ (printDecLoop_mono _ _ _), ih (Nat.mod_lt i hpos), if_neg hzero]
      by_cases hrest : NoZeroDigit places (i % 10 ^ places)
      · rw [if_pos hrest, if_pos ⟨hzero, hrest⟩, Outcome.done_bind, Outcome.limit_const]
        rfl
      · rw [if_neg hrest, if_neg fun h => hrest h.2]
        rfl

/-- The numbers that `print_dec` prints: zero, and those with ten digits none of which is
zero. -/
def Printable (i : Cell) : Prop := i = 0 ∨ NoZeroDigit 10 i.toInt.natAbs

instance (i : Cell) : Decidable (Printable i) := by unfold Printable; infer_instance

theorem natAbs_toInt_le (i : Cell) : i.toInt.natAbs ≤ 2 ^ 31 := by
  have hlt := @BitVec.toInt_lt 32 i
  have hle := @BitVec.le_toInt 32 i
  simp only [Nat.add_one_sub_one] at hlt hle
  omega

theorem limit_printDec (i : Cell) : (Outcome.limit fun fuel => printDec fuel i) =
    if Printable i then .done (decimal i.toInt) else .outOfFuel := by
  by_cases hzero : i = 0
  · subst hzero
    simp only [printDec, if_true, Outcome.limit_const]
    rw [if_pos (show Printable 0 from .inl rfl)]
    rfl
  · have hne : i.toInt.natAbs ≠ 0 := fun h =>
      hzero (BitVec.eq_of_toInt_eq (Int.natAbs_eq_zero.mp h))
    have hle := natAbs_toInt_le i
    have hloop := limit_printDecLoop 10 (i := i.toInt.natAbs) (by omega) false
    have hdigits : (placeDigits 10 10 i.toInt.natAbs false).map Nat.digitChar =
        numeral 10 i.toInt.natAbs := by
      rw [placeDigits_fresh (by decide) _ _ (by omega), numeral, if_neg hne]
    have hprintable : Printable i ↔ NoZeroDigit 10 i.toInt.natAbs := or_iff_right hzero
    rw [hdigits, show 10 ^ 10 / 10 = 1000000000 by decide] at hloop
    simp only [printDec, if_neg hzero, decimal, hprintable]
    by_cases hneg : i.toInt < 0
    · simp only [if_pos hneg]
      rw [Outcome.limit_bind (printDecLoop_mono _ _ _) fun _ _ _ _ => le_rfl, hloop]
      by_cases hnz : NoZeroDigit 10 i.toInt.natAbs
      · rw [if_pos hnz, if_pos hnz, Outcome.done_bind, Outcome.limit_const]
      · rw [if_neg hnz, if_neg hnz]
        rfl
    · simp only [if_neg hneg]
      exact hloop

/-- A printable number that is not zero is large. -/
theorem Printable.eq_zero {i : Cell} (h : Printable i) (hsmall : i.toInt.natAbs < 10 ^ 9) :
    i = 0 := by
  rcases h with h | h
  · exact h
  · exact absurd (Nat.div_eq_of_lt hsmall) h.1

end decimals

section hexadecimals

/-- `print_hex` prints nothing but zeros. -/
theorem printHexLoop_zeros (n : ℕ) (i : Cell) (f : Bool) :
    ∃ k, printHexLoop n i f = List.replicate k '0' := by
  induction n generalizing i f with
  | zero => exact ⟨0, rfl⟩
  | succ n ih =>
    rw [printHexLoop]
    obtain ⟨k, hk⟩ := ih (i <<< 4) f
    obtain ⟨m, hm⟩ := ih (i <<< 4) true
    split_ifs with hzero hf
    · exact ⟨k + 1, by rw [hk]; rfl⟩
    · refine ⟨m + 1, ?_⟩
      rw [(high_nibble_eq_zero_iff i).mp hzero, hm]
      rfl
    · exact ⟨k, hk⟩

theorem printHex_zeros (i : Cell) : ∃ k, printHex i = List.replicate k '0' := by
  unfold printHex
  split_ifs
  · exact ⟨1, rfl⟩
  · exact printHexLoop_zeros 8 i false

end hexadecimals

end ParseCFBlockToText

end Einherjar.Colorforth
