import Einherjar.Colorforth.BlockBody
import Einherjar.Colorforth.Interpreter
import Einherjar.Colorforth.ValueDisplay
import Mathlib.Tactic.IntervalCases

/-! Numbers in the 27 bits above the tag of a cell: what the editor shows and the interpreter
pushes of the ones that the converter stores, and of the ones that are typed at the prompt. -/
namespace Einherjar.Colorforth
open Einherjar.Io Einherjar.Lib

/-- The numbers that the field can hold: signed in decimal, unsigned in hexadecimal. -/
def ShortRange (f : BlockFunction) (n : ℤ) : Prop :=
  if (fivebitFunction f).isSome then 0 ≤ n ∧ n < 2 ^ 27 else -2 ^ 26 ≤ n ∧ n < 2 ^ 26

/-- The numeral of a number in the base of the function. -/
def shortNumeral (f : BlockFunction) (n : ℤ) : List Char :=
  if (fivebitFunction f).isSome then numeral 16 n.toNat else decimal n

theorem printable_shortNumeral (f : BlockFunction) (n : ℤ) : Printable (shortNumeral f n) := by
  unfold shortNumeral
  split_ifs
  · exact printable_numeral _ _
  · exact printable_decimal n

/-- The cell is displayed as the number, and executed it pushes the number. -/
structure KeepsValue (f : BlockFunction) (cell : Cell) (n : ℤ) : Prop where
  displayed : ∀ blocks p, rowsText (displayWord blocks p cell).1 = some (shortNumeral f n ++ [' '])
  pushed : f = .executeShort ∨ f = .hexExecuteShort →
    ∀ s, interpretNumber cell s = .done (s.push (BitVec.ofInt 32 n))

section field

variable {f : BlockFunction} {cell : Cell} {k : ℕ} {n : ℤ}

/-- The shift of the decoders gives the number back if it is below half of the field. -/
theorem sshiftRight_of_lt {tag : ℕ} (htag : tag < 32) (hk : k < 2 ^ 27)
    (hcell : cell.toNat = k * 32 + tag) (hkn : (k : ℤ) = n % 2 ^ 27) (hlo : -2 ^ 26 ≤ n)
    (hhi : n < 2 ^ 26) : cell.sshiftRight 5 = BitVec.ofInt 32 n := by
  apply BitVec.eq_of_toInt_eq
  rw [toInt_shifted hk htag hcell,
    BitVec.toInt_ofInt_eq_self (by decide) (by omega) (by omega)]
  split_ifs <;> omega

theorem printNumber_eq (hex : Bool) (hcell : cell.sshiftRight 5 = BitVec.ofInt 32 n)
    (hhex : hex = true → 0 ≤ n) (hlo : -2 ^ 26 ≤ n) (hhi : n < 2 ^ 26) :
    printNumber cell hex =
      display (if hex then numeral 16 n.toNat else decimal n) ++ [.displayCharacter ' '] := by
  unfold printNumber
  rw [hcell]
  cases hex with
  | true =>
    have hn := hhex rfl
    have hnat : (BitVec.ofInt 32 n).toNat = n.toNat := by
      rw [BitVec.toNat_ofInt]
      omega
    rw [if_pos rfl, if_pos rfl, printHex_eq, hnat]
  | false =>
    have hself := @BitVec.toInt_ofInt_eq_self 32 (by decide) n (by omega) (by omega)
    rw [if_neg Bool.false_ne_true, if_neg Bool.false_ne_true, printDec_of_toInt hself (by omega)]

/-- From half of the field on, the number is shifted as a negative one, and printed as what is
left when that is taken for unsigned. -/
theorem displayed_ne_of_le (hf : f ∈ shortFunctions) (hhex : (fivebitFunction f).isSome)
    (hk : k < 2 ^ 27) (hcell : cell.toNat = k * 32 + getTagsForFunction f) (hhalf : 2 ^ 26 ≤ k)
    (blocks : ℕ → Cell) (p : ℕ) :
    rowsText (displayWord blocks p cell).1 ≠ some (numeral 16 k ++ [' ']) := by
  obtain ⟨foreground, hshown⟩ := displayWord_short hf hcell
  have hshift := toInt_shifted hk (tag_shortFunction hf).1 hcell
  rw [if_neg (by omega)] at hshift
  intro h
  rw [hshown, hhex, printNumber, if_pos rfl, printHex_eq,
    rowsText_number _ (printable_numeral _ _)] at h
  have hnumeral := List.append_cancel_right (Option.some.inj h)
  have hnat := numeral_injective (by decide) (by decide) hnumeral
  rw [BitVec.toInt_eq_toNat_cond, hnat] at hshift
  split_ifs at hshift <;> omega

end field

/-- The converter puts every number of the range in one cell; the cell keeps the value unless the
number is hexadecimal and takes the highest of the 27 bits. -/
theorem keepsValue_iff (f : BlockFunction) (param : List Char) (n : ℤ) (hf : f ∈ shortFunctions)
    (hparam : taggedInt (getTagsForFunction f) param = some n) (hrange : ShortRange f n) :
    ∃ cell,
      (∀ fuel inVariable,
        wordToLongArray fuel inVariable f param = .done ([cell], inVariable)) ∧
      (KeepsValue f cell n ↔ fivebitFunction f = none ∨ n < 2 ^ 26) := by
  obtain ⟨htag, -, -⟩ := tag_shortFunction hf
  obtain ⟨k, hk, hcell, hkn⟩ := toNat_short n htag
  refine ⟨_, wordToLongArray_short hf hparam, ?_⟩
  generalize (BitVec.ofInt 32 n <<< 5) + BitVec.ofNat 32 (getTagsForFunction f) = cell at hcell
  unfold ShortRange at hrange
  by_cases hsmall : n < 2 ^ 26
  · have hlo : -2 ^ 26 ≤ n := by split_ifs at hrange <;> omega
    have hnonneg : (fivebitFunction f).isSome = true → 0 ≤ n := by
      intro hhex
      rw [if_pos hhex] at hrange
      exact hrange.1
    have hshift := sshiftRight_of_lt htag hk hcell hkn hlo hsmall
    obtain ⟨foreground, hshown⟩ := displayWord_short hf hcell
    refine iff_of_true ⟨?_, ?_⟩ (.inr hsmall)
    · intro blocks p
      rw [hshown, printNumber_eq _ hshift hnonneg hlo hsmall]
      exact rowsText_number foreground (printable_shortNumeral f n)
    · intro _ s
      rw [interpretNumber, hshift]
  · have hhex : (fivebitFunction f).isSome = true := by
      by_contra hdec
      rw [if_neg hdec] at hrange
      exact hsmall hrange.2
    rw [if_pos hhex] at hrange
    obtain rfl : n = k := by omega
    refine iff_of_false ?_ ?_
    · intro h
      have hshown := h.displayed (fun _ => 0) 0
      rw [shortNumeral, if_pos hhex] at hshown
      exact displayed_ne_of_le hf hhex hk hcell (by omega) _ _ hshown
    · rintro (hdec | h)
      · rw [hdec] at hhex
        exact Bool.false_ne_true hhex
      · exact hsmall h

theorem keepsValue_iff_negative : ∃ cell,
    (∀ fuel inVariable, wordToLongArray fuel inVariable .executeShort "-67108864".toList =
      .done ([cell], inVariable)) ∧
    (KeepsValue .executeShort cell (-67108864) ↔
      fivebitFunction .executeShort = none ∨ (-67108864 : ℤ) < 2 ^ 26) :=
  keepsValue_iff .executeShort _ _ (by decide) (by decide) (by unfold ShortRange; decide)

/-- The hexadecimal number 4000000 is displayed as fc000000. -/
theorem hex_short_not_kept : ¬ ∀ (f : BlockFunction) (param : List Char) (n : ℤ),
    f ∈ shortFunctions → taggedInt (getTagsForFunction f) param = some n → ShortRange f n →
      ∃ cell,
        (∀ fuel inVariable,
          wordToLongArray fuel inVariable f param = .done ([cell], inVariable)) ∧
        KeepsValue f cell n := by
  intro h
  obtain ⟨cell, hcell, hkeeps⟩ :=
    h .hexExecuteShort "4000000".toList 0x4000000 (by decide) (by decide)
      (by unfold ShortRange; decide)
  have hbits : wordToLongArray 0 false .hexExecuteShort "4000000".toList =
      .done ([0x80000018#32], false) := by decide
  rw [hcell 0 false] at hbits
  obtain rfl : cell = 0x80000018#32 := by simpa using hbits
  have hshown := hkeeps.displayed (fun _ => 0) 0
  revert hshown
  decide

section prompt

variable {word : List Char}

theorem isNumber_of_isDigit (h : ∀ c ∈ word, c.isDigit = true) : isNumber word = true := by
  refine List.all_eq_true.mpr fun c hc => ?_
  obtain ⟨hlo, hhi⟩ := Char.isDigit_iff_toNat.mp (h c hc)
  have hofNat := Char.ofNat_toNat c
  generalize c.toNat = m at hlo hhi hofNat
  subst hofNat
  have hlo : 48 ≤ m := hlo
  have hhi : m ≤ 57 := hhi
  interval_cases m <;> decide

/-- The loop of `atoi`, from any value on. -/
theorem foldl_atoi (h : ∀ c ∈ word, c.isDigit = true) (m : ℕ) :
    word.foldl (fun k c => k * 10 + BitVec.ofNat 32 c.toNat - 48) (BitVec.ofNat 32 m) =
      BitVec.ofNat 32 (Nat.ofDigitChars 10 word m) := by
  induction word generalizing m with
  | nil => rw [List.foldl_nil, Nat.ofDigitChars_nil]
  | cons c word ih =>
    have hlo : 48 ≤ c.toNat := (Char.isDigit_iff_toNat.mp (h c List.mem_cons_self)).1
    have hstep : BitVec.ofNat 32 m * 10 + BitVec.ofNat 32 c.toNat - 48 =
        BitVec.ofNat 32 (10 * m + (c.toNat - 48)) := by
      rw [show 10 * m + (c.toNat - 48) = m * 10 + c.toNat - 48 by omega]
      apply BitVec.eq_of_toNat_eq
      change (BitVec.ofNat 32 m * 10#32 + BitVec.ofNat 32 c.toNat - 48#32).toNat = _
      simp only [BitVec.toNat_sub, BitVec.toNat_add, BitVec.toNat_mul, BitVec.toNat_ofNat]
      omega
    rw [List.foldl_cons, hstep, ih fun x hx => h x (List.mem_cons_of_mem _ hx),
      Nat.ofDigitChars_cons]
    rfl

/-- `atoi` computes the value of the numeral, up to the overflow of an `int`. -/
theorem atoi_eq (h : ∀ c ∈ word, c.isDigit = true) :
    atoi word = BitVec.ofNat 32 (Nat.ofDigitChars 10 word 0) := foldl_atoi h 0

/-- A cell with the tag of a number pushes what is above the tag. -/
theorem dispatchCommand_number (fuel : ℕ) (run : Cell → Forth → Outcome Forth) {packed : Cell}
    (hcolor : packed.toNat % 16 = 8) (s : Forth) :
    dispatchCommand fuel run packed s =
      .done ((dotS (s.push (packed.sshiftRight 5))).call commandPrompt) := by
  rw [← toNat_color] at hcolor
  rw [dispatchCommand, dispatchWord, hcolor]
  rfl

/-- What the prompt does with a numeral: the number is pushed, cut off to 27 bits. -/
theorem doCmd_number (codeAddress : BitVec 32) (fuel : ℕ) (run : Cell → Forth → Outcome Forth)
    (h : ∀ c ∈ word, c.isDigit = true) (s : Forth) :
    ∃ t x k, doCmd codeAddress fuel run word s = .done t ∧
      t.stack = Function.update s.stack s.tos x ∧ t.tos = s.tos + 1 ∧
      k = Nat.ofDigitChars 10 word 0 % 2 ^ 27 ∧
      x.toInt = if k < 2 ^ 26 then (k : ℤ) else k - 2 ^ 27 := by
  obtain ⟨k, hk, hcell, hkn⟩ := toNat_short (Nat.ofDigitChars 10 word 0) (show 8 < 32 by decide)
  have hpacked : (atoi word <<< 5) + interpretNumberTag =
      (BitVec.ofInt 32 (Nat.ofDigitChars 10 word 0) <<< 5) + BitVec.ofNat 32 8 := by
    rw [atoi_eq h, BitVec.ofInt_natCast]
    rfl
  have hshift := toInt_shifted hk (by decide) hcell
  rw [doCmd, if_pos (isNumber_of_isDigit h), hpacked,
    dispatchCommand_number fuel run (by omega)]
  exact ⟨_, _, k, rfl, rfl, rfl, by omega, hshift⟩

end prompt

/-- A numeral typed at the prompt arrives on the stack as its value, and nothing else changes
there; what is not a numeral because it is empty leaves the stack as it is. -/
def Arrives (word : List Char) (s t : Forth) : Prop :=
  if word = [] then t.stack = s.stack ∧ t.tos = s.tos
  else t.stack = Function.update s.stack s.tos (BitVec.ofNat 32 (Nat.ofDigitChars 10 word 0)) ∧
    t.tos = s.tos + 1

/-- The command comes back for every string of digits. Only values below 2 ^ 26 arrive, and the
empty string is taken for a number as well. -/
theorem typed_number_arrives_iff (codeAddress : BitVec 32) (fuel : ℕ)
    (run : Cell → Forth → Outcome Forth) (word : List Char) (s : Forth)
    (hdigits : ∀ c ∈ word, c.isDigit = true) (hfits : Nat.ofDigitChars 10 word 0 < 2 ^ 31) :
    ∃ t, doCmd codeAddress fuel run word s = .done t ∧
      (Arrives word s t ↔ word ≠ [] ∧ Nat.ofDigitChars 10 word 0 < 2 ^ 26) := by
  obtain ⟨t, x, k, hdone, hstack, htos, hk, hx⟩ := doCmd_number codeAddress fuel run hdigits s
  refine ⟨t, hdone, ?_⟩
  unfold Arrives
  by_cases hword : word = []
  · rw [if_pos hword]
    refine iff_of_false ?_ fun h => h.1 hword
    rintro ⟨-, hsame⟩
    omega
  · have hvalue : (BitVec.ofNat 32 (Nat.ofDigitChars 10 word 0)).toInt =
        (Nat.ofDigitChars 10 word 0 : ℤ) := by
      rw [BitVec.toInt_ofNat', Int.bmod_eq_of_le] <;> omega
    rw [if_neg hword, hstack, (Function.update_injective s.stack s.tos).eq_iff,
      ← BitVec.toInt_inj, hx, hvalue]
    constructor
    · rintro ⟨hsame, -⟩
      refine ⟨hword, ?_⟩
      split_ifs at hsame <;> omega
    · rintro ⟨-, hlt⟩
      refine ⟨?_, htos⟩
      split_ifs <;> omega

theorem typed_number_arrives_iff_42 :
    ∃ t, doCmd 0 0 (fun _ s => .done s) "42".toList colorforthInitialize = .done t ∧
      (Arrives "42".toList colorforthInitialize t ↔
        "42".toList ≠ [] ∧ Nat.ofDigitChars 10 "42".toList 0 < 2 ^ 26) :=
  typed_number_arrives_iff 0 0 _ _ _ (by decide) (by decide)

/-- 67108864 arrives as -67108864. -/
theorem typed_number_lost : ¬ ∀ (codeAddress : BitVec 32) (fuel : ℕ)
    (run : Cell → Forth → Outcome Forth) (word : List Char) (s : Forth),
      (∀ c ∈ word, c.isDigit = true) → Nat.ofDigitChars 10 word 0 < 2 ^ 31 →
        ∃ t, doCmd codeAddress fuel run word s = .done t ∧ Arrives word s t := by
  intro h
  have hdigits : ∀ c ∈ "67108864".toList, c.isDigit = true := by decide
  obtain ⟨t, hdone, harrives⟩ :=
    h 0 0 (fun _ s => .done s) _ colorforthInitialize hdigits (by decide)
  obtain ⟨u, x, k, hdone', hstack, -, rfl, hx⟩ :=
    doCmd_number 0 0 (fun _ s => .done s) hdigits colorforthInitialize
  obtain rfl := Outcome.done.inj (hdone.symm.trans hdone')
  rw [Arrives, if_neg (by decide), hstack] at harrives
  have hvalue := Function.update_injective _ _ harrives.1
  rw [hvalue] at hx
  revert hx
  decide

end Einherjar.Colorforth
