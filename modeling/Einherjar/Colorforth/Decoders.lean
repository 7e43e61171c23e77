import Einherjar.Colorforth.Encoder
import Mathlib.Data.Nat.Bitwise

/-! The five decoders of names: the editor's, two in the converter, the one of the HTML writer and
the one of the unpacking tool. -/
namespace Einherjar.Colorforth
open Einherjar.Lib

/-! The bodies of the loops: the index of a letter and what is left to decode. -/

/-- The loop of the editor's `unpack`. -/
def unpackNext (coded : BitVec 32) : Option (ℕ × BitVec 32) :=
  if coded = 0 then none
  else
    let nibble := (coded >>> 28).toNat
    let coded := coded <<< 4
    if nibble < 0x8 then some (nibble, coded)
    else if nibble < 0xc then
      some (((nibble ^^^ 0xc) <<< 1) ||| (decide (coded &&& 0x80000000#32 > 0)).toNat, coded <<< 1)
    else some ((coded >>> 29).toNat + 8 * (nibble - 10), coded <<< 3)

/-- The loop of `print_text` in `cf2html.c`. -/
def Cf2html.printTextNext (t : BitVec 32) : Option (ℕ × BitVec 32) :=
  if t = 0 then none
  else if t &&& 0x80000000#32 = 0 then some ((t >>> 28).toNat, t <<< 4)
  else if t &&& 0xc0000000#32 = 0x80000000#32 then
    some ((8#32 + ((t >>> 27) &&& 7#32)).toNat, t <<< 5)
  else some ((((t >>> 28) - 10#32) * 8#32 + ((t >>> 25) &&& 7#32)).toNat, t <<< 7)

def highbit : ℕ := 0x80000000

/-- The loop of `unpack` in the converter and in the unpacking tool. -/
def Python.unpackNext (coded : ℕ) : Option (ℕ × ℕ) :=
  if coded = 0 then none
  else
    let nibble := coded >>> 28
    let coded := (coded <<< 4) &&& mask
    if nibble < 0x8 then some (nibble, coded)
    else if nibble < 0xc then
      some (((nibble ^^^ 0xc) <<< 1) ||| (decide (coded &&& highbit > 0)).toNat,
        (coded <<< 1) &&& mask)
    else some ((coded >>> 29) + 8 * (nibble - 10), (coded <<< 3) &&& mask)

/-- The loop of the converter's `print_text`. -/
def Converter.printTextNext (word : ℕ) : Option (ℕ × ℕ) :=
  if word = 0 then none
  else if word &&& 0x80000000 = 0 then some (word >>> 28, (word <<< 4) &&& mask)
  else if word &&& 0xc0000000 = 0x80000000 then
    some (8 + ((word >>> 27) &&& 7), (word <<< 5) &&& mask)
  else some (((word >>> 28) - 10) * 8 + ((word >>> 25) &&& 7), (word <<< 7) &&& mask)

/-! The tables. -/

/-- `ch` -/
def Cf2html.ch : List Char :=
  [' ', 'r', 't', 'o', 'e', 'a', 'n', 'i',
   's', 'm', 'c', 'y', 'l', 'g', 'f', 'w',
   'd', 'v', 'p', 'b', 'h', 'x', 'u', 'q',
   '0', '1', '2', '3', '4', '5', '6', '7',
   '8', '9', 'j', '-', 'k', '.', 'z', '/',
   ';', ':', '!', '+', '@', '*', ',', '?']

/-- `code` of the converter -/
def Converter.code : List Char :=
  " rtoeani".toList ++ "smcylgfw".toList ++ "dvpbhxuq".toList ++ "01234567".toList ++
    "89j-k.z/".toList ++ ";:!+@*,?".toList

/-- `chars` -/
def Converter.chars : List Char :=
  [' ', 'r', 't', 'o', 'e', 'a', 'n', 'i',
   's', 'm', 'c', 'y', 'l', 'g', 'f', 'w',
   'd', 'v', 'p', 'b', 'h', 'x', 'u', 'q',
   '0', '1', '2', '3', '4', '5', '6', '7',
   '8', '9', 'j', '-', 'k', '.', 'z', '/',
   ';', ':', '!', '+', '@', '*', ',', '?']

/-- `newcode` -/
def UnpackTool.code : List Char :=
  " rtoeani".toList ++ "smcylgfw".toList ++ "dvpbhxuq".toList ++ "01234567".toList ++
    "89j-k.z/".toList ++ ";:!+@*,?".toList

/-! The decoders. An index outside the table stops them. -/

/-- The editor's `unpack`: the string in the buffer, which is all zeros before. -/
def Editor.unpack (fuel : ℕ) (word : BitVec 32) : Outcome (List Char) :=
  Outcome.letterLoop code unpackNext fuel (word &&& ~~~0xf#32)

def Cf2html.printText (fuel : ℕ) (t : BitVec 32) : Outcome (List Char) :=
  Outcome.letterLoop Cf2html.ch Cf2html.printTextNext fuel t

/-- `coded &= ~0xf`, on a number that is not negative. -/
def Converter.unpack (fuel : ℕ) (coded : ℕ) : Outcome (List Char) :=
  Outcome.letterLoop Converter.code Python.unpackNext fuel (coded.ldiff 0xf)

def Converter.printText (fuel : ℕ) (word : ℕ) : Outcome (List Char) :=
  Outcome.letterLoop Converter.chars Converter.printTextNext fuel word

def UnpackTool.unpack (fuel : ℕ) (coded : ℕ) : Outcome (List Char) :=
  Outcome.letterLoop UnpackTool.code Python.unpackNext fuel (coded.ldiff 0xf)

/-! What the loops have in common, on numbers of 32 bits. -/

/-- One letter off a number: four, five or seven bits. -/
def letterNext (n : ℕ) : Option (ℕ × ℕ) :=
  if n = 0 then none
  else if n / 2 ^ 28 < 8 then some (n / 2 ^ 28, n * 2 ^ 4 % 2 ^ 32)
  else if n / 2 ^ 28 < 12 then some (8 + n / 2 ^ 27 % 8, n * 2 ^ 5 % 2 ^ 32)
  else some ((n / 2 ^ 28 - 10) * 8 + n / 2 ^ 25 % 8, n * 2 ^ 7 % 2 ^ 32)

/-- The tables are the same, so that an index in one is an index in all. -/
theorem tables_eq : Cf2html.ch = code ∧ Converter.code = code ∧ Converter.chars = code ∧
    UnpackTool.code = code := by decide +kernel

section bits

variable {n : ℕ} (t : BitVec 32)

/-- A mask of `k` bits at position `j`. -/
theorem and_mask_eq (n j k : ℕ) : n &&& ((2 ^ k - 1) * 2 ^ j) = n / 2 ^ j % 2 ^ k * 2 ^ j := by
  apply Nat.eq_of_testBit_eq
  intro i
  rw [Nat.testBit_and, Nat.testBit_mul_two_pow, Nat.testBit_mul_two_pow, Nat.testBit_mod_two_pow,
    Nat.testBit_two_pow_sub_one, Nat.testBit_div_two_pow]
  by_cases hi : j ≤ i
  · simp [hi, Nat.sub_add_cancel hi, Bool.and_comm]
  · simp [hi]

theorem and_high_eq (n : ℕ) : n &&& 0x80000000 = n / 2 ^ 31 % 2 * 2 ^ 31 := and_mask_eq n 31 1

theorem and_highTwo_eq (n : ℕ) : n &&& 0xc0000000 = n / 2 ^ 30 % 4 * 2 ^ 30 := and_mask_eq n 30 2

theorem and_seven_eq (n : ℕ) : n &&& 7 = n % 8 := Nat.and_two_pow_sub_one_eq_mod n 3

theorem and_word_eq (n : ℕ) : n &&& mask = n % 2 ^ 32 := Nat.and_two_pow_sub_one_eq_mod n 32

theorem toNat_shl (k : ℕ) : (t <<< k).toNat = t.toNat * 2 ^ k % 2 ^ 32 := by
  rw [BitVec.toNat_shiftLeft, Nat.shiftLeft_eq]

theorem toNat_shr (k : ℕ) : (t >>> k).toNat = t.toNat / 2 ^ k := by
  rw [BitVec.toNat_ushiftRight, Nat.shiftRight_eq_div_pow]

theorem toNat_and_high : (t &&& 0x80000000#32).toNat = t.toNat / 2 ^ 31 % 2 * 2 ^ 31 := by
  rw [BitVec.toNat_and]
  exact and_high_eq _

theorem toNat_and_highTwo : (t &&& 0xc0000000#32).toNat = t.toNat / 2 ^ 30 % 4 * 2 ^ 30 := by
  rw [BitVec.toNat_and]
  exact and_highTwo_eq _

theorem toNat_and_seven : (t &&& 7#32).toNat = t.toNat % 8 := by
  rw [BitVec.toNat_and]
  exact and_seven_eq _

/-- The index of a letter of five bits, put together from a nibble and a bit. -/
theorem fiveBit_index {nibble bit : ℕ} (hlow : 8 ≤ nibble) (hhigh : nibble < 12) (hbit : bit < 2) :
    ((nibble ^^^ 0xc) <<< 1) ||| bit = 8 + (2 * nibble + bit) % 8 := by
  interval_cases nibble <;> interval_cases bit <;> rfl

/-- The fifth bit of a number, after the shift by four. -/
theorem fifthBit (n : ℕ) :
    (decide ((n * 2 ^ 4 % 2 ^ 32) / 2 ^ 31 % 2 * 2 ^ 31 > 0)).toNat = n / 2 ^ 27 % 2 := by
  have hbit : (n * 2 ^ 4 % 2 ^ 32) / 2 ^ 31 % 2 = n / 2 ^ 27 % 2 := by omega
  rw [hbit]
  rcases Nat.mod_two_eq_zero_or_one (n / 2 ^ 27) with h | h <;> rw [h] <;> rfl

end bits

section iterations

theorem toNat_ne_zero {t : BitVec 32} (h : ¬ t = 0) : ¬ t.toNat = 0 :=
  fun h0 => h (BitVec.eq_of_toNat_eq h0)

theorem unpackNext_eq (t : BitVec 32) :
    (unpackNext t).map (Prod.map id BitVec.toNat) = letterNext t.toNat := by
  have hlt := t.isLt
  unfold unpackNext letterNext
  by_cases h0 : t = 0
  · rw [if_pos h0, if_pos (by rw [h0]; rfl), Option.map_none]
  rw [if_neg h0, if_neg (toNat_ne_zero h0)]
  simp only [toNat_shr]
  by_cases h4 : t.toNat / 2 ^ 28 < 8
  · rw [if_pos h4, if_pos h4, Option.map_some, Prod.map_apply, toNat_shl]
    rfl
  rw [if_neg h4, if_neg h4]
  by_cases h5 : t.toNat / 2 ^ 28 < 12
  · have hbit : (decide (t <<< 4 &&& 0x80000000#32 > 0)).toNat = t.toNat / 2 ^ 27 % 2 := by
      rw [← fifthBit, ← toNat_shl, ← toNat_and_high]
      rfl
    rw [if_pos h5, if_pos h5, Option.map_some, Prod.map_apply, hbit,
      fiveBit_index (Nat.le_of_not_lt h4) h5 (Nat.mod_lt _ (by decide)), ← BitVec.shiftLeft_add,
      toNat_shl, id, show 2 * (t.toNat / 2 ^ 28) + t.toNat / 2 ^ 27 % 2 = t.toNat / 2 ^ 27 by omega]
  · rw [if_neg h5, if_neg h5, Option.map_some, Prod.map_apply, ← BitVec.shiftLeft_add, toNat_shl,
      toNat_shl, id, Nat.add_comm, Nat.mul_comm 8,
      show t.toNat * 2 ^ 4 % 2 ^ 32 / 2 ^ 29 = t.toNat / 2 ^ 25 % 8 by omega]

theorem Cf2html.printTextNext_eq (t : BitVec 32) :
    (printTextNext t).map (Prod.map id BitVec.toNat) = letterNext t.toNat := by
  have hlt := t.isLt
  unfold printTextNext letterNext
  by_cases h0 : t = 0
  · rw [if_pos h0, if_pos (by rw [h0]; rfl), Option.map_none]
  rw [if_neg h0, if_neg (toNat_ne_zero h0)]
  by_cases h4 : t.toNat / 2 ^ 28 < 8
  · have hhigh : t &&& 0x80000000#32 = 0 := by
      apply BitVec.eq_of_toNat_eq
      rw [toNat_and_high, show t.toNat / 2 ^ 31 = 0 by omega]
      rfl
    rw [if_pos hhigh, if_pos h4, Option.map_some, Prod.map_apply, toNat_shl, toNat_shr]
    rfl
  have hhigh : ¬ t &&& 0x80000000#32 = 0 := by
    intro h
    have hval := congrArg BitVec.toNat h
    rw [toNat_and_high, show (0 : BitVec 32).toNat = 0 from rfl] at hval
    omega
  rw [if_neg hhigh, if_neg h4]
  by_cases h5 : t.toNat / 2 ^ 28 < 12
  · have htwo : t &&& 0xc0000000#32 = 0x80000000#32 := by
      apply BitVec.eq_of_toNat_eq
      rw [toNat_and_highTwo, show t.toNat / 2 ^ 30 % 4 = 2 by omega]
      rfl
    have hindex : (8#32 + ((t >>> 27) &&& 7#32)).toNat = 8 + t.toNat / 2 ^ 27 % 8 := by
      rw [BitVec.toNat_add, toNat_and_seven, toNat_shr, show (8#32).toNat = 8 from rfl]
      omega
    rw [if_pos htwo, if_pos h5, Option.map_some, Prod.map_apply, toNat_shl, hindex]
    rfl
  · have htwo : ¬ t &&& 0xc0000000#32 = 0x80000000#32 := by
      intro h
      have hval := congrArg BitVec.toNat h
      rw [toNat_and_highTwo, show (0x80000000#32).toNat = 2 ^ 31 from rfl] at hval
      omega
    have hindex : (((t >>> 28) - 10#32) * 8#32 + ((t >>> 25) &&& 7#32)).toNat =
        (t.toNat / 2 ^ 28 - 10) * 8 + t.toNat / 2 ^ 25 % 8 := by
      rw [BitVec.toNat_add, BitVec.toNat_mul, BitVec.toNat_sub, toNat_and_seven, toNat_shr,
        toNat_shr, show (8#32).toNat = 8 from rfl,
        show (10#32).toNat = 10 from rfl]
      omega
    rw [if_neg htwo, if_neg h5, Option.map_some, Prod.map_apply, toNat_shl, hindex]
    rfl

theorem Python.unpackNext_eq (n : ℕ) : unpackNext n = letterNext n := by
  unfold unpackNext letterNext
  simp only [Nat.shiftRight_eq_div_pow, Nat.shiftLeft_eq, and_word_eq]
  by_cases h0 : n = 0
  · rw [if_pos h0, if_pos h0]
  rw [if_neg h0, if_neg h0]
  by_cases h4 : n / 2 ^ 28 < 8
  · rw [if_pos h4, if_pos h4]
  rw [if_neg h4, if_neg h4]
  by_cases h5 : n / 2 ^ 28 < 12
  · have hbit : (decide (n * 2 ^ 4 % 2 ^ 32 &&& highbit > 0)).toNat = n / 2 ^ 27 % 2 := by
      rw [show highbit = 0x80000000 from rfl, and_high_eq]
      exact fifthBit n
    rw [if_pos h5, if_pos h5, ← Nat.shiftLeft_eq (n / 2 ^ 28 ^^^ 0xc), hbit,
      fiveBit_index (Nat.le_of_not_lt h4) h5 (Nat.mod_lt _ (by decide)),
      show 2 * (n / 2 ^ 28) + n / 2 ^ 27 % 2 = n / 2 ^ 27 by omega,
      show n * 2 ^ 4 % 2 ^ 32 * 2 ^ 1 % 2 ^ 32 = n * 2 ^ 5 % 2 ^ 32 by omega]
  · rw [if_neg h5, if_neg h5,
      show n * 2 ^ 4 % 2 ^ 32 / 2 ^ 29 + 8 * (n / 2 ^ 28 - 10) =
        (n / 2 ^ 28 - 10) * 8 + n / 2 ^ 25 % 8 by omega,
      show n * 2 ^ 4 % 2 ^ 32 * 2 ^ 3 % 2 ^ 32 = n * 2 ^ 7 % 2 ^ 32 by omega]

theorem Converter.printTextNext_eq {n : ℕ} (hn : n < 2 ^ 32) : printTextNext n = letterNext n := by
  unfold printTextNext letterNext
  simp only [Nat.shiftRight_eq_div_pow, Nat.shiftLeft_eq, and_word_eq, and_high_eq, and_highTwo_eq,
    and_seven_eq]
  by_cases h0 : n = 0
  · rw [if_pos h0, if_pos h0]
  rw [if_neg h0, if_neg h0]
  by_cases h4 : n / 2 ^ 28 < 8
  · rw [if_pos (by omega), if_pos h4]
  rw [if_neg (by omega), if_neg h4]
  by_cases h5 : n / 2 ^ 28 < 12
  · rw [if_pos (by omega), if_pos h5]
  · rw [if_neg (by omega), if_neg h5]

end iterations

section loops

/-- At most `m` letters are left in a number. -/
def LettersLeft (m n : ℕ) : Prop := n < 2 ^ 32 ∧ 2 ^ 32 ∣ n * 2 ^ (4 * m)

theorem letterNext_zero {n : ℕ} (h : LettersLeft 0 n) : letterNext n = none := by
  obtain ⟨hlt, hdvd⟩ := h
  rw [Nat.mul_zero, pow_zero, Nat.mul_one] at hdvd
  exact if_pos (Nat.eq_zero_of_dvd_of_lt hdvd hlt)

/-- A letter takes four bits or more. -/
theorem lettersLeft_shift {m n j : ℕ} (h : LettersLeft (m + 1) n) (hj : 4 ≤ j) :
    LettersLeft m (n * 2 ^ j % 2 ^ 32) := by
  refine ⟨Nat.mod_lt _ (by decide), ?_⟩
  rw [Nat.dvd_iff_mod_eq_zero, Nat.mod_mul_mod, ← Nat.dvd_iff_mod_eq_zero]
  refine h.2.trans ?_
  rw [Nat.mul_assoc, ← pow_add]
  exact Nat.mul_dvd_mul_left n (Nat.pow_dvd_pow 2 (by omega))

theorem letterNext_some {m n k t : ℕ} (h : LettersLeft (m + 1) n)
    (hnext : letterNext n = some (k, t)) :
    k < code.length ∧ LettersLeft m t := by
  have hlt := h.1
  have hlen : code.length = 48 := rfl
  unfold letterNext at hnext
  split_ifs at hnext with h0 h4 h5
  all_goals
    cases hnext
    refine ⟨by omega, lettersLeft_shift h (by decide)⟩

/-- What all the loops compute. -/
theorem letterLoop_letterNext {n : ℕ} (h : LettersLeft 7 n) : ∃ text : List Char,
    text.length ≤ 7 ∧ ∀ fuel > 7, Outcome.letterLoop code letterNext fuel n = .done text :=
  Outcome.letterLoop_done code (fun _ => letterNext_zero) (fun _ _ _ _ => letterNext_some) h

theorem letterNext_lt {n k t : ℕ} (h : letterNext n = some (k, t)) : t < 2 ^ 32 := by
  unfold letterNext at h
  split_ifs at h
  all_goals
    cases h
    exact Nat.mod_lt _ (by decide)

theorem ldiff_tag (n : ℕ) : n.ldiff 0xf = n / 16 * 16 := by
  apply Nat.eq_of_testBit_eq
  intro i
  rw [Nat.testBit_ldiff, show (0xf : ℕ) = 2 ^ 4 - 1 from rfl, Nat.testBit_two_pow_sub_one,
    show n / 16 * 16 = n / 2 ^ 4 * 2 ^ 4 from rfl, Nat.testBit_mul_two_pow, Nat.testBit_div_two_pow]
  by_cases hi : 4 ≤ i
  · simp [hi, Nat.not_lt.mpr hi]
  · simp [hi, Nat.lt_of_not_le hi]

theorem lettersLeft_name {n : ℕ} (hn : n < 2 ^ 32) : LettersLeft 7 (n / 16 * 16) := by
  refine ⟨by omega, ?_⟩
  rw [Nat.mul_assoc]
  exact Nat.dvd_mul_left _ _

theorem highbit_eq_msb (t : BitVec 32) :
    (decide (t &&& 0x80000000#32 > 0)).toNat = t.msb.toNat := by
  have hlt := t.isLt
  have hmsb : (t &&& 0x80000000#32 > 0) ↔ 2 ^ 31 ≤ t.toNat := by
    rw [gt_iff_lt, BitVec.lt_def, toNat_and_high, show (0 : BitVec 32).toNat = 0 from rfl]
    omega
  rw [BitVec.msb_eq_decide]
  exact congrArg Bool.toNat (decide_eq_decide.mpr hmsb)

/-- The editor's loop, by the body that it has in common with the others. -/
theorem unpackLoop_succ (fuel : ℕ) (coded : BitVec 32) : unpackLoop (fuel + 1) coded =
    match unpackNext coded with
    | none => []
    | some (k, t) => code.getD k '\x00' :: unpackLoop fuel t := by
  rw [unpackLoop, unpackNext]
  simp only [highbit_eq_msb]
  split_ifs <;> rfl

theorem unpackLoop_of_letterLoop {fuel : ℕ} {coded : BitVec 32} {text : List Char}
    (h : Outcome.letterLoop code unpackNext fuel coded = .done text) :
    unpackLoop fuel coded = text := by
  induction fuel generalizing coded text with
  | zero => cases h
  | succ fuel ih =>
    rw [Outcome.letterLoop] at h
    rw [unpackLoop_succ]
    cases hnext : unpackNext coded with
    | none =>
      rw [hnext] at h
      cases h
      rfl
    | some x =>
      obtain ⟨k, t⟩ := x
      simp only [hnext] at h
      cases hletter : code[k]? with
      | none =>
        rw [hletter] at h
        cases h
      | some letter =>
        rw [hletter] at h
        obtain ⟨rest, hrest, heq⟩ := Outcome.bind_eq_done h
        cases heq
        simp only [List.getD_eq_getElem?_getD, hletter, Option.getD_some, ih hrest]

theorem Editor.unpack_eq (fuel : ℕ) (c : BitVec 32) :
    Editor.unpack fuel c = Outcome.letterLoop code letterNext fuel (c.toNat / 16 * 16) := by
  rw [← toNat_name c]
  exact Outcome.letterLoop_map code BitVec.toNat (I := fun _ => True)
    (fun t _ => unpackNext_eq t) (fun _ _ _ _ _ => trivial) fuel trivial

theorem and_name_mask (n : ℕ) (hn : n < 2 ^ 32) : n &&& 0xfffffff0 = n / 16 * 16 := by
  rw [show (0xfffffff0 : ℕ) = (2 ^ 28 - 1) * 2 ^ 4 from rfl, and_mask_eq]
  omega

theorem Converter.printText_eq (fuel : ℕ) (c : BitVec 32) :
    printText fuel (c.toNat &&& 0xfffffff0) =
      Outcome.letterLoop Colorforth.code letterNext fuel (c.toNat / 16 * 16) := by
  have hlt := c.isLt
  rw [printText, tables_eq.2.2.1, and_name_mask _ hlt]
  refine Outcome.letterLoop_map Colorforth.code id (I := (· < 2 ^ 32)) ?_ ?_ fuel (by omega)
  · intro n hn
    rw [printTextNext_eq hn]
    exact Option.map_id'
  · intro n k t hn hnext
    rw [printTextNext_eq hn] at hnext
    exact letterNext_lt hnext

theorem Cf2html.printText_eq (fuel : ℕ) (c : BitVec 32) :
    printText fuel (c &&& 0xfffffff0#32) =
      Outcome.letterLoop Colorforth.code letterNext fuel (c.toNat / 16 * 16) := by
  have hname : (c &&& 0xfffffff0#32).toNat = c.toNat / 16 * 16 := toNat_name c
  rw [printText, tables_eq.1, ← hname]
  exact Outcome.letterLoop_map Colorforth.code BitVec.toNat (I := fun _ => True)
    (fun t _ => printTextNext_eq t) (fun _ _ _ _ _ => trivial) fuel trivial

/-- What the editor's `unpack` finds in a cell. -/
theorem letterLoop_unpack (c : BitVec 32) {fuel : ℕ} (hfuel : 7 < fuel) :
    Outcome.letterLoop code letterNext fuel (c.toNat / 16 * 16) = .done (unpack c) := by
  obtain ⟨text, -, htext⟩ := letterLoop_letterNext (lettersLeft_name c.isLt)
  have heditor : Editor.unpack 8 c = .done text :=
    (Editor.unpack_eq 8 c).trans (htext 8 (by decide))
  have hunpack : unpack c = text := unpackLoop_of_letterLoop heditor
  rw [htext fuel hfuel, hunpack]

/-- What `print_text` prints for a cell is what the editor's `unpack` finds in it. -/
theorem Converter.printText_cell (c : BitVec 32) {fuel : ℕ} (hfuel : 7 < fuel) :
    printText fuel (c.toNat &&& 0xfffffff0) = .done (Colorforth.unpack c) :=
  (printText_eq fuel c).trans (letterLoop_unpack c hfuel)

theorem Cf2html.printText_cell (c : BitVec 32) {fuel : ℕ} (hfuel : 7 < fuel) :
    printText fuel (c &&& 0xfffffff0#32) = .done (Colorforth.unpack c) :=
  (printText_eq fuel c).trans (letterLoop_unpack c hfuel)

end loops

/-- All decoders end after at most seven letters, find every index in their table of 48 letters,
and give the same string. -/
theorem decoders_agree (c : BitVec 32) : ∃ text : List Char, text.length ≤ 7 ∧ unpack c = text ∧
    ∀ fuel > 7, Editor.unpack fuel c = .done text ∧
      Cf2html.printText fuel (c &&& 0xfffffff0#32) = .done text ∧
      Converter.unpack fuel c.toNat = .done text ∧
      Converter.printText fuel (c.toNat &&& 0xfffffff0) = .done text ∧
      UnpackTool.unpack fuel c.toNat = .done text := by
  obtain ⟨text, hlen, htext⟩ := letterLoop_letterNext (lettersLeft_name c.isLt)
  obtain ⟨-, hcode, -, htool⟩ := tables_eq
  have heditor : ∀ fuel > 7, Editor.unpack fuel c = .done text := fun fuel hfuel =>
    (Editor.unpack_eq fuel c).trans (htext fuel hfuel)
  have hpython : ∀ fuel > 7,
      Outcome.letterLoop code Python.unpackNext fuel (c.toNat.ldiff 0xf) = .done text := by
    intro fuel hfuel
    rw [ldiff_tag, show Python.unpackNext = letterNext from funext Python.unpackNext_eq]
    exact htext fuel hfuel
  refine ⟨text, hlen, unpackLoop_of_letterLoop (heditor 8 (by decide)), fun fuel hfuel =>
    ⟨heditor fuel hfuel, ?_, ?_, ?_, ?_⟩⟩
  · exact (Cf2html.printText_eq fuel c).trans (htext fuel hfuel)
  · rw [Converter.unpack, hcode]
    exact hpython fuel hfuel
  · exact (Converter.printText_eq fuel c).trans (htext fuel hfuel)
  · rw [UnpackTool.unpack, htool]
    exact hpython fuel hfuel

end Einherjar.Colorforth
