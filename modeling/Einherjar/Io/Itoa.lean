import Einherjar.Io.Vga
import Einherjar.Lib.Fuel
import Einherjar.Lib.Numeral

/-! `itoa` in the buffer of `printf`: what it leaves there for a `%d` and for a `%x`. -/
namespace Einherjar.Io
open Einherjar.Lib

/-- The loop of `reverse`, which exchanges the bytes at `j` and `i`. -/
def reverseLoop (str : ℕ → BitVec 8) (i j : ℕ) : ℕ → BitVec 8 :=
  if j < i then
    let tmp := str j
    let str := Function.update str j (str i)
    reverseLoop (Function.update str i tmp) (i - 1) (j + 1)
  else str
termination_by i - j

def reverse (str : ℕ → BitVec 8) (length : ℕ) : ℕ → BitVec 8 := reverseLoop str (length - 1) 0

/-- `while (value != 0)`: the memory from the buffer on, and `i`. -/
def itoaLoop (base : BitVec 32) : ℕ → BitVec 32 → (ℕ → BitVec 8) → ℕ →
    Outcome ((ℕ → BitVec 8) × ℕ)
  | 0, _, _, _ => .outOfFuel
  | fuel + 1, value, str, i =>
    if value = 0 then .done (str, i)
    else
      let remainder := value.srem base
      let character := if (9 : BitVec 32).slt remainder then remainder - 10 + 97 else remainder + 48
      itoaLoop base fuel (value.sdiv base) (Function.update str i (character.setWidth 8)) (i + 1)

/-- `itoa(value, str, base)`: the memory from the buffer on after it. -/
def itoaBuffer (fuel : ℕ) (value : BitVec 32) (str : ℕ → BitVec 8) (base : BitVec 32) :
    Outcome (ℕ → BitVec 8) :=
  if value = 0 then .done (Function.update (Function.update str 0 48) 1 0)
  else
    let isNegative : Bool := value.slt 0 ∧ base = 10
    let value := if isNegative then -value else value
    (itoaLoop base fuel value str 0).bind fun (str, i) =>
      let (str, i) := if isNegative then (Function.update str i 45, i + 1) else (str, i)
      .done (reverse (Function.update str i 0) i)

def byteOf (c : Char) : BitVec 8 := BitVec.ofNat 8 c.toNat

/-- The buffer begins with these bytes. -/
def Begins (str : ℕ → BitVec 8) (bytes : List (BitVec 8)) : Prop :=
  ∀ k b, bytes[k]? = some b → str k = b

/-- The string in the buffer is the text. -/
structure HoldsString (str : ℕ → BitVec 8) (text : List Char) : Prop where
  begins : Begins str (text.map byteOf)
  nonNul : ∀ c ∈ text, byteOf c ≠ 0
  nul : str text.length = 0

/-- `itoa` ends with this string in the first 20 bytes, and writes to no others. -/
def ItoaGives (value base : BitVec 32) (text : List Char) : Prop :=
  ∀ str, ∃ fuel str', itoaBuffer fuel value str base = .done str' ∧ HoldsString str' text ∧
    text.length < 20 ∧ ∀ k ≥ 20, str' k = str k

section buffer

variable {str : ℕ → BitVec 8} {bytes : List (BitVec 8)}

theorem Begins.concat (h : Begins str bytes) {b : BitVec 8} (hb : str bytes.length = b) :
    Begins str (bytes ++ [b]) := by
  intro k x hx
  by_cases hk : k = bytes.length
  · rw [hk, List.getElem?_append_right (Nat.le_refl _), Nat.sub_self] at hx
    rw [hk, hb]
    exact Option.some.inj hx
  · have hlt : k < bytes.length := by
      obtain ⟨hlt, -⟩ := List.getElem?_eq_some_iff.mp hx
      rw [List.length_append, List.length_singleton] at hlt
      omega
    rw [List.getElem?_append_left hlt] at hx
    exact h k x hx

theorem Begins.update (h : Begins str bytes) {k : ℕ} (hk : bytes.length ≤ k) (b : BitVec 8) :
    Begins (Function.update str k b) bytes := by
  intro i x hx
  obtain ⟨hlt, -⟩ := List.getElem?_eq_some_iff.mp hx
  rw [Function.update_of_ne (by omega)]
  exact h i x hx

theorem Begins.append (h : Begins str bytes) (b : BitVec 8) :
    Begins (Function.update str bytes.length b) (bytes ++ [b]) :=
  (h.update (Nat.le_refl _) b).concat (Function.update_self ..)

theorem reverseLoop_apply (str : ℕ → BitVec 8) (i j k : ℕ) :
    reverseLoop str i j k = if j ≤ k ∧ k ≤ i then str (i + j - k) else str k := by
  fun_induction reverseLoop str i j with
  | case1 str i j hlt tmp exchanged ih =>
    have hat : exchanged j = str i := Function.update_self ..
    have hoff : ∀ m, m ≠ j → exchanged m = str m := fun m hm => Function.update_of_ne hm ..
    rw [ih]
    by_cases hi : k = i
    · subst hi
      rw [if_neg (by omega), if_pos (by omega), Function.update_self, Nat.add_sub_cancel_left]
    · by_cases hj : k = j
      · subst hj
        rw [if_neg (by omega), if_pos (by omega), Function.update_of_ne hi, hat, Nat.add_sub_cancel]
      · have hsum : i - 1 + (j + 1) - k = i + j - k := by omega
        by_cases hin : j ≤ k ∧ k ≤ i
        · rw [if_pos (by omega), if_pos hin, hsum, Function.update_of_ne (by omega),
            hoff _ (by omega)]
        · rw [if_neg (by omega), if_neg hin, Function.update_of_ne hi, hoff k hj]
  | case2 str i j hge =>
    by_cases hin : j ≤ k ∧ k ≤ i
    · rw [if_pos hin, show i + j - k = k by omega]
    · rw [if_neg hin]

theorem Begins.reverse (h : Begins str bytes) :
    Begins (reverse str bytes.length) bytes.reverse := by
  intro k b hb
  obtain ⟨hlt, -⟩ := List.getElem?_eq_some_iff.mp hb
  rw [List.length_reverse] at hlt
  rw [List.getElem?_reverse hlt] at hb
  rw [Io.reverse, reverseLoop_apply, if_pos (by omega),
    show bytes.length - 1 + 0 - k = bytes.length - 1 - k by omega]
  exact h _ b hb

theorem reverse_apply_of_le (str : ℕ → BitVec 8) {length k : ℕ} (hk : length ≤ k) :
    reverse str length k = str k := by
  rw [reverse, reverseLoop_apply]
  by_cases hin : 0 ≤ k ∧ k ≤ length - 1
  · rw [if_pos hin, show length - 1 + 0 - k = k by omega]
  · rw [if_neg hin]

/-- A string ends at its first zero byte. -/
theorem HoldsString.length_le {text text' : List Char} (h : HoldsString str text)
    (h' : HoldsString str text') : text'.length ≤ text.length := by
  by_contra hlt
  have hlt : text.length < text'.length := Nat.lt_of_not_le hlt
  have hb := h'.begins text.length (byteOf text'[text.length])
    (by rw [List.getElem?_map, List.getElem?_eq_getElem hlt]; rfl)
  exact h'.nonNul _ (List.getElem_mem hlt) (hb.symm.trans h.nul)

theorem HoldsString.unique {text text' : List Char} (h : HoldsString str text)
    (h' : HoldsString str text') : text.map byteOf = text'.map byteOf := by
  have hlen : text.length = text'.length := Nat.le_antisymm (h'.length_le h) (h.length_le h')
  apply List.ext_getElem
  · rw [List.length_map, List.length_map, hlen]
  · intro k hk hk'
    rw [← h.begins k _ (List.getElem?_eq_getElem hk),
      ← h'.begins k _ (List.getElem?_eq_getElem hk')]

end buffer

section loop

variable {b : ℕ} {value : BitVec 32}

theorem ne_zero_of_neg (hsign : value.toInt < 0) : value ≠ 0 := by
  rintro rfl
  exact absurd hsign (by decide)

theorem toInt_base (hb : b = 10 ∨ b = 16) : (BitVec.ofNat 32 b).toInt = b := by
  rcases hb with rfl | rfl <;> rfl

theorem toInt_remainder (hb : b = 10 ∨ b = 16) (value : BitVec 32) :
    (value.srem (BitVec.ofNat 32 b)).toInt = value.toInt.tmod b := by
  rw [BitVec.toInt_srem, toInt_base hb]

theorem toInt_quotient (hb : b = 10 ∨ b = 16) (value : BitVec 32) :
    (value.sdiv (BitVec.ofNat 32 b)).toInt = value.toInt.tdiv b := by
  rw [BitVec.toInt_sdiv_of_ne_or_ne, toInt_base hb]
  right
  rcases hb with rfl | rfl <;> decide

/-- The character for a remainder of either sign. -/
def digitCharacter (remainder : BitVec 32) : BitVec 32 :=
  if (9 : BitVec 32).slt remainder then remainder - 10 + 97 else remainder + 48

theorem itoaDigits_succ {base : BitVec 32} (fuel : ℕ) (hvalue : value ≠ 0) :
    itoaDigits base (fuel + 1) value =
      Char.ofNat ((digitCharacter (value.srem base)).toNat % 256) ::
        itoaDigits base fuel (value.sdiv base) := by
  rw [itoaDigits, if_neg hvalue]
  rfl

theorem itoaLoop_succ {base : BitVec 32} (fuel : ℕ) (hvalue : value ≠ 0) (str : ℕ → BitVec 8)
    (i : ℕ) : itoaLoop base (fuel + 1) value str i =
      itoaLoop base fuel (value.sdiv base)
        (Function.update str i ((digitCharacter (value.srem base)).setWidth 8)) (i + 1) := by
  rw [itoaLoop, if_neg hvalue]
  rfl

theorem digitCharacter_of_lt {d : ℕ} (hd : d < 16) :
    Char.ofNat ((digitCharacter (BitVec.ofNat 32 d)).toNat % 256) = Nat.digitChar d := by
  interval_cases d <;> rfl

theorem digitCharacter_of_neg {d : ℕ} (hd : d < 16) :
    (digitCharacter (BitVec.ofInt 32 (-d))).toNat = 48 - d := by
  interval_cases d <;> rfl

theorem toNat_charOfNat {n : ℕ} (h : n < 256) : (Char.ofNat n).toNat = n := by
  have hvalid : n.isValidChar := .inl (by omega)
  rw [Char.ofNat, dif_pos hvalid]
  rfl

theorem byteOf_ofNat (n : ℕ) : byteOf (Char.ofNat (n % 256)) = BitVec.ofNat 8 n := by
  rw [byteOf, toNat_charOfNat (Nat.mod_lt _ (by decide))]
  apply BitVec.eq_of_toNat_eq
  rw [BitVec.toNat_ofNat, BitVec.toNat_ofNat]
  omega

theorem natAbs_tdiv_lt {fuel : ℕ} (h : value.toInt.natAbs < b ^ (fuel + 1)) :
    (value.toInt.tdiv b).natAbs < b ^ fuel := by
  rw [Int.natAbs_tdiv, Int.natAbs_natCast]
  exact Nat.div_lt_of_lt_mul (by rwa [← pow_succ'])

theorem itoaLoop_digits (hb : b = 10 ∨ b = 16) {fuel : ℕ} {str : ℕ → BitVec 8}
    {bytes : List (BitVec 8)} (hvalue : value.toInt.natAbs < b ^ fuel) (hstr : Begins str bytes) :
    ∃ str', itoaLoop (BitVec.ofNat 32 b) (fuel + 1) value str bytes.length =
        .done (str', bytes.length + (itoaDigits (BitVec.ofNat 32 b) fuel value).length) ∧
      Begins str' (bytes ++ (itoaDigits (BitVec.ofNat 32 b) fuel value).map byteOf) ∧
      ∀ k ≥ bytes.length + (itoaDigits (BitVec.ofNat 32 b) fuel value).length, str' k = str k := by
  induction fuel generalizing value str bytes with
  | zero =>
    have hzero : value = 0 := BitVec.eq_of_toInt_eq (by
      rw [pow_zero] at hvalue
      change value.toInt = 0
      omega)
    rw [itoaLoop, if_pos hzero, itoaDigits, List.map_nil, List.append_nil]
    exact ⟨str, rfl, hstr, fun _ _ => rfl⟩
  | succ fuel ih =>
    by_cases hzero : value = 0
    · rw [itoaLoop, if_pos hzero, itoaDigits, if_pos hzero, List.map_nil, List.append_nil]
      exact ⟨str, rfl, hstr, fun _ _ => rfl⟩
    · have hrest : (value.sdiv (BitVec.ofNat 32 b)).toInt.natAbs < b ^ fuel := by
        rw [toInt_quotient hb]
        exact natAbs_tdiv_lt hvalue
      rw [itoaLoop_succ _ hzero, itoaDigits_succ _ hzero]
      generalize digitCharacter (value.srem (BitVec.ofNat 32 b)) = character
      obtain ⟨str', hloop, hbegins, hframe⟩ := ih hrest (hstr.append (character.setWidth 8))
      rw [List.length_append, List.length_singleton] at hloop hframe
      rw [List.append_assoc] at hbegins
      refine ⟨str', ?_, ?_, ?_⟩
      · rw [hloop, List.length_cons, Nat.add_assoc, Nat.add_comm 1]
      · rw [List.map_cons, byteOf_ofNat]
        exact hbegins
      · intro k hk
        rw [List.length_cons] at hk
        rw [hframe k (by omega), Function.update_of_ne (by omega)]

theorem length_itoaDigits (base : BitVec 32) (fuel : ℕ) (value : BitVec 32) :
    (itoaDigits base fuel value).length ≤ fuel := by
  induction fuel generalizing value with
  | zero => exact Nat.le_refl _
  | succ fuel ih =>
    by_cases hzero : value = 0
    · rw [itoaDigits, if_pos hzero]
      exact Nat.zero_le _
    · rw [itoaDigits_succ _ hzero, List.length_cons]
      exact Nat.succ_le_succ (ih _)

/-- The remainder has the sign of the value. -/
theorem remainder_eq (hb : b = 10 ∨ b = 16) (value : BitVec 32) :
    value.srem (BitVec.ofNat 32 b) =
      if 0 ≤ value.toInt then BitVec.ofNat 32 (value.toInt.natAbs % b)
      else BitVec.ofInt 32 (-(value.toInt.natAbs % b : ℕ)) := by
  rw [← BitVec.ofInt_toInt (x := value.srem _), toInt_remainder hb]
  split_ifs with hsign
  · rw [← BitVec.ofInt_natCast, Int.natCast_mod, Int.natAbs_of_nonneg hsign,
      Int.tmod_eq_emod_of_nonneg hsign]
  · have hneg : value.toInt = -(value.toInt.natAbs : ℤ) := by omega
    conv_lhs => rw [hneg, Int.neg_tmod, Int.tmod_eq_emod_of_nonneg (Int.natCast_nonneg _)]
    rw [Int.natCast_mod]

theorem base_le (hb : b = 10 ∨ b = 16) : b ≤ 16 := by omega

/-- The digits of a number that is not negative. -/
theorem itoaDigits_of_nonneg (hb : b = 10 ∨ b = 16) {fuel : ℕ} (hsign : 0 ≤ value.toInt)
    (hvalue : value.toInt.natAbs < b ^ fuel) :
    itoaDigits (BitVec.ofNat 32 b) fuel value =
      (Nat.digits b value.toInt.natAbs).map Nat.digitChar := by
  induction fuel generalizing value with
  | zero =>
    rw [pow_zero] at hvalue
    rw [itoaDigits, show value.toInt.natAbs = 0 by omega, Nat.digits_zero, List.map_nil]
  | succ fuel ih =>
    by_cases hzero : value = 0
    · rw [itoaDigits, if_pos hzero, hzero]
      change [] = (Nat.digits b 0).map _
      rw [Nat.digits_zero, List.map_nil]
    · have hpos : 0 < value.toInt.natAbs := by
        have hne : value.toInt ≠ 0 := fun h => hzero (BitVec.eq_of_toInt_eq h)
        omega
      have hquotient : (value.sdiv (BitVec.ofNat 32 b)).toInt = value.toInt.tdiv b :=
        toInt_quotient hb value
      have hrest : (value.sdiv (BitVec.ofNat 32 b)).toInt.natAbs = value.toInt.natAbs / b := by
        rw [hquotient, Int.natAbs_tdiv, Int.natAbs_natCast]
        rfl
      have hdigit : value.toInt.natAbs % b < 16 :=
        Nat.lt_of_lt_of_le (Nat.mod_lt _ (by omega)) (base_le hb)
      rw [itoaDigits_succ _ hzero, remainder_eq hb, if_pos hsign, digitCharacter_of_lt hdigit,
        Nat.digits_def' (by omega) hpos, List.map_cons, ih _ _, hrest]
      · rw [hquotient]
        exact Int.tdiv_nonneg hsign (Int.natCast_nonneg _)
      · rw [hquotient]
        exact natAbs_tdiv_lt hvalue

/-- The highest digit of a negative number is a character below the digits. -/
theorem itoaDigits_of_neg (hb : b = 10 ∨ b = 16) {fuel : ℕ} (hsign : value.toInt < 0)
    (hvalue : value.toInt.natAbs < b ^ fuel) :
    ∃ c ∈ itoaDigits (BitVec.ofNat 32 b) fuel value, (byteOf c).toNat < 48 := by
  induction fuel generalizing value with
  | zero =>
    rw [pow_zero] at hvalue
    omega
  | succ fuel ih =>
    have hzero : value ≠ 0 := ne_zero_of_neg hsign
    have hquotient : (value.sdiv (BitVec.ofNat 32 b)).toInt = value.toInt.tdiv b :=
      toInt_quotient hb value
    rw [itoaDigits_succ _ hzero]
    by_cases hlast : value.toInt.natAbs < b
    · have hdigit : value.toInt.natAbs < 16 := Nat.lt_of_lt_of_le hlast (base_le hb)
      refine ⟨_, List.mem_cons_self, ?_⟩
      rw [byteOf_ofNat, remainder_eq hb, if_neg (by omega), Nat.mod_eq_of_lt hlast,
        digitCharacter_of_neg hdigit, BitVec.toNat_ofNat]
      omega
    · have hneg : value.toInt.tdiv b < 0 := by
        rw [show value.toInt = -(value.toInt.natAbs : ℤ) by omega, Int.neg_tdiv,
          ← Int.ofNat_tdiv, Int.neg_lt_zero_iff, Int.natCast_pos]
        exact Nat.div_pos (Nat.le_of_not_lt hlast) (by omega)
      obtain ⟨c, hc, hlow⟩ := ih (hquotient ▸ hneg) (hquotient ▸ natAbs_tdiv_lt hvalue)
      exact ⟨c, List.mem_cons_of_mem _ hc, hlow⟩

theorem nonNul_itoaDigits (hb : b = 10 ∨ b = 16) (fuel : ℕ) (value : BitVec 32) :
    ∀ c ∈ itoaDigits (BitVec.ofNat 32 b) fuel value, byteOf c ≠ 0 := by
  induction fuel generalizing value with
  | zero => exact fun c hc => absurd hc List.not_mem_nil
  | succ fuel ih =>
    by_cases hzero : value = 0
    · rw [itoaDigits, if_pos hzero]
      exact fun c hc => absurd hc List.not_mem_nil
    · rw [itoaDigits_succ _ hzero]
      intro c hc
      rcases List.mem_cons.mp hc with rfl | hc
      · have hdigit : value.toInt.natAbs % b < 16 :=
          Nat.lt_of_lt_of_le (Nat.mod_lt _ (by omega)) (base_le hb)
        rw [remainder_eq hb]
        generalize value.toInt.natAbs % b = d at hdigit
        split_ifs
        · rw [digitCharacter_of_lt hdigit]
          interval_cases d <;> decide
        · rw [byteOf_ofNat, digitCharacter_of_neg hdigit]
          interval_cases d <;> decide
      · exact ih _ c hc

end loop

section strings

variable {b : ℕ} {value : BitVec 32}

theorem itoaLoop_mono (base value : BitVec 32) (str : ℕ → BitVec 8) (i : ℕ) :
    Monotone fun fuel => itoaLoop base fuel value str i := by
  refine monotone_nat_of_le_succ fun fuel => ?_
  induction fuel generalizing value str i with
  | zero => exact Outcome.outOfFuel_le _
  | succ fuel ih =>
    by_cases hzero : value = 0
    · rw [itoaLoop, itoaLoop, if_pos hzero, if_pos hzero]
    · rw [itoaLoop_succ _ hzero, itoaLoop_succ _ hzero]
      exact ih _ _ _

theorem itoaBuffer_mono (value : BitVec 32) (str : ℕ → BitVec 8) (base : BitVec 32) :
    Monotone fun fuel => itoaBuffer fuel value str base := by
  intro fuel fuel' h
  simp only [itoaBuffer]
  split_ifs
  · exact le_rfl
  all_goals exact Outcome.bind_mono (itoaLoop_mono _ _ _ _ h) fun _ => le_rfl

/-- The end of `itoa`: the zero byte, and the characters in their order. -/
theorem holdsString_finished {str : ℕ → BitVec 8} {chars : List Char}
    (hstr : Begins str (chars.map byteOf)) (hnonNul : ∀ c ∈ chars, byteOf c ≠ 0) :
    HoldsString (reverse (Function.update str chars.length 0) chars.length) chars.reverse := by
  have hlen : (chars.map byteOf).length = chars.length := List.length_map _
  constructor
  case begins =>
    rw [List.map_reverse, ← hlen]
    exact (hstr.update (Nat.le_refl _) 0).reverse
  case nonNul => exact fun c hc => hnonNul c (List.mem_reverse.mp hc)
  case nul =>
    rw [List.length_reverse, reverse_apply_of_le _ (Nat.le_refl _), Function.update_self]

/-- The string that `itoa` gives, from the buffer in which the loop, and the sign, have left its
characters. -/
theorem itoaGives_of_written {base : BitVec 32} {chars : List Char}
    (hnonNul : ∀ c ∈ chars, byteOf c ≠ 0) (hlen : chars.length ≤ 11)
    (hwritten : ∀ str, ∃ str', Begins str' (chars.map byteOf) ∧
      (∀ k ≥ chars.length, str' k = str k) ∧ itoaBuffer 11 value str base =
        .done (reverse (Function.update str' chars.length 0) chars.length)) :
    ItoaGives value base chars.reverse := by
  intro str
  obtain ⟨str', hbegins, hframe, hcall⟩ := hwritten str
  refine ⟨11, _, hcall, holdsString_finished hbegins hnonNul, ?_, fun k hk => ?_⟩
  · rw [List.length_reverse]
    omega
  · rw [reverse_apply_of_le _ (by omega), Function.update_of_ne (by omega), hframe k (by omega)]

theorem itoaGives_zero (base : BitVec 32) : ItoaGives 0 base ['0'] := by
  intro str
  refine ⟨0, _, if_pos rfl, ⟨?_, by decide, rfl⟩, by decide, fun k hk => ?_⟩
  · intro k x hx
    obtain ⟨hlt, -⟩ := List.getElem?_eq_some_iff.mp hx
    obtain rfl : k = 0 := Nat.lt_one_iff.mp hlt
    exact Option.some.inj hx
  · rw [Function.update_of_ne (by omega), Function.update_of_ne (by omega)]

theorem natAbs_lt_pow (hb : b = 10 ∨ b = 16) (value : BitVec 32) :
    value.toInt.natAbs < b ^ 10 := by
  have hle := @BitVec.le_toInt 32 value
  have hlt := @BitVec.toInt_lt 32 value
  rcases hb with rfl | rfl <;> omega

/-- Whatever the value, the string in the buffer is that of the list of digits. -/
theorem itoaGives_itoa (hb : b = 10 ∨ b = 16) (value : BitVec 32) :
    ItoaGives value (BitVec.ofNat 32 b) (itoa value (BitVec.ofNat 32 b)) := by
  by_cases hzero : value = 0
  · rw [hzero]
    exact itoaGives_zero _
  have hempty : ∀ str, Begins str [] := fun str k x hx => by cases hx
  by_cases hminus : value.slt 0 ∧ BitVec.ofNat 32 b = 10
  · have hflag : decide (value.slt 0 ∧ BitVec.ofNat 32 b = 10) = true := decide_eq_true hminus
    have hdigits := nonNul_itoaDigits hb 10 (-value)
    have hlen := length_itoaDigits (BitVec.ofNat 32 b) 10 (-value)
    rw [itoa, if_neg hzero, if_pos hminus]
    apply itoaGives_of_written
    case hnonNul =>
      intro c hc
      rcases List.mem_append.mp hc with hc | hc
      · exact hdigits c hc
      · rw [List.mem_singleton.mp hc]
        decide
    case hlen =>
      rw [List.length_append, List.length_singleton]
      exact Nat.succ_le_succ hlen
    case hwritten =>
      intro str
      obtain ⟨str', hloop, hbegins, hframe⟩ :=
        itoaLoop_digits hb (natAbs_lt_pow hb (-value)) (hempty str)
      simp only [List.length_nil, Nat.zero_add, List.nil_append] at hloop hbegins hframe
      have hmore := hbegins.append 45
      rw [List.length_map] at hmore
      rw [List.map_append, List.length_append, List.length_singleton]
      refine ⟨_, hmore, fun k hk => ?_, ?_⟩
      · rw [Function.update_of_ne (by omega), hframe k (by omega)]
      · simp only [itoaBuffer, if_neg hzero, hflag, if_true, hloop, Outcome.done_bind]
  · have hflag : decide (value.slt 0 ∧ BitVec.ofNat 32 b = 10) = false := decide_eq_false hminus
    have hlen := length_itoaDigits (BitVec.ofNat 32 b) 10 value
    rw [itoa, if_neg hzero, if_neg hminus]
    apply itoaGives_of_written (nonNul_itoaDigits hb 10 value) (Nat.le_succ_of_le hlen)
    intro str
    obtain ⟨str', hloop, hbegins, hframe⟩ :=
      itoaLoop_digits hb (natAbs_lt_pow hb value) (hempty str)
    simp only [List.length_nil, Nat.zero_add, List.nil_append] at hloop hbegins hframe
    refine ⟨str', hbegins, hframe, ?_⟩
    simp only [itoaBuffer, if_neg hzero, hflag, Bool.false_eq_true, if_false, hloop,
      Outcome.done_bind]

/-- Two strings that one call gives have the same bytes. -/
theorem ItoaGives.unique {base : BitVec 32} {text text' : List Char}
    (h : ItoaGives value base text) (h' : ItoaGives value base text') :
    text.map byteOf = text'.map byteOf := by
  obtain ⟨m, s, hm, hs, -⟩ := h fun _ => 0
  obtain ⟨n, t, hn, ht, -⟩ := h' fun _ => 0
  obtain rfl : s = t := Outcome.result_unique (itoaBuffer_mono value _ base) hm hn
  exact hs.unique ht

end strings

section numerals

theorem le_byteOf_digitChar {d : ℕ} (hd : d < 16) : 48 ≤ (byteOf (Nat.digitChar d)).toNat := by
  interval_cases d <;> decide

/-- No digit is below `0`. -/
theorem le_byteOf_numeral {base n : ℕ} (hbase : 1 < base) (hle : base ≤ 16) :
    ∀ c ∈ numeral base n, 48 ≤ (byteOf c).toNat := by
  intro c hc
  unfold numeral at hc
  split_ifs at hc
  · rw [List.mem_singleton.mp hc]
    decide
  · obtain ⟨d, hd, rfl⟩ := List.mem_map.mp hc
    exact le_byteOf_digitChar
      (Nat.lt_of_lt_of_le (Nat.digits_lt_base hbase (List.mem_reverse.mp hd)) hle)

/-- A text with a character below the digits is no numeral. -/
theorem map_byteOf_numeral_ne {base n : ℕ} (hbase : 1 < base) (hle : base ≤ 16) {text : List Char}
    (h : ∃ c ∈ text, (byteOf c).toNat < 48) :
    (numeral base n).map byteOf ≠ text.reverse.map byteOf := by
  obtain ⟨c, hc, hlow⟩ := h
  intro hbytes
  have hmem : byteOf c ∈ (numeral base n).map byteOf := by
    rw [hbytes]
    exact List.mem_map_of_mem (List.mem_reverse.mpr hc)
  obtain ⟨d, hd, hdc⟩ := List.mem_map.mp hmem
  have hdigit := le_byteOf_numeral hbase hle d hd
  rw [hdc] at hdigit
  omega

variable {b : ℕ} {value : BitVec 32}

theorem slt_zero_iff (value : BitVec 32) : value.slt 0 = true ↔ value.toInt < 0 := by
  rw [BitVec.slt, decide_eq_true_iff]
  rfl

theorem reverse_digits_eq_numeral {n : ℕ} (hn : n ≠ 0) :
    ((Nat.digits b n).map Nat.digitChar).reverse = numeral b n := by
  rw [numeral, if_neg hn, List.map_reverse]

theorem itoa_of_nonneg (hb : b = 10 ∨ b = 16) (hsign : 0 ≤ value.toInt) :
    itoa value (BitVec.ofNat 32 b) = numeral b value.toInt.natAbs := by
  by_cases hzero : value = 0
  · rw [itoa, if_pos hzero, hzero]
    rfl
  · have hne : value.toInt.natAbs ≠ 0 := fun h =>
      hzero (BitVec.eq_of_toInt_eq (Int.natAbs_eq_zero.mp h))
    have hplus : ¬ (value.slt 0 = true ∧ BitVec.ofNat 32 b = 10) := by
      rw [slt_zero_iff]
      omega
    rw [itoa, if_neg hzero, if_neg hplus, itoaDigits_of_nonneg hb hsign (natAbs_lt_pow hb value),
      reverse_digits_eq_numeral hne]

/-- A negative number in base 10: the sign, and the digits of its negation. -/
theorem itoa_of_neg (hsign : value.toInt < 0) :
    itoa value 10 = '-' :: (itoaDigits 10 10 (-value)).reverse := by
  have hzero : value ≠ 0 := ne_zero_of_neg hsign
  rw [itoa, if_neg hzero, if_pos ⟨(slt_zero_iff value).mpr hsign, rfl⟩, List.reverse_append]
  rfl

theorem itoaGives_decimal (hvalue : value ≠ 0x80000000#32) :
    ItoaGives value 10 (decimal value.toInt) := by
  have hgives := itoaGives_itoa (.inl rfl) value
  change ItoaGives value 10 (itoa value 10) at hgives
  unfold decimal
  by_cases hsign : value.toInt < 0
  · have hminus : (-value).toInt = -value.toInt := BitVec.toInt_neg_of_ne_intMin hvalue
    have hnonneg : 0 ≤ (-value).toInt := by omega
    have hdigits := itoaDigits_of_nonneg (.inl rfl) hnonneg (natAbs_lt_pow (.inl rfl) (-value))
    rw [if_pos hsign]
    rwa [itoa_of_neg hsign, show (10 : BitVec 32) = BitVec.ofNat 32 10 from rfl, hdigits, hminus,
      Int.natAbs_neg, reverse_digits_eq_numeral (by omega)] at hgives
  · rw [if_neg hsign]
    rwa [← itoa_of_nonneg (.inl rfl) (by omega)]

/-- The most negative number is its own negation. -/
theorem not_itoaGives_intMin :
    ¬ ItoaGives 0x80000000#32 10 (decimal (0x80000000#32).toInt) := by
  intro h
  have hsign : (0x80000000#32).toInt < 0 := by decide
  have hlow := itoaDigits_of_neg (.inl rfl) hsign (natAbs_lt_pow (.inl rfl) _)
  have hbytes := h.unique (itoaGives_itoa (.inl rfl) 0x80000000#32)
  change _ = (itoa 0x80000000#32 10).map byteOf at hbytes
  rw [decimal, if_pos hsign, itoa_of_neg hsign, List.map_cons, List.map_cons] at hbytes
  exact map_byteOf_numeral_ne (by decide) (by decide) hlow (List.cons.inj hbytes).2

theorem itoaGives_hexadecimal_iff :
    ItoaGives value 16 (numeral 16 value.toNat) ↔ 0 ≤ value.toInt := by
  have hgives := itoaGives_itoa (.inr rfl) value
  change ItoaGives value 16 (itoa value 16) at hgives
  constructor
  · intro h
    by_contra hsign
    have hsign : value.toInt < 0 := Int.lt_of_not_ge hsign
    have hzero : value ≠ 0 := ne_zero_of_neg hsign
    have hlow := itoaDigits_of_neg (.inr rfl) hsign (natAbs_lt_pow (.inr rfl) value)
    have hbytes := h.unique hgives
    rw [itoa, if_neg hzero, if_neg fun hten => absurd hten.2 (by decide)] at hbytes
    exact map_byteOf_numeral_ne (by decide) (by decide) hlow hbytes
  · intro hsign
    have hnat : value.toInt.natAbs = value.toNat := by
      have hlt := value.isLt
      rw [BitVec.toInt_eq_toNat_cond] at hsign ⊢
      split_ifs at hsign ⊢ <;> omega
    rw [← hnat, ← itoa_of_nonneg (.inr rfl) hsign]
    exact hgives

end numerals

/-- In base 10, `itoa` gives the numeral of every number but the most negative one; in base 16, the
numeral of those that are not negative. -/
theorem itoa_canonical_iff (value : BitVec 32) :
    (ItoaGives value 10 (decimal value.toInt) ↔ value ≠ 0x80000000#32) ∧
      (ItoaGives value 16 (numeral 16 value.toNat) ↔ 0 ≤ value.toInt) := by
  refine ⟨⟨?_, itoaGives_decimal⟩, itoaGives_hexadecimal_iff⟩
  rintro h rfl
  exact not_itoaGives_intMin h

/-- `-1` in base 16 is the character before `0`. -/
theorem itoa_minusOne : ¬ ∀ value : BitVec 32, ItoaGives value 10 (decimal value.toInt) ∧
    ItoaGives value 16 (numeral 16 value.toNat) := by
  intro h
  exact absurd (itoaGives_hexadecimal_iff.mp (h (-1)).2) (by decide)

end Einherjar.Io
