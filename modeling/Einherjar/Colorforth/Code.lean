import Einherjar.Lib.BitString
import Einherjar.Lib.Fuel
import Mathlib.Tactic.IntervalCases

/-! The code of names: how the editor packs a word into a cell and unpacks it again. The code
table and the lengths of the codes are those of the converter as well. -/
namespace Einherjar.Colorforth
open Einherjar.Lib

/-- The character sequence of the codes. -/
def code : List Char :=
  [' ', 'r', 't', 'o', 'e', 'a', 'n', 'i', 's', 'm', 'c', 'y', 'l', 'g', 'f', 'w',
   'd', 'v', 'p', 'b', 'h', 'x', 'u', 'q', '0', '1', '2', '3', '4', '5', '6', '7',
   '8', '9', 'j', '-', 'k', '.', 'z', '/', ';', ':', '!', '+', '@', '*', ',', '?']

/-- Letters of a list are checked one after the other, and not all characters. -/
instance decidableLetters (p : Char → Prop) [DecidablePred p] (w : List Char) :
    Decidable (∀ c ∈ w, p c) := List.decidableBAll p w

/-- `4 + (letter_code > 7) + (2 * (letter_code > 15))` -/
def codeLength (letterCode : ℕ) : ℕ :=
  4 + (if letterCode > 7 then 1 else 0) + 2 * (if letterCode > 15 then 1 else 0)

/-- `letter_code + (8 * (length == 5)) + ((96 - 16) * (length == 7))` -/
def codeNumber (letterCode : ℕ) : ℕ :=
  letterCode + 8 * (if codeLength letterCode = 5 then 1 else 0) +
    (96 - 16) * (if codeLength letterCode = 7 then 1 else 0)

/-- The kernel's `strchr` on a string and its terminator, as an index. The first character is
passed over. -/
def strchr (c : Char) : List Char → ℕ → Option ℕ
  | [], _ => none
  | x :: s, k =>
    if x = '\x00' then none
    else if s.head? = some c then some (k + 1)
    else strchr c s (k + 1)

/-- `strchr(code, letter) - code`; `codeAddress` is the address of the table, which is
subtracted from `NULL` when the letter is not in it. -/
def getCodeIndex (codeAddress : BitVec 32) (letter : Char) : BitVec 32 :=
  match strchr letter (code ++ ['\x00']) 0 with
  | some k => BitVec.ofNat 32 k
  | none => 0 - codeAddress

/-- One iteration of the loop in `pack`, on `packed` and `bits`. -/
def packLetter (codeAddress : BitVec 32) (st : BitVec 32 × BitVec 32) (letter : Char) :
    BitVec 32 × BitVec 32 :=
  let letterCode := getCodeIndex codeAddress letter
  let length := codeLength letterCode.toNat
  ((st.1 <<< length) + BitVec.ofNat 32 (codeNumber letterCode.toNat),
    st.2 - BitVec.ofNat 32 length)

/-- The assertion rejects the empty word. The processor takes a shift count modulo 32. -/
def pack (codeAddress : BitVec 32) (wordName : List Char) : Outcome (BitVec 32) :=
  if wordName.length = 0 then .stopped
  else
    let st := wordName.foldl (packLetter codeAddress) (0, 28)
    .done (st.1 <<< ((st.2 + 4).toNat % 32))

/-- The loop of `unpack`. Each iteration shifts out four bits or more, of 28. -/
def unpackLoop : ℕ → BitVec 32 → List Char
  | 0, _ => []
  | fuel + 1, coded =>
    if coded = 0 then []
    else
      let nibble := (coded >>> 28).toNat
      let coded := coded <<< 4
      if nibble < 0x8 then
        code.getD nibble '\x00' :: unpackLoop fuel coded
      else if nibble < 0xc then
        code.getD (((nibble ^^^ 0xc) <<< 1) ||| coded.msb.toNat) '\x00' ::
          unpackLoop fuel (coded <<< 1)
      else
        code.getD ((coded >>> 29).toNat + 8 * (nibble - 10)) '\x00' ::
          unpackLoop fuel (coded <<< 3)

def unpack (word : BitVec 32) : List Char := unpackLoop 8 (word &&& ~~~0xf#32)

/-- A non-empty name over the code table, without the space. -/
structure IsWord (w : List Char) : Prop where
  nonempty : w ≠ []
  letters : ∀ c ∈ w, c ∈ code.tail

instance (w : List Char) : Decidable (IsWord w) :=
  decidable_of_iff (w ≠ [] ∧ ∀ c ∈ w, c ∈ code.tail)
    ⟨fun h => ⟨h.1, h.2⟩, fun h => ⟨h.nonempty, h.letters⟩⟩

/-- The codes of the characters of a name, one after another. -/
def codeBits (w : List Char) : List Bool :=
  w.flatMap fun c => bits (codeLength (code.idxOf c)) (codeNumber (code.idxOf c))

/-- The cell with a name, cut off at 28 bits, and a tag. -/
def nameCell (w : List Char) (tag : ℕ) : BitVec 32 :=
  BitVec.ofNat 32 (field 28 (codeBits w) * 16 + tag)

/-- Nothing but spaces, whose code is zero. -/
def Blank (g : List Char) : Prop := ∀ c ∈ g, c = ' '

instance (g : List Char) : Decidable (Blank g) := by unfold Blank; infer_instance

/-- The text does not end with a space. -/
def Tight (w : List Char) : Prop := w.getLast? ≠ some ' '

instance (w : List Char) : Decidable (Tight w) := by unfold Tight; infer_instance

section codes

variable {c : Char} {w : List Char}

theorem idxOf_letter (hc : c ∈ code.tail) : 1 ≤ code.idxOf c ∧ code.idxOf c < 48 := by
  have hall : ∀ c ∈ code.tail, 1 ≤ code.idxOf c ∧ code.idxOf c < 48 := by decide
  exact hall c hc

theorem idxOf_code (hc : c ∈ code) : code.idxOf c < 48 := List.idxOf_lt_length_of_mem hc

theorem getD_idxOf (hc : c ∈ code) (d : Char) : code.getD (code.idxOf c) d = c := by
  have hlt : code.idxOf c < code.length := idxOf_code hc
  rw [List.getD_eq_getElem _ _ hlt, List.getElem_idxOf hlt]

/-- The three kinds of codes. -/
theorem code_cases {k : ℕ} (hk : k < 48) :
    (k < 8 ∧ codeLength k = 4 ∧ codeNumber k = k) ∨
    (8 ≤ k ∧ k < 16 ∧ codeLength k = 5 ∧ codeNumber k = k + 8) ∨
    (16 ≤ k ∧ k < 48 ∧ codeLength k = 7 ∧ codeNumber k = k + 80) := by
  interval_cases k <;> decide

theorem codeNumber_lt {k : ℕ} (hk : k < 48) : codeNumber k < 2 ^ codeLength k := by
  rcases code_cases hk with ⟨h, hl, hn⟩ | ⟨-, h, hl, hn⟩ | ⟨-, h, hl, hn⟩ <;> rw [hl, hn] <;> omega

theorem codeLength_bounds {k : ℕ} (hk : k < 48) : 4 ≤ codeLength k ∧ codeLength k ≤ 7 := by
  rcases code_cases hk with ⟨-, hl, -⟩ | ⟨-, -, hl, -⟩ | ⟨-, -, hl, -⟩ <;> rw [hl] <;> omega

theorem codeNumber_pos {k : ℕ} (hk : 1 ≤ k) : 1 ≤ codeNumber k := by
  unfold codeNumber
  omega

@[simp] theorem codeBits_nil : codeBits [] = [] := rfl

theorem codeBits_cons (c : Char) (w : List Char) :
    codeBits (c :: w) =
      bits (codeLength (code.idxOf c)) (codeNumber (code.idxOf c)) ++ codeBits w := rfl

theorem codeBits_append (v w : List Char) : codeBits (v ++ w) = codeBits v ++ codeBits w :=
  List.flatMap_append

theorem codeBits_spaces (k : ℕ) : (codeBits (List.replicate k ' ')).length = 4 * k := by
  induction k with
  | zero => rfl
  | succ k ih =>
    rw [List.replicate_succ, codeBits_cons, List.length_append, ih, Nat.mul_succ, Nat.add_comm]
    rfl

theorem fits_codeBits_cons {n : ℕ} :
    Fits n (codeBits (c :: w)) ↔
      Fits n (bits (codeLength (code.idxOf c)) (codeNumber (code.idxOf c))) ∧
        Fits (n - codeLength (code.idxOf c)) (codeBits w) := by
  rw [codeBits_cons, fits_append_iff, length_bits]

/-- The code of a letter has a bit that is not zero. -/
theorem not_fits_zero_letter (hc : c ∈ code.tail) :
    ¬ Fits 0 (bits (codeLength (code.idxOf c)) (codeNumber (code.idxOf c))) := by
  obtain ⟨hpos, hlt⟩ := idxOf_letter hc
  have hcode := codeNumber_lt hlt
  rw [fits_bits_iff (Nat.zero_le _) hcode, Nat.sub_zero]
  exact Nat.not_dvd_of_pos_of_lt (codeNumber_pos hpos) hcode

/-- Only the code of the space is zero. -/
theorem codeBits_zero_iff {g : List Char} (hg : ∀ c ∈ g, c ∈ code) :
    (∀ b ∈ codeBits g, b = false) ↔ Blank g := by
  constructor
  · intro h c hc
    by_contra hne
    have hletter : c ∈ code.tail := (List.mem_cons.mp (hg c hc)).resolve_left hne
    refine not_fits_zero_letter hletter fun b hb => h b (List.mem_flatMap.mpr ⟨c, hc, ?_⟩)
    simpa using hb
  · intro h b hb
    obtain ⟨c, hc, hb⟩ := List.mem_flatMap.mp hb
    have hspace : ∀ b ∈ bits (codeLength (code.idxOf ' ')) (codeNumber (code.idxOf ' ')),
        b = false := by decide
    rw [h c hc] at hb
    exact hspace b hb

theorem Tight.of_cons (h : Tight (c :: w)) : Tight w := by
  cases w with
  | nil => simp [Tight]
  | cons d w => simpa [Tight] using h

theorem Tight.not_blank (h : Tight (c :: w)) : ¬ Blank (c :: w) := by
  intro hblank
  have hlast := List.getLast?_eq_some_getLast (List.cons_ne_nil c w)
  exact h (hlast.trans (congrArg some (hblank _ (List.getLast_mem _))))

theorem tight_of_letters (hw : ∀ c ∈ w, c ∈ code.tail) : Tight w := by
  intro hlast
  exact absurd (hw ' ' (List.mem_of_getLast? hlast)) (by decide)

theorem field_codeBits_cons {n : ℕ} (hc : c ∈ code) (hn : codeLength (code.idxOf c) ≤ n) :
    field n (codeBits (c :: w)) =
      codeNumber (code.idxOf c) * 2 ^ (n - codeLength (code.idxOf c)) +
        field (n - codeLength (code.idxOf c)) (codeBits w) := by
  rw [codeBits_cons, field_bits_append hn (codeNumber_lt (idxOf_code hc))]

end codes

theorem toNat_shiftLeft_of_split {coded : BitVec 32} {len q r : ℕ} (hlen : len ≤ 32)
    (h : coded.toNat = q * 2 ^ (32 - len) + r) :
    coded <<< len = BitVec.ofNat 32 (r * 2 ^ len) := by
  apply BitVec.eq_of_toNat_eq
  have hpow : 2 ^ (32 - len) * 2 ^ len = 2 ^ 32 := by rw [← pow_add, Nat.sub_add_cancel hlen]
  rw [BitVec.toNat_shiftLeft, h, Nat.shiftLeft_eq, Nat.add_mul, Nat.mul_assoc, hpow,
    Nat.mul_add_mod_self_right, BitVec.toNat_ofNat]

/-- The first letter of a cell, and the rest. -/
theorem unpackLoop_split {coded : BitVec 32} {k r : ℕ} (hne : coded ≠ 0) (hk' : k < 48)
    (h : coded.toNat = codeNumber k * 2 ^ (32 - codeLength k) + r)
    (hr : r < 2 ^ (32 - codeLength k)) (fuel : ℕ) :
    unpackLoop (fuel + 1) coded =
      code.getD k '\x00' :: unpackLoop fuel (BitVec.ofNat 32 (r * 2 ^ codeLength k)) := by
  have hshift := toNat_shiftLeft_of_split (by have := codeLength_bounds hk'; omega) h
  have hnib : (coded >>> 28).toNat = coded.toNat / 2 ^ 28 := by
    rw [BitVec.toNat_ushiftRight, Nat.shiftRight_eq_div_pow]
  rw [unpackLoop, if_neg hne]
  rcases code_cases hk' with ⟨hlt, hl, hn⟩ | ⟨hge, hlt, hl, hn⟩ | ⟨hge, hlt, hl, hn⟩
  · rw [hl, hn] at h
    rw [hl] at hr
    have hk4 : coded.toNat / 2 ^ 28 = k := by omega
    simp only [hnib, hk4, if_pos hlt]
    rw [← hshift, hl]
  · rw [hl, hn] at h
    rw [hl] at hr
    have hk5 : coded.toNat / 2 ^ 28 = (k + 8) / 2 := by omega
    have hmsb : (coded <<< 4).msb.toNat = (k + 8) % 2 := by
      rw [BitVec.msb_eq_decide, BitVec.toNat_shiftLeft, Nat.shiftLeft_eq]
      by_cases hodd : (k + 8) % 2 = 1
      · rw [hodd, decide_eq_true (by omega)]; rfl
      · rw [decide_eq_false (by omega)]
        have : (k + 8) % 2 = 0 := by omega
        rw [this]; rfl
    have hindex : ((((k + 8) / 2) ^^^ 0xc) <<< 1 ||| (k + 8) % 2) = k := by
      interval_cases k <;> rfl
    simp only [hnib, hk5, hmsb, hindex]
    rw [if_neg (by omega), if_pos (by omega), ← hshift, hl, ← BitVec.shiftLeft_add]
  · rw [hl, hn] at h
    rw [hl] at hr
    have hk7 : coded.toNat / 2 ^ 28 = (k + 80) / 8 := by omega
    have hlow : ((coded <<< 4) >>> 29).toNat = (k + 80) % 8 := by
      rw [BitVec.toNat_ushiftRight, BitVec.toNat_shiftLeft, Nat.shiftLeft_eq,
        Nat.shiftRight_eq_div_pow]
      omega
    simp only [hnib, hk7, hlow]
    have hindex : (k + 80) % 8 + 8 * ((k + 80) / 8 - 10) = k := by omega
    rw [if_neg (by omega), if_neg (by omega), ← hshift, hl, ← BitVec.shiftLeft_add, hindex]

theorem unpackLoop_step {coded : BitVec 32} {k r : ℕ} (hk : 1 ≤ k) (hk' : k < 48)
    (h : coded.toNat = codeNumber k * 2 ^ (32 - codeLength k) + r)
    (hr : r < 2 ^ (32 - codeLength k)) (fuel : ℕ) :
    unpackLoop (fuel + 1) coded =
      code.getD k '\x00' :: unpackLoop fuel (BitVec.ofNat 32 (r * 2 ^ codeLength k)) := by
  refine unpackLoop_split ?_ hk' h hr fuel
  rintro rfl
  have hpos := codeNumber_pos hk
  have : 0 < codeNumber k * 2 ^ (32 - codeLength k) := by positivity
  simp at h
  omega

/-- Unpacking undoes the code, for texts that lose no more than zeros at the end. -/
theorem unpackLoop_text {w : List Char} (hw : ∀ c ∈ w, c ∈ code) (htight : Tight w) {n : ℕ}
    (hn : n ≤ 28) (hfits : Fits n (codeBits w)) {fuel : ℕ} (hfuel : n ≤ 4 * fuel) :
    unpackLoop fuel (BitVec.ofNat 32 (field 32 (codeBits w))) = w := by
  induction w generalizing n fuel with
  | nil => cases fuel <;> simp [unpackLoop]
  | cons c w ih =>
    have hc := hw c List.mem_cons_self
    have hk' := idxOf_code hc
    obtain ⟨hlen4, hlen7⟩ := codeLength_bounds hk'
    obtain ⟨hhead, htail⟩ := fits_codeBits_cons.mp hfits
    have hbits : ¬ ∀ b ∈ codeBits (c :: w), b = false := fun hzero =>
      htight.not_blank ((codeBits_zero_iff hw).mp hzero)
    have hn0 : n ≠ 0 := by
      rintro rfl
      exact hbits hfits
    obtain ⟨fuel, rfl⟩ := Nat.exists_eq_succ_of_ne_zero (n := fuel) (by omega)
    have hwhole : Fits 32 (codeBits (c :: w)) := hfits.mono (by omega)
    have hlt := field_lt 32 (codeBits (c :: w))
    have hne : BitVec.ofNat 32 (field 32 (codeBits (c :: w))) ≠ 0 := by
      intro hzero
      have hval := congrArg BitVec.toNat hzero
      rw [BitVec.toNat_ofNat, Nat.mod_eq_of_lt hlt] at hval
      exact hbits (hwhole.field_eq_zero_iff.mp hval)
    have hfield := field_codeBits_cons (w := w) hc (show _ ≤ 32 by omega)
    have hrest : field (32 - codeLength (code.idxOf c)) (codeBits w) *
        2 ^ codeLength (code.idxOf c) = field 32 (codeBits w) := by
      have hwide : Fits (32 - codeLength (code.idxOf c)) (codeBits w) := htail.mono (by omega)
      rw [← hwide.field_add, Nat.sub_add_cancel (by omega)]
    rw [unpackLoop_split hne hk' (r := field (32 - codeLength (code.idxOf c)) (codeBits w)) _
      (field_lt ..), getD_idxOf hc, hrest,
      ih (fun x hx => hw x (List.mem_cons_of_mem _ hx)) htight.of_cons (by omega) htail (by omega)]
    rw [BitVec.toNat_ofNat, Nat.mod_eq_of_lt hlt, hfield]

theorem toNat_color (x : BitVec 32) : (x &&& 0xf#32).toNat = x.toNat % 16 := by
  rw [BitVec.toNat_and]
  exact Nat.and_two_pow_sub_one_eq_mod x.toNat 4

theorem and_name_eq (x : BitVec 32) : x &&& ~~~0xf#32 = (x >>> 4) <<< 4 := by
  ext i hi
  interval_cases i <;> simp

theorem toNat_name (x : BitVec 32) : (x &&& ~~~0xf#32).toNat = x.toNat / 16 * 16 := by
  have := x.isLt
  rw [and_name_eq, BitVec.toNat_shiftLeft, BitVec.toNat_ushiftRight, Nat.shiftLeft_eq,
    Nat.shiftRight_eq_div_pow]
  omega

theorem and_hex_eq (x : BitVec 32) : x &&& 0x10#32 = ((x >>> 4) &&& 1) <<< 4 := by
  ext i hi
  interval_cases i <;> simp

theorem hexBit_iff (x : BitVec 32) : x &&& 0x10#32 ≠ 0 ↔ x.toNat / 16 % 2 = 1 := by
  have hval : (x &&& 0x10#32).toNat = x.toNat / 16 % 2 * 16 := by
    rw [and_hex_eq, BitVec.toNat_shiftLeft, BitVec.toNat_and, BitVec.toNat_ushiftRight,
      Nat.shiftLeft_eq, Nat.shiftRight_eq_div_pow, show (1 : BitVec 32).toNat = 1 from rfl,
      Nat.and_one_is_mod]
    omega
  rw [Ne, ← BitVec.toNat_inj, hval]
  simp

section cells

variable {w : List Char} {tag : ℕ}

theorem toNat_nameCell (htag : tag < 16) :
    (nameCell w tag).toNat = field 28 (codeBits w) * 16 + tag := by
  have := field_lt 28 (codeBits w)
  rw [nameCell, BitVec.toNat_ofNat, Nat.mod_eq_of_lt]
  omega

theorem color_nameCell (htag : tag < 16) : (nameCell w tag &&& 0xf#32).toNat = tag := by
  rw [toNat_color, toNat_nameCell htag]
  omega

theorem name_nameCell (htag : tag < 16) : nameCell w tag &&& ~~~0xf#32 = nameCell w 0 := by
  apply BitVec.eq_of_toNat_eq
  rw [toNat_name, toNat_nameCell htag, toNat_nameCell (by decide)]
  omega

/-- The last bit of the name is the bit that marks hexadecimal numbers. -/
theorem hexBit_nameCell (htag : tag < 16) :
    nameCell w tag &&& 0x10#32 ≠ 0 ↔ field 28 (codeBits w) % 2 = 1 := by
  rw [hexBit_iff, toNat_nameCell htag]
  have : (field 28 (codeBits w) * 16 + tag) / 16 = field 28 (codeBits w) := by omega
  rw [this]

theorem unpack_textCell (hw : ∀ c ∈ w, c ∈ code) (htight : Tight w) (hfits : Fits 28 (codeBits w))
    (htag : tag < 16) : unpack (nameCell w tag) = w := by
  have hfield := hfits.field_add 4
  rw [unpack, name_nameCell htag, nameCell, Nat.add_zero,
    show field 28 (codeBits w) * 16 = field 32 (codeBits w) from hfield.symm]
  exact unpackLoop_text hw htight le_rfl hfits (by decide)

theorem unpack_nameCell (hw : ∀ c ∈ w, c ∈ code.tail) (hfits : Fits 28 (codeBits w))
    (htag : tag < 16) : unpack (nameCell w tag) = w :=
  unpack_textCell (fun c hc => List.mem_of_mem_tail (hw c hc)) (tight_of_letters hw) hfits htag

theorem nameCell_inj {v : List Char} (hv : ∀ c ∈ v, c ∈ code.tail) (hfv : Fits 28 (codeBits v))
    (hw : ∀ c ∈ w, c ∈ code.tail) (hfw : Fits 28 (codeBits w)) (h : nameCell v 0 = nameCell w 0) :
    v = w := by
  rw [← unpack_nameCell hv hfv (show 0 < 16 by decide), h, unpack_nameCell hw hfw (by decide)]

end cells

end Einherjar.Colorforth
