import Einherjar.Colorforth.Code

/-! The word that `pack` makes of a name whose codes fit in 32 bits. -/
namespace Einherjar.Colorforth
open Einherjar.Lib

theorem strchr_code {c : Char} (hc : c ∈ code.tail) :
    strchr c (code ++ ['\x00']) 0 = some (code.idxOf c) := by
  have hall : ∀ c ∈ code.tail, strchr c (code ++ ['\x00']) 0 = some (code.idxOf c) := by decide
  exact hall c hc

theorem getCodeIndex_letter (codeAddress : BitVec 32) {c : Char} (hc : c ∈ code.tail) :
    (getCodeIndex codeAddress c).toNat = code.idxOf c := by
  have := (idxOf_letter hc).2
  rw [getCodeIndex, strchr_code hc, BitVec.toNat_ofNat]
  omega

theorem foldl_packLetter (codeAddress : BitVec 32) {w : List Char}
    (hw : ∀ c ∈ w, c ∈ code.tail) (packed bits : BitVec 32) {len : ℕ}
    (hpacked : packed.toNat < 2 ^ len) (hlen : len + (codeBits w).length ≤ 32) :
    w.foldl (packLetter codeAddress) (packed, bits) =
      (BitVec.ofNat 32 (packed.toNat * 2 ^ (codeBits w).length +
        field (codeBits w).length (codeBits w)), bits - BitVec.ofNat 32 (codeBits w).length) := by
  induction w generalizing packed bits len with
  | nil => simp
  | cons c w ih =>
    have hc := hw c List.mem_cons_self
    have hnum := codeNumber_lt (idxOf_letter hc).2
    rw [codeBits_cons, List.length_append, length_bits] at hlen ⊢
    rw [field_bits_append (Nat.le_add_right ..) hnum, Nat.add_sub_cancel_left]
    generalize hl : codeLength (code.idxOf c) = l at hnum hlen ⊢
    generalize hm : (codeBits w).length = m at hlen ih ⊢
    have hmul : packed.toNat * 2 ^ l + 2 ^ l ≤ 2 ^ len * 2 ^ l := by
      rw [← Nat.succ_mul]
      exact Nat.mul_le_mul_right _ hpacked
    have hstep : ((packed <<< l) + BitVec.ofNat 32 (codeNumber (code.idxOf c))).toNat =
        packed.toNat * 2 ^ l + codeNumber (code.idxOf c) := by
      have hpow : 2 ^ len * 2 ^ l ≤ 2 ^ 32 := by
        rw [← pow_add]
        exact Nat.pow_le_pow_right (by decide) (by omega)
      rw [BitVec.toNat_add, BitVec.toNat_shiftLeft, BitVec.toNat_ofNat, Nat.shiftLeft_eq,
        Nat.mod_eq_of_lt (by omega), Nat.mod_eq_of_lt (a := codeNumber _) (by omega),
        Nat.mod_eq_of_lt (by omega)]
    have hnext : ((packed <<< l) + BitVec.ofNat 32 (codeNumber (code.idxOf c))).toNat
        < 2 ^ (len + l) := by
      rw [hstep, pow_add]
      omega
    rw [List.foldl_cons, packLetter]
    simp only [getCodeIndex_letter codeAddress hc, hl]
    rw [ih (fun x hx => hw x (List.mem_cons_of_mem _ hx)) _ _ hnext (by omega), hstep]
    rw [Nat.add_mul, Nat.mul_assoc, ← pow_add, Nat.add_assoc]
    congr 1
    bv_omega

theorem four_le_length_codeBits {w : List Char} (hw : IsWord w) : 4 ≤ (codeBits w).length := by
  obtain ⟨c, v, rfl⟩ := List.exists_cons_of_ne_nil hw.nonempty
  have := codeLength_bounds (idxOf_letter (hw.letters c List.mem_cons_self)).2
  rw [codeBits_cons, List.length_append, length_bits]
  omega

/-- The code of a name that does not overflow the shifts. -/
theorem pack_eq (codeAddress : BitVec 32) {w : List Char} (hw : IsWord w)
    (hlen : (codeBits w).length ≤ 32) :
    pack codeAddress w = .done (BitVec.ofNat 32 (field 32 (codeBits w))) := by
  have hfour := four_le_length_codeBits hw
  have hfold := foldl_packLetter codeAddress hw.letters 0 28
    (show (0 : BitVec 32).toNat < 2 ^ 0 by simp) (by omega)
  have hwide := (fits_of_length_le (le_refl (codeBits w).length)).field_add
    (32 - (codeBits w).length)
  rw [Nat.add_sub_cancel' hlen] at hwide
  have hshift : ((28 - BitVec.ofNat 32 (codeBits w).length + 4 : BitVec 32)).toNat % 32 =
      32 - (codeBits w).length := by
    generalize (codeBits w).length = l at hlen hfour
    have : (28 - BitVec.ofNat 32 l + 4 : BitVec 32) = BitVec.ofNat 32 (32 - l) := by bv_omega
    rw [this, BitVec.toNat_ofNat]
    omega
  unfold pack
  rw [if_neg (by simpa using hw.nonempty), hfold]
  simp only [hshift]
  congr 1
  apply BitVec.eq_of_toNat_eq
  rw [BitVec.toNat_shiftLeft, BitVec.toNat_ofNat, BitVec.toNat_ofNat, hwide, Nat.shiftLeft_eq]
  simp

/-- What the prompt looks up. -/
theorem name_pack (codeAddress : BitVec 32) {w : List Char} (hw : IsWord w)
    (hlen : (codeBits w).length ≤ 32) :
    ∃ packed, pack codeAddress w = .done packed ∧ packed &&& ~~~0xf#32 = nameCell w 0 := by
  refine ⟨_, pack_eq codeAddress hw hlen, ?_⟩
  apply BitVec.eq_of_toNat_eq
  have hsplit : field 32 (codeBits w) = field 28 (codeBits w) * 2 ^ 4 +
      field 4 ((codeBits w).drop 28) := field_add 28 4 _
  have hlow := field_lt 4 ((codeBits w).drop 28)
  have hlt : field 32 (codeBits w) < 2 ^ 32 := field_lt ..
  rw [toNat_name, BitVec.toNat_ofNat, Nat.mod_eq_of_lt hlt, toNat_nameCell (by decide)]
  omega

end Einherjar.Colorforth
