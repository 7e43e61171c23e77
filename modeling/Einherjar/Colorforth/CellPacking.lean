import Einherjar.Colorforth.Encoder
import Einherjar.Colorforth.NameGroups

/-! How the encoder packs characters into a cell: one step of its loops. -/
namespace Einherjar.Colorforth
open Einherjar.Lib

/-- A character fits if the bits to cut off are zeros. -/
theorem shrink_eq (bits hl n : ℕ) :
    shrink bits hl n =
      if 2 ^ (hl - bits) ∣ n then some (min hl bits, n / 2 ^ (hl - bits)) else none := by
  induction hl generalizing n with
  | zero => simp [shrink]
  | succ hl ih =>
    unfold shrink
    by_cases hfit : hl + 1 ≤ bits
    · simp [hfit]
    · have hexp : hl + 1 - bits = hl - bits + 1 := by omega
      have hmin : min (hl + 1) bits = min hl bits := by omega
      rw [if_neg hfit, Nat.and_one_is_mod, Nat.shiftRight_one, ih, hexp, pow_succ', hmin]
      by_cases hodd : n % 2 = 1
      · rw [if_pos hodd, if_neg]
        intro hdvd
        have := Nat.mod_eq_zero_of_dvd (dvd_of_mul_right_dvd hdvd)
        omega
      · obtain ⟨m, rfl⟩ : ∃ m, n = 2 * m := ⟨n / 2, by omega⟩
        rw [if_neg hodd, Nat.mul_div_cancel_left m (by decide),
          Nat.mul_div_mul_left _ _ (by decide)]
        simp only [Nat.mul_dvd_mul_iff_left (show 0 < 2 by decide)]

theorem huffmanForChar_of_mem {c : Char} (hc : c ∈ code) :
    huffmanForChar c = some (codeLength (code.idxOf c), codeNumber (code.idxOf c)) := if_pos hc

theorem huffmanForChar_eq_none {c : Char} (hc : c ∉ code) : huffmanForChar c = none := if_neg hc

/-- The state of the loops holds the characters `g` of a cell. -/
structure Packs (st : PackState) (g : List Char) : Prop where
  bits : st.bits = 28 - (codeBits g).length
  packed : st.packed = field (28 - st.bits) (codeBits g)
  fits : Fits 28 (codeBits g)

namespace Packs

variable {st : PackState} {g : List Char}

theorem fits_used (h : Packs st g) : Fits (28 - st.bits) (codeBits g) := by
  have hb := h.bits
  by_cases hlen : (codeBits g).length ≤ 28
  · exact fits_of_length_le (by omega)
  · rw [hb, show 28 - (28 - (codeBits g).length) = 28 by omega]
    exact h.fits

/-- The cell that is emitted for the characters. -/
theorem packed_cell (h : Packs st g) {tag : ℕ} (htag : tag < 16) :
    BitVec.ofNat 32 (((st.packed <<< (st.bits + 4)) &&& mask) ||| tag) = nameCell g tag := by
  have hle : st.bits ≤ 28 := by
    have := h.bits
    omega
  have hfield := h.fits_used.field_add st.bits
  rw [Nat.sub_add_cancel hle, ← h.packed] at hfield
  have hshift : st.packed <<< (st.bits + 4) = field 28 (codeBits g) <<< 4 := by
    rw [Nat.shiftLeft_eq, Nat.shiftLeft_eq, pow_add, ← Nat.mul_assoc, hfield]
  have hlt := field_lt 28 (codeBits g)
  have hmask : (field 28 (codeBits g) <<< 4) &&& mask = field 28 (codeBits g) <<< 4 := by
    rw [show mask = 2 ^ 32 - 1 from rfl, Nat.and_two_pow_sub_one_eq_mod, Nat.shiftLeft_eq]
    omega
  rw [hshift, hmask, shiftLeft_or_eq (by omega)]
  rfl

theorem packed_lt (h : Packs st g) : st.packed < 2 ^ (28 - st.bits) := by
  rw [h.packed]
  exact field_lt _ _

/-- The character is added to the cell. -/
theorem packChar_of_fits (h : Packs st g) {c : Char} (hc : c ∈ code) (hbits : st.bits ≠ 0)
    (hfits : Fits 28 (codeBits (g ++ [c]))) (tag : ℕ) (rest : List Char) :
    ∃ st', packChar tag st c rest = .done st' ∧ Packs st' (g ++ [c]) ∧ st'.tmp = st.tmp ∧
      st'.extensionMode = st.extensionMode ∧ st'.rest = rest := by
  have hb := h.bits
  have hlen : 28 - st.bits = (codeBits g).length := by omega
  have hnum := codeNumber_lt (idxOf_code hc)
  have hfitsTail := (fits_snoc_iff h.fits c).mp hfits
  rw [← h.bits] at hfitsTail
  have hpacked : st.packed = field (codeBits g).length (codeBits g) := by rw [h.packed, hlen]
  have hpackedLt := h.packed_lt
  have hmask : ∀ w ≤ st.bits, (st.packed <<< w) &&& mask = st.packed <<< w := by
    intro w hw
    have hmul : st.packed * 2 ^ w < 2 ^ (28 - st.bits) * 2 ^ w :=
      Nat.mul_lt_mul_of_pos_right hpackedLt (by positivity)
    have hle : 2 ^ (28 - st.bits) * 2 ^ w ≤ 2 ^ 32 := by
      rw [← pow_add]
      exact Nat.pow_le_pow_right (by decide) (by omega)
    rw [show mask = 2 ^ 32 - 1 from rfl, Nat.and_two_pow_sub_one_eq_mod, Nat.shiftLeft_eq]
    exact Nat.mod_eq_of_lt (by omega)
  have hsnoc := codeBits_snoc g c
  have hlenSnoc := congrArg List.length hsnoc
  rw [List.length_append, length_bits] at hlenSnoc
  unfold packChar
  rw [huffmanForChar_of_mem hc]
  generalize codeLength (code.idxOf c) = hl, codeNumber (code.idxOf c) = hn at *
  by_cases hle : hl ≤ st.bits
  · refine ⟨_, if_pos hle, ⟨?_, ?_, hfits⟩, rfl, rfl, rfl⟩
    · change st.bits - hl = _
      omega
    · change ((st.packed <<< hl) &&& mask) ||| hn = field (28 - (st.bits - hl)) _
      rw [hmask hl hle, shiftLeft_or_eq hnum, hsnoc,
        show 28 - (st.bits - hl) = (codeBits g).length + hl by omega,
        field_append _ le_rfl hnum, hpacked]
      simp
  · have hdvd := (fits_bits_iff (by omega) hnum).mp hfitsTail
    simp only [shrink_eq, if_neg hle, if_pos hdvd, min_eq_right (Nat.le_of_not_le hle)]
    refine ⟨_, rfl, ⟨?_, ?_, hfits⟩, rfl, rfl, rfl⟩
    · change st.bits - st.bits = _
      omega
    · change ((st.packed <<< st.bits) &&& mask) ^^^ (hn / 2 ^ (hl - st.bits)) =
        field (28 - (st.bits - st.bits)) _
      have hquot : hn / 2 ^ (hl - st.bits) < 2 ^ st.bits := by
        apply Nat.div_lt_of_lt_mul
        rw [← pow_add, Nat.sub_add_cancel (by omega)]
        exact hnum
      rw [hmask _ le_rfl, shiftLeft_xor_eq hquot, hsnoc,
        show 28 - (st.bits - st.bits) = (codeBits g).length + st.bits by omega,
        field_append _ (by omega) hnum, hpacked]

/-- The character goes to the next cell. -/
theorem packChar_of_not_fits (h : Packs st g) {c : Char} (hc : c ∈ code)
    (hfits : ¬ Fits 28 (codeBits (g ++ [c]))) (tag : ℕ) (rest : List Char) :
    packChar tag st c rest = .done (finishPack tag st) := by
  have hnum := codeNumber_lt (idxOf_code hc)
  rw [fits_snoc_iff h.fits, ← h.bits] at hfits
  have hgt : ¬ codeLength (code.idxOf c) ≤ st.bits := fun hle =>
    hfits (fits_of_length_le (by simpa using hle))
  have hdvd : ¬ 2 ^ (codeLength (code.idxOf c) - st.bits) ∣ codeNumber (code.idxOf c) := fun hdvd =>
    hfits ((fits_bits_iff (by omega) hnum).mpr hdvd)
  unfold packChar
  simp only [huffmanForChar_of_mem hc, if_neg hgt, shrink_eq, if_neg hdvd]

theorem finishPack (st : PackState) (tag : ℕ) : Packs (finishPack tag st) [] where
  bits := rfl
  packed := rfl
  fits := fits_of_length_le (Nat.zero_le _)

end Packs

end Einherjar.Colorforth
