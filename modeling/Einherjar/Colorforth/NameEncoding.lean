import Einherjar.Colorforth.CellPacking

/-! What the converter makes of a name: the loops of the encoder emit the cells of its groups. -/
namespace Einherjar.Colorforth
open Einherjar.Lib

/-- The state of the loops holds the group `g`. -/
structure Represents (st : PackState) (g : List Char) : Prop where
  bits : st.bits = 28 - (codeBits g).length
  packed : st.packed = field (28 - st.bits) (codeBits g)
  fits : Fits 28 (codeBits g)
  letters : ∀ c ∈ g, c ∈ code.tail
  lettersRest : ∀ c ∈ st.rest, c ∈ code.tail

/-- The cells emitted, and those still to come. -/
def output (tag : ℕ) (st : PackState) (g : List Char) : List Cell :=
  st.tmp ++ groupCells tag st.extensionMode (groupsFrom g st.rest)

/-- Twice the characters to come, and one for the group to finish. -/
def work (st : PackState) (g : List Char) : ℕ := 2 * st.rest.length + (if g = [] then 0 else 1)

namespace Represents

variable {st : PackState} {g : List Char}

theorem packs (h : Represents st g) : Packs st g := ⟨h.bits, h.packed, h.fits⟩

/-- The character is added to the group. -/
theorem packChar_of_fits (h : Represents st g) {c : Char} {rest : List Char}
    (hrest : st.rest = c :: rest) (hbits : st.bits ≠ 0) (hfits : Fits 28 (codeBits (g ++ [c])))
    (tag : ℕ) :
    ∃ st', packChar tag st c rest = .done st' ∧ Represents st' (g ++ [c]) ∧ st'.tmp = st.tmp ∧
      st'.extensionMode = st.extensionMode ∧ st'.rest = rest := by
  have hc : c ∈ code.tail := h.lettersRest c (hrest ▸ List.mem_cons_self)
  obtain ⟨st', hpack, hpacks, htmp, hext, hrest'⟩ :=
    h.packs.packChar_of_fits (List.mem_of_mem_tail hc) hbits hfits tag rest
  refine ⟨st', hpack, ⟨hpacks.bits, hpacks.packed, hfits, ?_, ?_⟩, htmp, hext, hrest'⟩
  · intro x hx
    rcases List.mem_append.mp hx with hx | hx
    · exact h.letters x hx
    · rwa [List.mem_singleton.mp hx]
  · intro x hx
    rw [hrest'] at hx
    exact h.lettersRest x (hrest ▸ List.mem_cons_of_mem _ hx)

/-- The character goes to the next cell. -/
theorem packChar_of_not_fits (h : Represents st g) {c : Char} {rest : List Char}
    (hrest : st.rest = c :: rest) (hfits : ¬ Fits 28 (codeBits (g ++ [c]))) (tag : ℕ) :
    packChar tag st c rest = .done (finishPack tag st) :=
  h.packs.packChar_of_not_fits
    (List.mem_of_mem_tail (h.lettersRest c (hrest ▸ List.mem_cons_self))) hfits tag rest

theorem finishPack (h : Represents st g) (tag : ℕ) : Represents (finishPack tag st) [] where
  bits := rfl
  packed := rfl
  fits := fits_of_length_le (Nat.zero_le _)
  letters := by simp
  lettersRest := h.lettersRest

theorem output_finishPack (h : Represents st g) {tag : ℕ} (htag : tag < 16)
    (hgroups : groupsFrom g st.rest = g :: groupsFrom [] st.rest) :
    output tag (Colorforth.finishPack tag st) [] = output tag st g := by
  have hlt : (if st.extensionMode then 0 else tag) < 16 := by split_ifs <;> omega
  have hcell := h.packs.packed_cell hlt
  unfold output
  rw [hgroups, groupCells]
  simp only [Colorforth.finishPack, hcell, List.append_assoc, List.singleton_append]

theorem groupsFrom_of_not_fits (h : Represents st g) {c : Char} {rest : List Char}
    (hrest : st.rest = c :: rest) (hfits : ¬ Fits 28 (codeBits (g ++ [c]))) :
    groupsFrom g st.rest = g :: groupsFrom [] st.rest := by
  rw [hrest, groupsFrom_nil_cons (h.lettersRest c (hrest ▸ List.mem_cons_self)), groupsFrom,
    if_neg hfits]

theorem ne_nil_of_bits (h : Represents st g) (hbits : st.bits ≠ 28) : g ≠ [] := by
  rintro rfl
  exact hbits h.bits

/-- A group that is not empty has a number of its own. -/
theorem packed_ne_zero (h : Represents st g) (hg : g ≠ []) : st.bits ≠ 28 ∧ st.packed ≠ 0 := by
  obtain ⟨c, w, rfl⟩ := List.exists_cons_of_ne_nil hg
  have hc := h.letters c List.mem_cons_self
  obtain ⟨hpos, hk⟩ := idxOf_letter hc
  have hlen := codeLength_bounds hk
  have hbits := h.bits
  rw [codeBits_cons, List.length_append, length_bits] at hbits
  refine ⟨by omega, ?_⟩
  have hnum := codeNumber_pos hpos
  have hmul : 0 < codeNumber (code.idxOf c) *
      2 ^ (28 - st.bits - codeLength (code.idxOf c)) := by positivity
  rw [h.packed, field_codeBits_cons (List.mem_of_mem_tail hc) (by omega)]
  omega

end Represents

/-- The inner loop ends, with the same cells to come. -/
theorem packLoop_spec {tag : ℕ} (htag : tag < 16) {fuel : ℕ} {st : PackState} {g : List Char}
    (h : Represents st g) (hfuel : work st g < fuel) :
    ∃ st' g', packLoop tag fuel st = .done st' ∧ Represents st' g' ∧
      output tag st' g' = output tag st g ∧ work st' g' ≤ work st g ∧
      (st'.rest = [] ∨ st'.bits = 0) ∧ (st.rest ≠ [] ∨ g ≠ [] → g' ≠ []) := by
  induction fuel generalizing st g with
  | zero => omega
  | succ fuel ih =>
    unfold packLoop
    cases hrest : st.rest with
    | nil => exact ⟨st, g, rfl, h, rfl, le_rfl, .inl hrest, by simp⟩
    | cons c rest =>
      by_cases hbits : st.bits = 0
      · exact ⟨st, g, if_pos hbits, h, rfl, le_rfl, .inr hbits,
          fun _ => h.ne_nil_of_bits (by omega)⟩
      · simp only [if_neg hbits]
        by_cases hfits : Fits 28 (codeBits (g ++ [c]))
        · obtain ⟨next, hnext, hrep, htmp, hext, hnextRest⟩ :=
            h.packChar_of_fits hrest hbits hfits tag
          have hwork : work next (g ++ [c]) < work st g := by
            unfold work
            rw [hnextRest, hrest, if_neg (by simp), List.length_cons]
            split_ifs <;> omega
          obtain ⟨st', g', hloop, hrep', hout, hle, hend, hne⟩ := ih hrep (by omega)
          refine ⟨st', g', ?_, hrep', ?_, by omega, hend, fun _ => hne (.inr (by simp))⟩
          · rw [hnext, Outcome.done_bind, hloop]
          · rw [hout]
            unfold output
            rw [htmp, hext, hnextRest, hrest, groupsFrom, if_pos hfits]
        · have hg : g ≠ [] := by
            rintro rfl
            exact hfits (fits_single (h.lettersRest c (hrest ▸ List.mem_cons_self)))
          have hwork : work (finishPack tag st) [] < work st g := by
            unfold work
            rw [if_neg hg]
            exact Nat.lt_succ_self _
          obtain ⟨st', g', hloop, hrep', hout, hle, hend, hne⟩ :=
            ih (h.finishPack tag) (by omega)
          refine ⟨st', g', ?_, hrep', ?_, by omega, hend, fun _ => hne (.inl ?_)⟩
          · rw [h.packChar_of_not_fits hrest hfits, Outcome.done_bind, hloop]
          · rw [hout, h.output_finishPack htag (h.groupsFrom_of_not_fits hrest hfits)]
          · exact hrest ▸ List.cons_ne_nil c rest

theorem wordLoop_spec {tag : ℕ} (htag : tag < 16) {fuel : ℕ} {st : PackState}
    (h : Represents st []) (hfuel : work st [] + 1 < fuel) :
    ∃ st', wordLoop tag fuel st = .done st' ∧ st'.tmp = output tag st [] := by
  induction fuel generalizing st with
  | zero => omega
  | succ fuel ih =>
    unfold wordLoop
    by_cases hrest : st.rest = []
    · refine ⟨st, if_pos hrest, ?_⟩
      unfold output
      rw [hrest]
      simp [groupsFrom, groupCells]
    · have hpos : 1 ≤ st.rest.length := List.length_pos_iff.mpr hrest
      obtain ⟨mid, g, hloop, hrep, hout, hle, hend, hne⟩ :=
        packLoop_spec htag h (Nat.lt_of_succ_lt_succ hfuel)
      have hg := hne (.inl hrest)
      have hgroups : groupsFrom g mid.rest = g :: groupsFrom [] mid.rest := by
        cases hmid : mid.rest with
        | nil => simp [groupsFrom, hg]
        | cons c rest =>
          have hfull : 28 - (codeBits g).length = 0 := by
            rw [← hrep.bits]
            exact hend.resolve_left (by simp [hmid])
          rw [← hmid]
          exact hrep.groupsFrom_of_not_fits hmid
            (not_fits_snoc_of_full (hrep.lettersRest c (hmid ▸ List.mem_cons_self)) hfull)
      have hwork : work (finishPack tag mid) [] < work mid g := by
        unfold work
        rw [if_neg hg]
        exact Nat.lt_succ_self _
      obtain ⟨st', hword, htmp⟩ := ih (hrep.finishPack tag) (by omega)
      refine ⟨st', ?_, ?_⟩
      · rw [if_neg hrest, hloop, Outcome.done_bind, if_pos (hrep.packed_ne_zero hg), hword]
      · rw [htmp, hrep.output_finishPack htag hgroups, hout]

/-- With enough fuel, the loops end with the cells of the name. -/
theorem packWord_eq {tag : ℕ} (htag : tag < 16) {w : List Char} (hw : ∀ c ∈ w, c ∈ code.tail)
    {fuel : ℕ} (hfuel : 2 * w.length + 1 < fuel) :
    packWord fuel tag w = .done (wordCells tag w) := by
  have hrep : Represents ⟨0, 28, false, [], w⟩ [] :=
    ⟨rfl, rfl, fits_of_length_le (Nat.zero_le _), by simp, hw⟩
  obtain ⟨st', hword, htmp⟩ := wordLoop_spec htag hrep hfuel
  unfold packWord
  rw [hword, Outcome.done_bind, htmp]
  rfl

end Einherjar.Colorforth
