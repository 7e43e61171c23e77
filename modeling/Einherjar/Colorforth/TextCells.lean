import Einherjar.Colorforth.CellPacking

/-! What the encoder makes of any text: the characters of each cell, the texts that it rejects,
and those on which its loops do not end. -/
namespace Einherjar.Colorforth
open Einherjar.Lib

/-- The division of a text into the characters of its cells; `g` is the cell begun. A cell full
of spaces is not finished, and the loops turn round in it. Spaces at the end of the text that
are alone in a cell are lost. -/
def cutCells (g : List Char) : List Char → Outcome (List (List Char))
  | [] => .done (if Blank g then [] else [g])
  | c :: rest =>
    if 28 ≤ (codeBits g).length ∧ Blank g then .outOfFuel
    else if c ∉ code then .stopped
    else if (codeBits g).length < 28 ∧ Fits 28 (codeBits (g ++ [c])) then cutCells (g ++ [c]) rest
    else (cutCells [c] rest).bind fun gs => .done (g :: gs)

section loops

theorem packLoop_mono (tag : ℕ) (st : PackState) : Monotone fun n => packLoop tag n st := by
  apply monotone_nat_of_le_succ
  intro n
  induction n generalizing st with
  | zero => exact Outcome.outOfFuel_le _
  | succ n ih =>
    rw [packLoop, packLoop]
    cases st.rest with
    | nil => exact le_rfl
    | cons c rest =>
      by_cases hbits : st.bits = 0
      · simp only [if_pos hbits, le_rfl]
      · simp only [if_neg hbits]
        exact Outcome.bind_mono le_rfl ih

theorem wordLoop_mono (tag : ℕ) (st : PackState) : Monotone fun n => wordLoop tag n st := by
  apply monotone_nat_of_le_succ
  intro n
  induction n generalizing st with
  | zero => exact Outcome.outOfFuel_le _
  | succ n ih =>
    rw [wordLoop, wordLoop]
    by_cases hrest : st.rest = []
    · rw [if_pos hrest, if_pos hrest]
    · rw [if_neg hrest, if_neg hrest]
      exact Outcome.bind_mono (packLoop_mono tag st (Nat.le_succ n)) fun st => ih _

theorem packWord_mono (tag : ℕ) (w : List Char) : Monotone fun n => packWord n tag w :=
  fun _ _ hab => Outcome.bind_mono (wordLoop_mono tag _ hab) fun _ => le_rfl

/-- What the inner loop comes to. -/
noncomputable def packed (tag : ℕ) (st : PackState) : Outcome PackState :=
  Outcome.limit fun n => packLoop tag n st

/-- The end of an iteration of the outer loop. -/
def afterPack (tag : ℕ) (st : PackState) : PackState :=
  if st.bits ≠ 28 ∧ st.packed ≠ 0 then finishPack tag st else st

/-- What the outer loop comes to. -/
noncomputable def worded (tag : ℕ) (st : PackState) : Outcome PackState :=
  Outcome.limit fun n => wordLoop tag n st

theorem packed_eq (tag : ℕ) (st : PackState) : packed tag st =
    match st.rest with
    | [] => .done st
    | c :: rest =>
      if st.bits = 0 then .done st else (packChar tag st c rest).bind (packed tag) := by
  unfold packed
  rw [← Outcome.limit_succ (packLoop_mono tag st)]
  simp only [packLoop]
  cases st.rest with
  | nil => exact Outcome.limit_const _
  | cons c rest =>
    by_cases hbits : st.bits = 0
    · simp only [if_pos hbits, Outcome.limit_const]
    · simp only [if_neg hbits]
      rw [Outcome.limit_bind (fun _ _ _ => le_rfl) (packLoop_mono tag), Outcome.limit_const]

theorem worded_eq (tag : ℕ) (st : PackState) : worded tag st =
    if st.rest = [] then .done st
    else (packed tag st).bind fun st => worded tag (afterPack tag st) := by
  unfold worded packed
  rw [← Outcome.limit_succ (wordLoop_mono tag st)]
  simp only [wordLoop]
  by_cases hrest : st.rest = []
  · simp only [if_pos hrest, Outcome.limit_const]
  · simp only [if_neg hrest]
    exact Outcome.limit_bind (packLoop_mono tag st) fun st => wordLoop_mono tag (afterPack tag st)

/-- In a cell full of spaces the loops turn round. -/
theorem worded_spins {tag : ℕ} {st : PackState} (hrest : st.rest ≠ []) (hbits : st.bits = 0)
    (hpacked : st.packed = 0) : worded tag st = .outOfFuel := by
  rw [worded, Outcome.limit_eq_outOfFuel_iff]
  intro n
  induction n with
  | zero => rfl
  | succ n ih =>
    rw [wordLoop, if_neg hrest]
    cases n with
    | zero => rfl
    | succ n =>
      obtain ⟨c, rest, hcons⟩ := List.exists_cons_of_ne_nil hrest
      have hloop : packLoop tag (n + 1) st = .done st := by
        rw [packLoop, hcons]
        exact if_pos hbits
      rw [hloop, Outcome.done_bind, if_neg (by simp [hpacked]), ih]

theorem codeBits_length_pos {g : List Char} (hg : ∀ c ∈ g, c ∈ code) (hne : g ≠ []) :
    0 < (codeBits g).length := by
  obtain ⟨c, w, rfl⟩ := List.exists_cons_of_ne_nil hne
  have := codeLength_bounds (idxOf_code (hg c List.mem_cons_self))
  rw [codeBits_cons, List.length_append, length_bits]
  omega

namespace Packs

variable {st : PackState} {g : List Char} {tag : ℕ}

theorem packed_eq_zero_iff (h : Packs st g) (hg : ∀ c ∈ g, c ∈ code) :
    st.packed = 0 ↔ Blank g := by
  rw [h.packed, h.fits_used.field_eq_zero_iff, codeBits_zero_iff hg]

theorem afterPack_of_not_blank (h : Packs st g) (hg : ∀ c ∈ g, c ∈ code) (hblank : ¬ Blank g) :
    afterPack tag st = Colorforth.finishPack tag st := by
  have hne : g ≠ [] := by
    rintro rfl
    exact hblank (by simp [Blank])
  have hpos := codeBits_length_pos hg hne
  have hb := h.bits
  exact if_pos ⟨by omega, fun h0 => hblank ((h.packed_eq_zero_iff hg).mp h0)⟩

theorem afterPack_of_blank (h : Packs st g) (hg : ∀ c ∈ g, c ∈ code) (hblank : Blank g) :
    afterPack tag st = st :=
  if_neg fun hst => hst.2 ((h.packed_eq_zero_iff hg).mpr hblank)

theorem bits_eq_zero_iff (h : Packs st g) : st.bits = 0 ↔ 28 ≤ (codeBits g).length := by
  rw [h.bits]
  omega

end Packs

theorem fits_single_code {c : Char} (hc : c ∈ code) : Fits 28 (codeBits [c]) := by
  apply fits_of_length_le
  have := codeLength_bounds (idxOf_code hc)
  rw [codeBits_cons, codeBits_nil, List.append_nil, length_bits]
  omega

/-- The first character of a cell always fits. -/
theorem cutCells_nil_cons (c : Char) (rest : List Char) :
    cutCells [] (c :: rest) = if c ∉ code then .stopped else cutCells [c] rest := by
  rw [cutCells, if_neg (by simp)]
  by_cases hc : c ∈ code
  · rw [if_neg (not_not.mpr hc), if_neg (not_not.mpr hc), List.nil_append,
      if_pos ⟨by simp, fits_single_code hc⟩]
  · rw [if_pos hc, if_pos hc]

/-- The cells that the loops come to, from the inner one on. -/
noncomputable def packedCells (tag : ℕ) (st : PackState) : Outcome (List Cell) :=
  ((packed tag st).bind fun st => worded tag (afterPack tag st)).bind fun st => .done st.tmp

section cells

variable {tag : ℕ} {st : PackState} {c : Char} {rest : List Char}

theorem packedCells_stop (hstop : st.rest = [] ∨ st.bits = 0) : packedCells tag st =
    (worded tag (afterPack tag st)).bind fun st => .done st.tmp := by
  have hdone : packed tag st = .done st := by
    rw [packed_eq]
    cases hrest : st.rest with
    | nil => rfl
    | cons c rest => exact if_pos (hstop.resolve_left (by simp [hrest]))
  rw [packedCells, hdone]
  rfl

theorem packedCells_char (hrest : st.rest = c :: rest) (hbits : st.bits ≠ 0) :
    packedCells tag st = (packChar tag st c rest).bind (packedCells tag) := by
  unfold packedCells
  rw [packed_eq, hrest]
  simp only [if_neg hbits, Outcome.bind_assoc]

theorem worded_tmp (hrest : st.rest ≠ []) :
    ((worded tag st).bind fun st => .done st.tmp) = packedCells tag st := by
  rw [worded_eq, if_neg hrest]
  rfl

end cells

/-- The loops make of the rest of the text, from the middle of a cell with the characters `g`,
the cells of its division. -/
def PacksRest (tag : ℕ) (st : PackState) (g : List Char) : Prop :=
  packedCells tag st = (cutCells g st.rest).bind fun gs =>
      .done (st.tmp ++ groupCells tag st.extensionMode gs)

namespace Packs

variable {st : PackState} {g rest : List Char} {c : Char} {tag : ℕ}

theorem finishPack_tmp (h : Packs st g) (htag : tag < 16) :
    (Colorforth.finishPack tag st).tmp =
      st.tmp ++ [nameCell g (if st.extensionMode then 0 else tag)] := by
  have hcell := h.packed_cell (show (if st.extensionMode then 0 else tag) < 16 by
    split_ifs <;> omega)
  rw [← hcell]
  rfl

/-- The cell is finished, and the text goes on in the next one. -/
theorem next (h : Packs st g) (htag : tag < 16) (hrest : st.rest = c :: rest)
    (hspec : PacksRest tag (Colorforth.finishPack tag st) []) :
    packedCells tag (Colorforth.finishPack tag st) =
      if c ∉ code then .stopped else (cutCells [c] rest).bind fun gs =>
        .done (st.tmp ++ groupCells tag st.extensionMode (g :: gs)) := by
  have hrest' : (Colorforth.finishPack tag st).rest = c :: rest := hrest
  have hext : (Colorforth.finishPack tag st).extensionMode = true := rfl
  unfold PacksRest at hspec
  rw [hspec, hrest', cutCells_nil_cons, h.finishPack_tmp htag, hext]
  by_cases hc : c ∈ code
  · simp only [if_neg (not_not.mpr hc), groupCells, List.append_assoc, List.singleton_append]
  · rw [if_pos hc, if_pos hc]
    rfl

theorem packsRest_nil (h : Packs st g) (htag : tag < 16) (hg : ∀ c ∈ g, c ∈ code)
    (hrest : st.rest = []) : PacksRest tag st g := by
  unfold PacksRest
  rw [packedCells_stop (.inl hrest), hrest, cutCells]
  by_cases hblank : Blank g
  · rw [h.afterPack_of_blank hg hblank, worded_eq, if_pos hrest, if_pos hblank]
    simp [groupCells]
  · have hrest' : (Colorforth.finishPack tag st).rest = [] := hrest
    rw [h.afterPack_of_not_blank hg hblank, worded_eq, if_pos hrest', if_neg hblank,
      Outcome.done_bind, h.finishPack_tmp htag]
    rfl

/-- No bit of the cell is left: it is finished, unless the loops turn round in it. -/
theorem packsRest_full (h : Packs st g) (htag : tag < 16) (hg : ∀ c ∈ g, c ∈ code)
    (hrest : st.rest = c :: rest) (hbits : st.bits = 0)
    (hspec : PacksRest tag (Colorforth.finishPack tag st) []) : PacksRest tag st g := by
  have hfull := h.bits_eq_zero_iff.mp hbits
  have hne : st.rest ≠ [] := hrest ▸ List.cons_ne_nil c rest
  unfold PacksRest
  rw [packedCells_stop (.inr hbits), hrest, cutCells]
  simp only [hfull, true_and, Nat.not_lt.mpr hfull, false_and, if_false]
  by_cases hblank : Blank g
  · rw [h.afterPack_of_blank hg hblank, if_pos hblank,
      worded_spins hne hbits ((h.packed_eq_zero_iff hg).mpr hblank)]
    rfl
  · have hne' : (Colorforth.finishPack tag st).rest ≠ [] := hne
    rw [h.afterPack_of_not_blank hg hblank, if_neg hblank, worded_tmp hne',
      h.next htag hrest hspec]
    by_cases hc : c ∈ code
    · rw [if_neg (not_not.mpr hc), if_neg (not_not.mpr hc), Outcome.bind_assoc]
      rfl
    · rw [if_pos hc, if_pos hc]
      rfl

/-- Bits of the cell are left: the next character goes into it, or the cell is finished. -/
theorem packsRest_room (h : Packs st g) (htag : tag < 16) (hrest : st.rest = c :: rest)
    (hbits : st.bits ≠ 0) (hspec : g ≠ [] → PacksRest tag (Colorforth.finishPack tag st) [])
    (hinto : c ∈ code → ∀ st', Packs st' (g ++ [c]) → st'.rest = rest →
      PacksRest tag st' (g ++ [c])) : PacksRest tag st g := by
  have hroom : ¬ 28 ≤ (codeBits g).length := fun hlen => hbits (h.bits_eq_zero_iff.mpr hlen)
  unfold PacksRest
  rw [packedCells_char hrest hbits, hrest, cutCells]
  simp only [hroom, false_and, if_false, Nat.not_le.mp hroom, true_and]
  by_cases hc : c ∈ code
  · rw [if_neg (not_not.mpr hc)]
    by_cases hfits : Fits 28 (codeBits (g ++ [c]))
    · obtain ⟨st', hpack, hpacks, htmp, hext, hrest'⟩ :=
        h.packChar_of_fits hc hbits hfits tag rest
      have hspec' := hinto hc st' hpacks hrest'
      unfold PacksRest at hspec'
      rw [hpack, Outcome.done_bind, if_pos hfits, hspec', hrest', htmp, hext]
    · have hne : g ≠ [] := by
        rintro rfl
        exact hfits (fits_single_code hc)
      rw [h.packChar_of_not_fits hc hfits, Outcome.done_bind, if_neg hfits,
        h.next htag hrest (hspec hne), if_neg (not_not.mpr hc), Outcome.bind_assoc]
      rfl
  · rw [if_pos hc, packChar, huffmanForChar_eq_none hc]
    rfl

end Packs

theorem packed_spec {tag : ℕ} (htag : tag < 16) {st : PackState} {g : List Char}
    (h : Packs st g) (hg : ∀ c ∈ g, c ∈ code) : PacksRest tag st g := by
  induction hwork : 2 * st.rest.length + (if g = [] then 0 else 1)
    using Nat.strong_induction_on generalizing st g with
  | _ work ih =>
    -- a finished cell leaves the text as it is, and no character in the cell begun
    have hspec : g ≠ [] → PacksRest tag (finishPack tag st) [] := fun hne =>
      ih _ (by rw [← hwork, if_neg hne]; exact Nat.lt_succ_self _)
        (Packs.finishPack st tag) (by simp) rfl
    cases hrest : st.rest with
    | nil => exact h.packsRest_nil htag hg hrest
    | cons c rest =>
      by_cases hbits : st.bits = 0
      · have hne : g ≠ [] := by
          rintro rfl
          exact absurd (h.bits_eq_zero_iff.mp hbits) (by simp)
        exact h.packsRest_full htag hg hrest hbits (hspec hne)
      · refine h.packsRest_room htag hrest hbits hspec fun hc st' hpacks hrest' => ?_
        have hletters : ∀ x ∈ g ++ [c], x ∈ code := by
          intro x hx
          rcases List.mem_append.mp hx with hx | hx
          · exact hg x hx
          · rwa [List.mem_singleton.mp hx]
        have hless : 2 * st'.rest.length + (if g ++ [c] = [] then 0 else 1) < work := by
          rw [← hwork, hrest', hrest, if_neg (by simp), List.length_cons]
          omega
        exact ih _ hless hpacks hletters rfl

/-- What the encoder makes of a text. -/
theorem limit_packWord {tag : ℕ} (htag : tag < 16) (w : List Char) :
    (Outcome.limit fun fuel => packWord fuel tag w) =
      (cutCells [] w).bind fun gs => .done (groupCells tag false gs) := by
  have hpacks : Packs ⟨0, 28, false, [], w⟩ [] :=
    ⟨rfl, rfl, fits_of_length_le (Nat.zero_le _)⟩
  have hspec := packed_spec htag hpacks (by simp)
  have hlimit : (Outcome.limit fun fuel => packWord fuel tag w) =
      (worded tag ⟨0, 28, false, [], w⟩).bind fun st => .done st.tmp := by
    unfold packWord worded
    rw [Outcome.limit_bind (wordLoop_mono tag _) fun _ _ _ _ => le_rfl]
    simp only [Outcome.limit_const]
  rw [hlimit]
  by_cases hw : w = []
  · subst hw
    rw [worded_eq]
    rfl
  · rw [worded_tmp hw, hspec]
    rfl

end loops

end Einherjar.Colorforth
