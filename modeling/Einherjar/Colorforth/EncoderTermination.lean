import Einherjar.Colorforth.CellTexts
import Einherjar.Colorforth.WordCodec

/-! On which texts the loops of `word_to_long_array` come to an end: the encoder does not finish a
cell that is full of spaces. -/
namespace Einherjar.Colorforth
open Einherjar.Lib

/-- What the encoder puts into a cell when the character `c` comes behind it: as much as there is
room for, but not spaces that fill the cell. -/
structure TakesCell (g : List Char) (c : Char) : Prop extends BegunCell g where
  nonempty : g ≠ []
  full : Full g [c]
  finished : ¬ (28 ≤ (codeBits g).length ∧ Blank g)

/-- At the beginning of a cell, the text has seven spaces, which are 28 zero bits, and goes on. -/
inductive SpacesFillCell : List Char → Prop
  | here (c : Char) (w : List Char) : SpacesFillCell (List.replicate 7 ' ' ++ c :: w)
  | next {g : List Char} {c : Char} {w : List Char} (cell : TakesCell g c)
      (rest : SpacesFillCell (c :: w)) : SpacesFillCell (g ++ c :: w)

section texts

variable {g w : List Char}

theorem BegunCell.nil : BegunCell [] := ⟨by simp, fits_of_length_le (Nat.zero_le _), by decide⟩

theorem BegunCell.snoc {c : Char} (h : BegunCell g) (hc : c ∈ code)
    (hjoin : (codeBits g).length < 28 ∧ Fits 28 (codeBits (g ++ [c]))) : BegunCell (g ++ [c]) where
  letters x hx := by
    rcases List.mem_append.mp hx with hx | hx
    · exact h.letters x hx
    · rwa [List.mem_singleton.mp hx]
  fits := hjoin.2
  room := by
    rw [List.dropLast_concat]
    exact hjoin.1

theorem begunCell_single {c : Char} (hc : c ∈ code) : BegunCell [c] :=
  BegunCell.nil.snoc hc ⟨by decide, fits_single_code hc⟩

/-- A cell full of spaces has seven. -/
theorem BegunCell.eq_spaces (h : BegunCell g) (hfull : 28 ≤ (codeBits g).length) (hg : Blank g) :
    g = List.replicate 7 ' ' := by
  have hspaces : g = List.replicate g.length ' ' := List.eq_replicate_of_mem hg
  have hroom := h.room
  rw [hspaces, codeBits_spaces] at hfull
  rw [hspaces, List.dropLast_replicate, codeBits_spaces] at hroom
  rw [hspaces, show g.length = 7 by omega]

theorem begunCell_spaces : BegunCell (List.replicate 7 ' ') := ⟨by decide, by decide, by decide⟩

theorem cutCells_spins (c : Char) (w : List Char) :
    cutCells [] (List.replicate 7 ' ' ++ c :: w) = .outOfFuel := by
  refine (cutCells_begun (g := []) (t := List.replicate 7 ' ') begunCell_spaces (c :: w)).trans ?_
  rw [List.nil_append, cutCells, if_pos (by decide)]

/-- From a cell that is taken, the encoder goes on with the next one. -/
theorem TakesCell.cutCells {c : Char} (h : TakesCell g c) (hc : c ∈ code) (w : List Char) :
    Colorforth.cutCells [] (g ++ c :: w) =
      (Colorforth.cutCells [] (c :: w)).bind fun gs => .done (g :: gs) := by
  rw [cutCells_begun (g := []) h.toBegunCell, List.nil_append, Colorforth.cutCells,
    if_neg h.finished, if_neg (not_not.mpr hc), if_neg (h.full c rfl), cutCells_nil_cons,
    if_neg (not_not.mpr hc)]

theorem cutCells_of_spacesFillCell (h : SpacesFillCell w) (hw : ∀ c ∈ w, c ∈ code) :
    cutCells [] w = .outOfFuel := by
  induction h with
  | here c w => exact cutCells_spins c w
  | next cell rest ih =>
    rw [cell.cutCells (hw _ (by simp)), ih fun x hx => hw x (List.mem_append_right _ hx)]
    rfl

/-- The induction is on the text behind the cell that has been begun. -/
theorem spacesFillCell_of_cutCells (h : BegunCell g) (hg : g ≠ []) (hw : ∀ c ∈ w, c ∈ code)
    (hspins : cutCells g w = .outOfFuel) : SpacesFillCell (g ++ w) := by
  induction w generalizing g with
  | nil => cases hspins
  | cons c w ih =>
    have hc := hw c List.mem_cons_self
    have hrest : ∀ x ∈ w, x ∈ code := fun x hx => hw x (List.mem_cons_of_mem _ hx)
    rw [cutCells, if_neg (not_not.mpr hc)] at hspins
    split_ifs at hspins with hspaces hjoin
    · rw [h.eq_spaces hspaces.1 hspaces.2]
      exact .here c w
    · rw [← List.singleton_append, ← List.append_assoc]
      exact ih (h.snoc hc hjoin) (by simp) hrest hspins
    · have hnext : cutCells [c] w = .outOfFuel := by
        cases hcut : cutCells [c] w with
        | done gs => rw [hcut] at hspins; cases hspins
        | stopped => rw [hcut] at hspins; cases hspins
        | outOfFuel => rfl
      refine .next ⟨h, hg, ?_, hspaces⟩ (ih (begunCell_single hc) (by simp) hrest hnext)
      rintro x ⟨⟩
      exact hjoin

theorem cutCells_ne_stopped (hw : ∀ c ∈ w, c ∈ code) : cutCells g w ≠ .stopped := by
  induction w generalizing g with
  | nil => simp [cutCells]
  | cons c w ih =>
    have hrest : ∀ x ∈ w, x ∈ code := fun x hx => hw x (List.mem_cons_of_mem _ hx)
    rw [cutCells, if_neg (not_not.mpr (hw c List.mem_cons_self))]
    split_ifs
    · simp
    · exact ih hrest
    · intro hstopped
      cases hcut : cutCells [c] w with
      | done gs => rw [hcut] at hstopped; cases hstopped
      | stopped => exact ih hrest hcut
      | outOfFuel => rw [hcut] at hstopped; cases hstopped

theorem cutCells_done_iff (hw : w ≠ []) (hcode : ∀ c ∈ w, c ∈ code) :
    (∃ gs, cutCells [] w = .done gs) ↔ ¬ SpacesFillCell w := by
  constructor
  · rintro ⟨gs, hgs⟩ hspaces
    rw [cutCells_of_spacesFillCell hspaces hcode] at hgs
    cases hgs
  · intro hspaces
    cases hcut : cutCells [] w with
    | done gs => exact ⟨gs, rfl⟩
    | stopped => exact absurd hcut (cutCells_ne_stopped hcode)
    | outOfFuel =>
      obtain ⟨c, v, rfl⟩ := List.exists_cons_of_ne_nil hw
      have hc := hcode c List.mem_cons_self
      rw [cutCells_nil_cons, if_neg (not_not.mpr hc)] at hcut
      exact absurd (spacesFillCell_of_cutCells (begunCell_single hc) (by simp)
        (fun x hx => hcode x (List.mem_cons_of_mem _ hx)) hcut) hspaces

end texts

section functions

variable {f : BlockFunction} {inVariable : Bool} {w : List Char}

theorem wordToLongArray_eq_packWord (hf : PacksWord f inVariable) (fuel : ℕ) :
    wordToLongArray fuel inVariable f w =
      (packWord fuel (getTagsForFunction f) w).bind fun cells => .done (cells, inVariable) := by
  unfold wordToLongArray
  simp only [if_neg hf.long, if_neg hf.short, if_neg hf.value]

theorem wordToLongArray_done_iff_cut (hf : PacksWord f inVariable) :
    (∃ fuel cells, wordToLongArray fuel inVariable f w = .done (cells, inVariable)) ↔
      ∃ gs, cutCells [] w = .done gs := by
  have hlimit := limit_packWord hf.tag_lt w
  have hmono := packWord_mono (getTagsForFunction f) w
  constructor
  · rintro ⟨fuel, cells, hcells⟩
    rw [wordToLongArray_eq_packWord hf] at hcells
    obtain ⟨cells', hpack, -⟩ := Outcome.bind_eq_done hcells
    rw [(Outcome.limit_eq_done_iff hmono).mpr ⟨fuel, hpack⟩] at hlimit
    obtain ⟨gs, hgs, -⟩ := Outcome.bind_eq_done hlimit.symm
    exact ⟨gs, hgs⟩
  · rintro ⟨gs, hgs⟩
    rw [hgs, Outcome.done_bind] at hlimit
    obtain ⟨fuel, hfuel⟩ := (Outcome.limit_eq_done_iff hmono).mp hlimit
    refine ⟨fuel, groupCells (getTagsForFunction f) false gs, ?_⟩
    rw [wordToLongArray_eq_packWord hf, hfuel, Outcome.done_bind]

end functions

/-- The loops come to an end for exactly the texts in which spaces do not fill a cell before more
text. -/
theorem wordToLongArray_terminates_iff (f : BlockFunction) (inVariable : Bool) (w : List Char)
    (hf : PacksWord f inVariable) (hw : w ≠ []) (hcode : ∀ c ∈ w, c ∈ code) :
    (∃ fuel cells, wordToLongArray fuel inVariable f w = .done (cells, inVariable)) ↔
      ¬ SpacesFillCell w :=
  (wordToLongArray_done_iff_cut hf).trans (cutCells_done_iff hw hcode)

theorem packsWord_text : PacksWord .text false := ⟨by decide, by decide, by decide⟩

theorem wordToLongArray_terminates_iff_comment :
    (∃ fuel cells, wordToLongArray fuel false .text "a comment".toList = .done (cells, false)) ↔
      ¬ SpacesFillCell "a comment".toList :=
  wordToLongArray_terminates_iff .text false _ packsWord_text (by decide) (by decide)

/-- A comment of eight spaces. -/
theorem eight_spaces_spin : ¬ ∀ (f : BlockFunction) (inVariable : Bool) (w : List Char),
    PacksWord f inVariable → w ≠ [] → (∀ c ∈ w, c ∈ code) →
      ∃ fuel cells, wordToLongArray fuel inVariable f w = .done (cells, inVariable) := by
  intro h
  obtain ⟨gs, hgs⟩ := (wordToLongArray_done_iff_cut packsWord_text).mp
    (h .text false (List.replicate 8 ' ') packsWord_text (by decide) (by decide))
  have hspins : cutCells [] (List.replicate 8 ' ') = .outOfFuel := cutCells_spins ' ' []
  rw [hspins] at hgs
  cases hgs

end Einherjar.Colorforth
