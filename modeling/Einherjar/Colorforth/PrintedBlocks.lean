import Einherjar.Colorforth.PrintedTokens
import Mathlib.Data.List.Forall2

/-! The text that `totext` prints for an image. -/
namespace Einherjar.Colorforth
open Einherjar.Lib

/-- The complete blocks of an image. -/
def imageBlocks (image : List Cell) : List (List Cell) :=
  (List.range (image.length / 256)).map (chunk 256 image)

def header (number : ℕ) : List Char :=
  "\x7bblock ".toList ++ numeral 10 number ++ "\x7d\n".toList

/-- The text of blocks, from what is printed for each of them after its header. -/
def imageText : ℕ → List (List Char) → List Char
  | _, [] => []
  | number, body :: bodies => header number ++ (body ++ imageText (number + 1) bodies)

/-- A block in which a word is not zero. -/
def Filled (cells : List Cell) : Prop := ∃ word ∈ cells, word ≠ 0

theorem filled_iff {cells : List Cell} : (¬ ∀ word ∈ cells, word = 0) ↔ Filled cells := by
  simp [Filled]

instance (cells : List Cell) : Decidable (Filled cells) :=
  have : Decidable (∀ word ∈ cells, word = 0) := List.decidableBAll (fun word => word = 0) cells
  decidable_of_iff _ filled_iff

namespace ParseCFBlockToText

/-- What is printed for a block after its header. -/
inductive Shown : List Cell → List Char → Prop
  | zeros {cells : List Cell} (zeros : ¬ Filled cells) : Shown cells []
  | words {cells : List Cell} {lead : List Char} {toks : List Token} (filled : Filled cells)
      (prints : Prints cells lead toks) :
      Shown cells (lead ++ separated (startsInside cells) toks ++ ")\n".toList)

/-- Before the end of the first block that is not zero, letters have been printed. -/
def Heard (hasOutput : Bool) (blocks : List (List Cell)) : Prop :=
  ∀ cells ∈ blocks.find? fun cells => Filled cells, (hasOutput || printsText cells) = true

section block

variable {cells : List Cell} {s : ParseCFBlockToText}

theorem not_filled_iff : ¬ Filled cells ↔ ∀ word ∈ cells, word = 0 :=
  not_iff_comm.mp filled_iff

theorem printsText_zeros (h : ¬ Filled cells) : printsText cells = false := by
  rw [not_filled_iff] at h
  induction cells with
  | nil => rfl
  | cons word rest ih =>
    obtain ⟨rfl, hrest⟩ := List.forall_mem_cons.mp h
    rw [printsText_name (by decide), ih hrest]
    decide

theorem printBlock_mono (number : ℕ) (cells : List Cell) (s : ParseCFBlockToText) :
    Monotone fun fuel => printBlock fuel number cells s := by
  intro m n hmn
  simp only [printBlock]
  split_ifs
  · exact le_rfl
  · exact Outcome.bind_mono (printWords_mono _ _ _ hmn) fun _ => le_rfl

/-- What a block adds to the text. -/
theorem printBlock_iff (hlen : 2 ≤ cells.length) (number : ℕ) (t : ParseCFBlockToText) :
    (∃ fuel, printBlock fuel number cells s = .done t) ↔ ∃ body, Shown cells body ∧
      (Filled cells → (s.hasOutput || printsText cells) = true) ∧
        t = ⟨s.out ++ (header number ++ body), s.hasOutput || printsText cells⟩ := by
  have houtput : (s.puts (header number)).hasOutput = s.hasOutput := rfl
  have hheader : s.puts ("\x7bblock ".toList ++ numeral 10 number ++ "\x7d\n".toList) =
      s.puts (header number) := rfl
  by_cases hfilled : Filled cells
  · have hzeros : ¬ ∀ word ∈ cells, word = 0 := fun h => not_filled_iff.mpr h hfilled
    simp only [printBlock, if_neg hzeros, hheader]
    constructor
    · rintro ⟨fuel, h⟩
      obtain ⟨r, hr, ht⟩ := Outcome.bind_eq_done h
      obtain ⟨lead, toks, hprints⟩ := exists_prints false _ hr
      obtain ⟨flag, hflag, heq⟩ := printed_eq false (s.puts (header number)) hprints
      have hsame := (Outcome.limit_eq_done_iff (printWords_mono cells false _)).mpr ⟨fuel, hr⟩
      obtain rfl := Outcome.done.inj (hsame.symm.trans heq)
      simp only [hflag (.inr hlen), if_true, houtput] at ht
      refine ⟨_, .words hfilled hprints, ?_⟩
      by_cases hheard : (s.hasOutput || printsText cells) = true
      · rw [if_pos hheard] at ht
        obtain rfl := Outcome.done.inj ht
        exact ⟨fun _ => hheard, by simp [puts]⟩
      · rw [if_neg hheard] at ht
        cases ht
    · rintro ⟨body, hshown, hheard, rfl⟩
      cases hshown with
      | zeros hzero => exact absurd hfilled hzero
      | words _ hprints =>
        obtain ⟨flag, hflag, heq⟩ := printed_eq false (s.puts (header number)) hprints
        obtain ⟨fuel, hfuel⟩ := (Outcome.limit_eq_done_iff (printWords_mono cells false _)).mp heq
        refine ⟨fuel, ?_⟩
        simp only [hfuel, Outcome.done_bind, hflag (.inr hlen), if_true, houtput]
        rw [if_pos (hheard hfilled)]
        simp [puts]
  · simp only [printBlock, if_pos (not_filled_iff.mp hfilled), hheader, printsText_zeros hfilled,
      Bool.or_false]
    constructor
    · rintro ⟨fuel, h⟩
      obtain rfl := Outcome.done.inj h
      exact ⟨[], .zeros hfilled, fun h => absurd h hfilled, by simp [puts]⟩
    · rintro ⟨body, hshown, -, rfl⟩
      cases hshown with
      | zeros _ => exact ⟨0, by simp [puts]⟩
      | words hfill _ => exact absurd hfill hfilled

end block

section image

variable {image : List Cell}

theorem heard_cons {hasOutput : Bool} {cells : List Cell} {blocks : List (List Cell)} :
    Heard hasOutput (cells :: blocks) ↔ (Filled cells → (hasOutput || printsText cells) = true) ∧
      Heard (hasOutput || printsText cells) blocks := by
  unfold Heard
  by_cases hfilled : Filled cells
  · rw [List.find?_cons_of_pos (by simpa using hfilled)]
    constructor
    · intro h
      have hcells := h cells rfl
      exact ⟨fun _ => hcells, fun _ _ => by rw [hcells, Bool.true_or]⟩
    · rintro ⟨h, -⟩ _ ⟨⟩
      exact h hfilled
  · rw [List.find?_cons_of_neg (by simpa using hfilled), printsText_zeros hfilled, Bool.or_false]
    exact ⟨fun h => ⟨fun hfill => absurd hfill hfilled, h⟩, And.right⟩

/-- The blocks from one with the number `number` on, one after another. -/
theorem printBlocks_iff {number count : ℕ} (hlen : 256 * (number + count) ≤ image.length)
    (s t : ParseCFBlockToText) :
    (∃ fuel, Outcome.forEach (fun block => printBlock fuel block (chunk 256 image block))
      (List.range' number count) s = .done t) ↔
        ∃ bodies, List.Forall₂ Shown ((List.range' number count).map (chunk 256 image)) bodies ∧
          Heard s.hasOutput ((List.range' number count).map (chunk 256 image)) ∧
            t = ⟨s.out ++ imageText number bodies, s.hasOutput ||
              ((List.range' number count).map (chunk 256 image)).any printsText⟩ := by
  induction count generalizing number s with
  | zero =>
    constructor
    · rintro ⟨fuel, h⟩
      obtain rfl := Outcome.done.inj h
      exact ⟨[], .nil, by simp [Heard], by simp [imageText]⟩
    · rintro ⟨bodies, hshown, -, rfl⟩
      cases hshown
      exact ⟨0, by simp [Outcome.forEach, imageText]⟩
  | succ count ih =>
    have hchunk : (chunk 256 image number).length = 256 := length_chunk (by omega)
    have hmono := fun number => printBlock_mono number (chunk 256 image number)
    rw [List.range'_succ, Outcome.exists_forEach_cons hmono, List.map_cons]
    constructor
    · rintro ⟨u, hu, hrest⟩
      obtain ⟨body, hbody, hheard, rfl⟩ := (printBlock_iff (by omega) number u).mp hu
      obtain ⟨bodies, hbodies, hheards, rfl⟩ := (ih (by omega) _).mp hrest
      exact ⟨body :: bodies, .cons hbody hbodies, heard_cons.mpr ⟨hheard, hheards⟩,
        by simp [imageText, Bool.or_assoc]⟩
    · rintro ⟨bodies, hbodies, hheard, rfl⟩
      obtain ⟨hheard, hheards⟩ := heard_cons.mp hheard
      cases hbodies with
      | @cons _ body _ bodies hbody hbodies =>
        refine ⟨_, (printBlock_iff (by omega) number _).mpr ⟨body, hbody, hheard, rfl⟩,
          (ih (by omega) _).mpr ⟨bodies, hbodies, hheards, ?_⟩⟩
        simp [imageText, Bool.or_assoc]

end image

end ParseCFBlockToText

/-- The images of complete blocks for which `totext` returns, and their texts. -/
theorem totext_iff {image : List Cell} (text : List Char) :
    (∃ fuel, totext fuel image = .done text) ↔ ∃ bodies,
      List.Forall₂ ParseCFBlockToText.Shown (imageBlocks image) bodies ∧
        ParseCFBlockToText.Heard false (imageBlocks image) ∧ text = imageText 0 bodies := by
  have hlen : 256 * (0 + image.length / 256) ≤ image.length := by omega
  have hblocks : (List.range' 0 (image.length / 256)).map (chunk 256 image) =
      imageBlocks image := by
    rw [← List.range_eq_range', imageBlocks]
  have hiff := fun t => ParseCFBlockToText.printBlocks_iff hlen .init t
  rw [hblocks] at hiff
  constructor
  · rintro ⟨fuel, h⟩
    obtain ⟨t, ht, htext⟩ := Outcome.bind_eq_done h
    rw [ParseCFBlockToText.parseInput, List.range_eq_range'] at ht
    obtain ⟨bodies, hshown, hheard, rfl⟩ := (hiff t).mp ⟨fuel, ht⟩
    exact ⟨bodies, hshown, hheard, (Outcome.done.inj htext).symm⟩
  · rintro ⟨bodies, hshown, hheard, rfl⟩
    obtain ⟨fuel, h⟩ := (hiff _).mpr ⟨bodies, hshown, hheard, rfl⟩
    refine ⟨fuel, ?_⟩
    rw [totext, ParseCFBlockToText.parseInput, List.range_eq_range', h]
    rfl

end Einherjar.Colorforth
