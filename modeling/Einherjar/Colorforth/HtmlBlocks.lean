import Einherjar.Colorforth.BlockWalk
import Einherjar.Colorforth.HtmlExporter

/-! `cf2html.c` and the editor cut the blocks of an image into the same words. -/
namespace Einherjar.Colorforth
open Einherjar.Lib

/-- A word as a program processes it: the position of its cell, the cell, and the one after it when
it has been read for the word. -/
structure ShownWord where
  position : ℕ
  head : Cell
  payload : Option Cell

/-- The words that `display_block(n)` passes to `display_word`. -/
def displayedWords (image : BlockImage) (n : Cell) : List ShownWord :=
  (displayBlockPositions image n).map fun i =>
    ⟨i, image.cells i, if ownsPayload (image.cells i) then some (image.cells (i + 1)) else none⟩

/-- A word of two cells starts in the last cell of the block. -/
def LastStartsPair (image : BlockImage) (n : Cell) : Prop :=
  256 * n.toNat + 255 ∈ displayBlockPositions image n ∧
    ownsPayload (image.cells (256 * n.toNat + 255))

namespace Cf2html

/-- The cells of the image, on the standard input. -/
def imageInput (image : BlockImage) : List Cell :=
  (List.range (256 * image.totalBlocks)).map image.cells

/-- What has been printed, without the text. -/
inductive Mark where
  | header (b pos : BitVec 32) (t : Cell)
  | word (pos : BitVec 32) (t : Cell) (payload : Option Cell)

def Printed.mark : Printed → Option Mark
  | .text _ => none
  | .header _ b pos t => some (.header b pos t)
  | .word _ pos t payload => some (.word pos t payload)

/-- `pos` while `t` holds the cell at a position. -/
def posAt (i : ℕ) : BitVec 32 := BitVec.ofNat 32 (4 * (i + 1))

/-- The header of block `k`, printed while `t` holds cell `256 * k`. -/
def headerMark (image : BlockImage) (k : ℕ) : Mark :=
  .header (BitVec.ofNat 32 k) (posAt (256 * k)) (image.cells (256 * k))

def wordMark (x : ShownWord) : Mark := .word (posAt x.position) x.head x.payload

/-- The word at a position, with a payload only before the end of the block. -/
def exportedWord (image : BlockImage) (limit i : ℕ) : ShownWord :=
  ⟨i, image.cells i,
    if ownsPayload (image.cells i) ∧ i + 1 < limit then some (image.cells (i + 1)) else none⟩

/-- The words from the position `i` to the end of the block. -/
def wordsFrom (image : BlockImage) (limit i : ℕ) : List ShownWord :=
  (displayFrom image.cells limit i).map fun x => exportedWord image limit x.position

/-- The marks of block `k`. -/
def blockMarks (image : BlockImage) (k : ℕ) : List Mark :=
  headerMark image k :: (wordsFrom image (256 * k + 256) (256 * k)).map wordMark

/-- The input goes on with the cell at `i`. -/
structure Behind (image : BlockImage) (i : ℕ) (s : Exporter) : Prop where
  pos : s.pos = BitVec.ofNat 32 (4 * i)
  input : s.input = (List.range' i (256 * image.totalBlocks - i)).map image.cells

/-- `t` holds the cell at `i`. -/
structure AtCell (image : BlockImage) (i : ℕ) (s : Exporter) : Prop extends
    Behind image (i + 1) s where
  t : s.t = image.cells i

section reading

variable {image : BlockImage} {i : ℕ} {s : Exporter}

theorem Behind.input_eq_cons (h : Behind image i s) (hi : i < 256 * image.totalBlocks) :
    s.input = image.cells i ::
      (List.range' (i + 1) (256 * image.totalBlocks - (i + 1))).map image.cells := by
  rw [h.input, show 256 * image.totalBlocks - i = 256 * image.totalBlocks - (i + 1) + 1 by omega,
    List.range'_succ, List.map_cons]

theorem pos_add_four (i : ℕ) : BitVec.ofNat 32 (4 * i) + 4 = BitVec.ofNat 32 (4 * (i + 1)) := by
  rw [Nat.mul_add, BitVec.ofNat_add]
  rfl

/-- `fread` of the next word, and `pos += 4`. -/
theorem Behind.readWord (h : Behind image i s) (hi : i < 256 * image.totalBlocks) :
    s.readWord.2 = true ∧ AtCell image i { s.readWord.1 with pos := s.readWord.1.pos + 4 } ∧
      s.readWord.1.b = s.b := by
  have hinput := h.input_eq_cons hi
  unfold Exporter.readWord
  rw [hinput]
  exact ⟨rfl, ⟨⟨(congrArg (· + 4) h.pos).trans (pos_add_four i), rfl⟩, rfl⟩, rfl⟩

theorem Behind.readWord_ended (h : Behind image i s) (hi : 256 * image.totalBlocks ≤ i) :
    s.readWord = (s, false) := by
  have hinput := h.input
  rw [Nat.sub_eq_zero_of_le hi] at hinput
  unfold Exporter.readWord
  rw [hinput]
  rfl

theorem Behind.readNumber (h : Behind image i s) (hi : i < 256 * image.totalBlocks) :
    s.readNumber.n = image.cells i ∧ s.readNumber.t = s.t ∧ s.readNumber.b = s.b ∧
      Behind image (i + 1) { s.readNumber with pos := s.readNumber.pos + 4 } := by
  have hinput := h.input_eq_cons hi
  unfold Exporter.readNumber
  rw [hinput]
  exact ⟨rfl, rfl, rfl, (congrArg (· + 4) h.pos).trans (pos_add_four i), rfl⟩

end reading

section words

variable {image : BlockImage} {i w : ℕ} {s : Exporter}

/-- The word has a payload that is in the block. -/
def ReadsPayload (image : BlockImage) (i w : ℕ) : Prop := ownsPayload (image.cells i) ∧ w ≠ 0

instance (image : BlockImage) (i w : ℕ) : Decidable (ReadsPayload image i w) := by
  unfold ReadsPayload
  infer_instance

/-- What the `switch` reads for the word. -/
structure Switched (image : BlockImage) (i w : ℕ) (s : Exporter) (r : Switch) : Prop where
  payload : r.payload = if ReadsPayload image i w then some (image.cells (i + 1)) else none
  behind : Behind image (if ReadsPayload image i w then i + 2 else i + 1) r.state
  w : r.w = if ReadsPayload image i w then w - 1 else w
  b : r.state.b = s.b

theorem switched_of_not (h : AtCell image i s) (hreads : ¬ ReadsPayload image i w)
    (printed : List Char) : Switched image i w s ⟨printed, none, s, w⟩ := by
  constructor
  all_goals simp only [if_neg hreads]
  exact h.toBehind

theorem switched_of_reads (hreads : ReadsPayload image i w) {state : Exporter} {c : Cell}
    (h : Behind image (i + 2) state) (hb : state.b = s.b) (hc : c = image.cells (i + 1))
    (printed : List Char) : Switched image i w s ⟨printed, some c, state, w - 1⟩ := by
  constructor
  all_goals simp only [if_pos hreads]
  · rw [hc]
  · exact h
  · exact hb

theorem switchWord_switched {fuel : ℕ} (h : AtCell image i s) (hfuel : 7 < fuel)
    (hw : w ≠ 0 → i + 1 < 256 * image.totalBlocks) :
    ∃ r, switchWord fuel s w = .done r ∧ Switched image i w s r := by
  have howns : ownsPayload (image.cells i) ↔ (s.t &&& 0xf#32).toNat = 2 ∨
      (s.t &&& 0xf#32).toNat = 5 ∨ (s.t &&& 0xf#32).toNat = 12 := by
    rw [h.t]
    rfl
  have hlastWord : w = 0 → ¬ ReadsPayload image i w := fun hw0 hreads => hreads.2 hw0
  unfold switchWord
  simp only [printText_cell _ hfuel, Outcome.done_bind]
  generalize (s.t &&& 0xf#32).toNat = k at howns
  split
  case h_2 | h_3 =>
    by_cases hw0 : w = 0
    · rw [if_pos hw0]
      exact ⟨_, rfl, switched_of_not h (hlastWord hw0) _⟩
    · obtain ⟨hn, -, hb, hbehind⟩ := h.toBehind.readNumber (hw hw0)
      have hreads : ReadsPayload image i w := ⟨howns.mpr (by simp), hw0⟩
      rw [if_neg hw0]
      exact ⟨_, rfl, switched_of_reads hreads hbehind hb hn _⟩
  case h_7 =>
    by_cases hw0 : w = 0
    · rw [if_pos hw0]
      exact ⟨_, rfl, switched_of_not h (hlastWord hw0) _⟩
    · obtain ⟨-, hnext, hb⟩ := h.toBehind.readWord (hw hw0)
      have hreads : ReadsPayload image i w := ⟨howns.mpr (by simp), hw0⟩
      rw [if_neg hw0]
      exact ⟨_, rfl, switched_of_reads hreads hnext.toBehind hb hnext.t _⟩
  all_goals
    refine ⟨_, rfl, switched_of_not h (fun hreads => ?_) _⟩
    have := howns.mp hreads.1
    simp_all

theorem wordsFrom_of_le {limit : ℕ} (hi : limit ≤ i) : wordsFrom image limit i = [] := by
  rw [wordsFrom, displayFrom_of_le _ hi, List.map_nil]

theorem wordsFrom_of_lt {limit : ℕ} (hi : i < limit) :
    wordsFrom image limit i = exportedWord image limit i ::
      wordsFrom image limit (if ReadsPayload image i (limit - (i + 1)) then i + 2 else i + 1) := by
  have hwalk : wordsFrom image limit i = exportedWord image limit i ::
      wordsFrom image limit (if ownsPayload (image.cells i) then i + 2 else i + 1) := by
    rw [wordsFrom, displayFrom_of_lt _ hi, List.map_cons]
    rfl
  rw [hwalk]
  congr 1
  by_cases hreads : ReadsPayload image i (limit - (i + 1))
  · rw [if_pos hreads, if_pos hreads.1]
  · rw [if_neg hreads]
    by_cases howns : ownsPayload (image.cells i)
    · -- the last cell of the block: both walks are past its end
      have hlast : limit - (i + 1) = 0 := by
        by_contra hlast
        exact hreads ⟨howns, hlast⟩
      rw [if_pos howns, wordsFrom_of_le (by omega), wordsFrom_of_le (by omega)]
    · rw [if_neg howns]

theorem exportedWord_payload {limit : ℕ} :
    (exportedWord image limit i).payload =
      if ReadsPayload image i (limit - (i + 1)) then some (image.cells (i + 1)) else none := by
  have hlast : i + 1 < limit ↔ limit - (i + 1) ≠ 0 := by omega
  unfold exportedWord
  by_cases hreads : ReadsPayload image i (limit - (i + 1))
  · rw [if_pos hreads]
    exact if_pos ⟨hreads.1, hlast.mpr hreads.2⟩
  · rw [if_neg hreads]
    exact if_neg fun h => hreads ⟨h.1, hlast.mp h.2⟩

/-- One block's worth of words: the loop ends with the block, or with the input when the block is
the last one. -/
theorem wordLoop_marks {fuel : ℕ} (h : AtCell image i s) (hfuel : w + 8 < fuel)
    (hi : i < 256 * image.totalBlocks) (hlimit : i + w ≤ 256 * image.totalBlocks) :
    ∃ printed s', wordLoop fuel s w =
        .done (printed, s', decide (i + w = 256 * image.totalBlocks)) ∧
      printed.filterMap Printed.mark = (wordsFrom image (i + w) i).map wordMark ∧
      (i + w < 256 * image.totalBlocks → AtCell image (i + w) s') ∧ s'.b = s.b := by
  induction fuel generalizing i w s with
  | zero => omega
  | succ fuel ih =>
    cases w with
    | zero =>
      refine ⟨[], s, ?_, ?_, fun _ => h, rfl⟩
      · rw [wordLoop, decide_eq_false (by omega)]
      · rw [wordsFrom_of_le (by omega)]
        rfl
    | succ w =>
      obtain ⟨r, hswitch, hr⟩ := switchWord_switched h (by omega : 7 < fuel)
        (fun hw : w ≠ 0 => (by omega : i + 1 < 256 * image.totalBlocks))
      have hlt : i < i + (w + 1) := by omega
      have hrest : i + (w + 1) - (i + 1) = w := by omega
      have hword : wordMark (exportedWord image (i + (w + 1)) i) = .word s.pos s.t r.payload := by
        rw [wordMark, exportedWord_payload, hrest, ← hr.payload, h.t, h.pos]
        rfl
      rw [wordsFrom_of_lt hlt, hrest, List.map_cons, hword]
      -- the cell that is read next
      generalize hj : (if ReadsPayload image i w then i + 2 else i + 1) = j
      have hbehind : Behind image j { r.state with p := true } := by
        have hb := hr.behind
        rw [hj] at hb
        exact ⟨hb.pos, hb.input⟩
      have hnext : j + r.w = i + (w + 1) ∧ i < j := by
        rw [hr.w, ← hj]
        by_cases hreads : ReadsPayload image i w
        · have := hreads.2
          rw [if_pos hreads, if_pos hreads]
          omega
        · rw [if_neg hreads, if_neg hreads]
          omega
      by_cases hended : j = 256 * image.totalBlocks
      · have hread := hbehind.readWord_ended (Nat.le_of_eq hended.symm)
        refine ⟨[.word (positionComment s.pos ++ r.printed) s.pos s.t r.payload,
          .text "</code>\n</div>\n".toList], { r.state with p := true }, ?_, ?_, fun hmore => ?_,
          hr.b⟩
        · rw [decide_eq_true (by omega)]
          simp only [wordLoop, hswitch, Outcome.done_bind, hread, if_neg Bool.false_ne_true]
        · rw [wordsFrom_of_le (by omega)]
          rfl
        · omega
      · obtain ⟨hmore, hat, hb⟩ := hbehind.readWord (by omega)
        obtain ⟨rest, s', hloop, hmarks, hend, hb'⟩ := ih hat (show r.w + 8 < fuel by omega)
          (by omega) (by omega)
        rw [hnext.1] at hloop hmarks hend
        refine ⟨.word (positionComment s.pos ++ r.printed) s.pos s.t r.payload :: rest, s', ?_, ?_,
          hend, ?_⟩
        · simp only [wordLoop, hswitch, Outcome.done_bind, hmore, if_true, hloop]
        · rw [← hmarks]
          rfl
        · rw [hb', ← hr.b]
          exact hb

end words

section blocks

variable {image : BlockImage} {k m : ℕ} {s : Exporter}

/-- One block, after its header. -/
theorem wordLoop_block {fuel : ℕ} (h : AtCell image (256 * k) s) (hb : s.b = BitVec.ofNat 32 k)
    (hk : k < image.totalBlocks) (hfuel : 264 < fuel) :
    ∃ words s', wordLoop fuel { s with b := s.b + 1 } 256 =
        .done (words, s', decide (k + 1 = image.totalBlocks)) ∧
      (∀ text rest, (.header text s.b s.pos s.t :: words ++ rest).filterMap Printed.mark =
        blockMarks image k ++ rest.filterMap Printed.mark) ∧
      (k + 1 < image.totalBlocks → AtCell image (256 * (k + 1)) s') ∧
      s'.b = BitVec.ofNat 32 (k + 1) := by
  have hstart : AtCell image (256 * k) { s with b := s.b + 1 } := ⟨⟨h.pos, h.input⟩, h.t⟩
  obtain ⟨words, s', hloop, hmarks, hend, hb'⟩ := wordLoop_marks (w := 256) hstart hfuel
    (by omega) (by omega)
  have hlast : 256 * k + 256 = 256 * image.totalBlocks ↔ k + 1 = image.totalBlocks := by omega
  refine ⟨words, s', ?_, fun text rest => ?_, fun hmore => hend (by omega), ?_⟩
  · rw [hloop]
    simp only [hlast]
  · have hheader : Printed.mark (.header text s.b s.pos s.t) = some (headerMark image k) := by
      rw [Printed.mark, headerMark, hb, h.pos, h.t]
      rfl
    rw [List.cons_append, List.filterMap_cons_some hheader, List.filterMap_append, hmarks]
    rfl
  · rw [hb', hb, BitVec.ofNat_add]
    rfl

/-- The blocks from `k` on, of which `m` follow it. -/
theorem blockLoop_marks {fuel : ℕ} (h : AtCell image (256 * k) s) (hb : s.b = BitVec.ofNat 32 k)
    (hm : k + (m + 1) = image.totalBlocks) (hfuel : m + 265 < fuel) :
    ∃ printed, blockLoop fuel s = .done printed ∧
      printed.filterMap Printed.mark = (List.range' k (m + 1)).flatMap (blockMarks image) := by
  induction m generalizing k s fuel with
  | zero =>
    obtain ⟨fuel, rfl⟩ := Nat.exists_eq_succ_of_ne_zero (Nat.ne_of_gt (Nat.zero_lt_of_lt hfuel))
    obtain ⟨words, s', hloop, hmarks, -, -⟩ :=
      wordLoop_block h hb (by omega) (by omega : 264 < fuel)
    rw [decide_eq_true hm] at hloop
    simp only [blockLoop, hloop, Outcome.done_bind, if_true]
    refine ⟨_, rfl, ?_⟩
    rw [hmarks]
    simp [Printed.mark]
  | succ m ih =>
    obtain ⟨fuel, rfl⟩ := Nat.exists_eq_succ_of_ne_zero (Nat.ne_of_gt (Nat.zero_lt_of_lt hfuel))
    obtain ⟨words, s', hloop, hmarks, hend, hb'⟩ :=
      wordLoop_block h hb (by omega) (by omega : 264 < fuel)
    have hat := hend (by omega)
    have hnext : AtCell image (256 * (k + 1)) { s' with p := false } :=
      ⟨⟨hat.pos, hat.input⟩, hat.t⟩
    obtain ⟨rest, hblocks, hrest⟩ := ih hnext hb' (by omega) (show m + 265 < fuel by omega)
    rw [decide_eq_false (by omega)] at hloop
    simp only [blockLoop, hloop, Outcome.done_bind, if_neg Bool.false_ne_true, hblocks]
    refine ⟨_, rfl, ?_⟩
    rw [hmarks, List.filterMap_cons_none rfl, hrest]
    rfl

end blocks

section words

variable {image : BlockImage} {k : ℕ}

/-- The words of the editor, when no word of two cells starts in the last cell. -/
theorem wordsFrom_eq_displayedWords (hk : k < image.totalBlocks)
    (hlast : ¬ LastStartsPair image (BitVec.ofNat 32 k)) :
    wordsFrom image (256 * k + 256) (256 * k) = displayedWords image (BitVec.ofNat 32 k) := by
  have hsmall := image.small
  have hn : (BitVec.ofNat 32 k).toNat = k := by
    rw [BitVec.toNat_ofNat]
    omega
  have hwalk : displayBlock image.cells (BitVec.ofNat 32 k) =
      displayFrom image.cells (256 * k + 256) (256 * k) := by
    rw [displayBlock_eq _ (by omega), hn]
  unfold LastStartsPair displayBlockPositions at hlast
  rw [hn, hwalk] at hlast
  rw [wordsFrom, displayedWords, displayBlockPositions, hwalk, List.map_map]
  apply List.map_congr_left
  intro x hx
  obtain ⟨-, hlt⟩ := displayFrom_position _ _ _ x hx
  have hmem := List.mem_map_of_mem (f := fun x : Pass => x.position) hx
  have hpayload : ownsPayload (image.cells x.position) ∧ x.position + 1 < 256 * k + 256 ↔
      ownsPayload (image.cells x.position) := by
    refine ⟨And.left, fun howns => ⟨howns, ?_⟩⟩
    by_contra hend
    have hx : x.position = 256 * k + 255 := by omega
    exact hlast ⟨hx ▸ hmem, hx ▸ howns⟩
  simp only [exportedWord, hpayload]
  rfl

theorem wordsFrom_position (image : BlockImage) (limit i : ℕ) : ∀ x ∈ wordsFrom image limit i,
    i ≤ x.position ∧ x.position < limit ∧ x.head = image.cells x.position := by
  intro x hx
  obtain ⟨pass, hpass, rfl⟩ := List.mem_map.mp hx
  obtain ⟨hle, hlt⟩ := displayFrom_position _ _ _ pass hpass
  exact ⟨hle, hlt, rfl⟩

end words

/-- The exporter ends with the last block. It prints the header of each block with the block's first
cell as the next word, and then processes words of the block: those that the editor displays, when
no word of two cells starts in the block's last cell. -/
theorem main_blocks (image : BlockImage) (n : Cell) :
    ∃ fuel printed, main fuel n (imageInput image) = .done printed ∧
      ∃ words : ℕ → List ShownWord,
        printed.filterMap Printed.mark = (List.range image.totalBlocks).flatMap
          (fun k => headerMark image k :: (words k).map wordMark) ∧
        ∀ k < image.totalBlocks,
          (∀ x ∈ words k, 256 * k ≤ x.position ∧ x.position < 256 * k + 256 ∧
            x.head = image.cells x.position) ∧
          (¬ LastStartsPair image (BitVec.ofNat 32 k) →
            words k = displayedWords image (BitVec.ofNat 32 k)) := by
  have hwords : ∀ k < image.totalBlocks,
      (∀ x ∈ wordsFrom image (256 * k + 256) (256 * k), 256 * k ≤ x.position ∧
        x.position < 256 * k + 256 ∧ x.head = image.cells x.position) ∧
      (¬ LastStartsPair image (BitVec.ofNat 32 k) →
        wordsFrom image (256 * k + 256) (256 * k) = displayedWords image (BitVec.ofNat 32 k)) :=
    fun k hk => ⟨wordsFrom_position _ _ _, wordsFrom_eq_displayedWords hk⟩
  cases hblocks : image.totalBlocks with
  | zero =>
    refine ⟨0, [.text (pageStart.flatMap String.toList)], ?_, fun _ => [], rfl, by simp⟩
    rw [imageInput, hblocks]
    rfl
  | succ m =>
    have hinput : imageInput image = image.cells 0 ::
        (List.range' 1 (256 * image.totalBlocks - 1)).map image.cells := by
      rw [imageInput, List.range_eq_range', show 256 * image.totalBlocks =
        256 * image.totalBlocks - 1 + 1 by omega, List.range'_succ, List.map_cons]
      rfl
    have hstart : AtCell image (256 * 0) ⟨0, false, image.cells 0, n, 4,
        (List.range' 1 (256 * image.totalBlocks - 1)).map image.cells⟩ := ⟨⟨rfl, rfl⟩, rfl⟩
    obtain ⟨printed, hloop, hmarks⟩ := blockLoop_marks (k := 0) hstart rfl (by omega)
      (Nat.lt_succ_self (m + 265))
    refine ⟨m + 266, .text (pageStart.flatMap String.toList) :: printed, ?_,
      fun k => wordsFrom image (256 * k + 256) (256 * k), ?_, hblocks ▸ hwords⟩
    · rw [hinput, main]
      simp only [hloop, Outcome.done_bind]
    · rw [List.filterMap_cons_none rfl, hmarks, List.range_eq_range']
      rfl

end Cf2html

end Einherjar.Colorforth
