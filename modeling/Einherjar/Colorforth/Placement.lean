import Einherjar.Colorforth.Converter
import Einherjar.Colorforth.Grammar
import Einherjar.Lib.Pieces
import Mathlib.Data.List.Forall2

/-! Where the blocks of a text stand in the image, and where their headers say they stand. -/
namespace Einherjar.Colorforth
open Einherjar.Lib

/-- The cells stand at the beginning of block `n` of the image, and the rest of the block is
zero. -/
structure InBlock (image : List Cell) (n : ℕ) (cells : List Cell) : Prop where
  length : cells.length ≤ 256
  cells : ∀ i < 256, image[256 * n + i]? = some (cells.getD i 0)

variable {rs css : List (List Cell)}

theorem length_padded {cells : List Cell} (h : cells.length ≤ 256) :
    (padded cells).length = 256 := by
  rw [padded, List.length_append, List.length_replicate, Nat.add_sub_cancel' h]

theorem getElem?_padded {cells : List Cell} (h : cells.length ≤ 256) {i : ℕ} (hi : i < 256) :
    (padded cells)[i]? = some (cells.getD i 0) := by
  unfold padded
  by_cases hlen : i < cells.length
  · rw [List.getElem?_append_left hlen, List.getD_eq_getElem _ _ hlen,
      List.getElem?_eq_getElem hlen]
  · rw [List.getElem?_append_right (Nat.le_of_not_lt hlen), List.getElem?_replicate,
      if_pos (by omega), List.getD_eq_default _ _ (Nat.le_of_not_lt hlen)]

theorem inBlock_iff (hlen : ∀ cells ∈ rs, cells.length ≤ 256) (n : ℕ) {cells : List Cell}
    (hlength : cells.length ≤ 256) :
    InBlock (rs.flatMap padded) n cells ↔ rs[n]?.map padded = some (padded cells) := by
  have hchunks : ∀ c ∈ rs.map padded, c.length = 256 := by
    intro c hc
    obtain ⟨cells, hmem, rfl⟩ := List.mem_map.mp hc
    exact length_padded (hlen cells hmem)
  have himage : ∀ i < 256, (rs.flatMap padded)[256 * n + i]? =
      (rs[n]?.map padded).bind fun cells => cells[i]? := by
    intro i hi
    rw [List.flatMap_def, getElem?_flatten hchunks hi, List.getElem?_map]
  constructor
  · intro h
    cases hn : rs[n]? with
    | none =>
      have hzero := h.cells 0 (by decide)
      rw [himage 0 (by decide), hn] at hzero
      cases hzero
    | some other =>
      have hother : (padded other).length = 256 :=
        length_padded (hlen other (List.mem_of_getElem? hn))
      rw [Option.map_some, Option.some.injEq]
      apply List.ext_getElem?
      intro i
      by_cases hi : i < 256
      · have hcell := h.cells i hi
        rw [himage i hi, hn] at hcell
        rw [getElem?_padded hlength hi, ← hcell]
        rfl
      · rw [List.getElem?_eq_none (by omega),
          List.getElem?_eq_none (by rw [length_padded hlength]; omega)]
  · intro h
    refine ⟨hlength, fun i hi => ?_⟩
    rw [himage i hi, h, Option.bind_some, getElem?_padded hlength hi]

theorem length_le_of_inBlock {image : List Cell} {blocks : List SourceBlock}
    (h : List.Forall₂ (fun b cells => InBlock image b.number cells) blocks css) :
    ∀ cells ∈ css, cells.length ≤ 256 := by
  induction h with
  | nil => simp
  | cons hb _ ih => exact List.forall_mem_cons.mpr ⟨hb.length, ih⟩

theorem forall₂_inBlock_iff {blocks : List SourceBlock}
    (hrs : (∀ cells ∈ css, cells.length ≤ 256) → ∀ cells ∈ rs, cells.length ≤ 256) :
    List.Forall₂ (fun b cells => InBlock (rs.flatMap padded) b.number cells) blocks css ↔
      (∀ cells ∈ css, cells.length ≤ 256) ∧
        List.Forall₂ (fun b cells => rs[b.number]?.map padded = some (padded cells))
          blocks css := by
  constructor
  · intro h
    have hlen : ∀ cells ∈ css, cells.length ≤ 256 := length_le_of_inBlock h
    rw [List.forall₂_iff_zip] at h ⊢
    exact ⟨hlen, h.1, fun hmem =>
      (inBlock_iff (hrs hlen) _ (hlen _ (List.of_mem_zip hmem).2)).mp (h.2 hmem)⟩
  · rintro ⟨hlen, h⟩
    rw [List.forall₂_iff_zip] at h ⊢
    exact ⟨h.1, fun hmem =>
      (inBlock_iff (hrs hlen) _ (hlen _ (List.of_mem_zip hmem).2)).mpr (h.2 hmem)⟩

/-- A block in a text, with the white space around its number and behind its header. -/
structure WrittenBlock where
  before : List Char
  digits : List Char
  after : List Char
  gap : List Char
  functions : List WrittenFunction
  before_blank : ∀ c ∈ before, isBlank c = true
  digits_ne_nil : digits ≠ []
  digits_nums : ∀ c ∈ digits, c ∈ nums
  after_blank : ∀ c ∈ after, isBlank c = true
  gap_blank : ∀ c ∈ gap, isBlank c = true
  proper : ∀ f ∈ functions, f.Proper

namespace WrittenBlock

def text (b : WrittenBlock) : List Char :=
  "\x7bblock ".toList ++ (b.before ++ (b.digits ++ (b.after ++
    '\x7d' :: (b.gap ++ b.functions.flatMap WrittenFunction.text))))

theorem text_eq (b : WrittenBlock) : b.text = "\x7bblock ".toList ++ (b.before ++ (b.digits ++
    (b.after ++ '\x7d' :: (b.gap ++ b.functions.flatMap WrittenFunction.text)))) := rfl

def number (b : WrittenBlock) : ℕ := ((int 10 b.digits).getD 0).toNat

/-- The number in the header, and all functions under it. -/
def source (b : WrittenBlock) : SourceBlock := ⟨b.number, b.functions.map (·.token)⟩

/-- The grammar goes on after the block. -/
def Whole (b : WrittenBlock) : Prop := ∀ f ∈ b.functions, f.Found

instance (b : WrittenBlock) : Decidable b.Whole := by
  unfold Whole
  infer_instance

end WrittenBlock

/-- The blocks up to the first function that the grammar does not find. -/
def foundBlocks : List WrittenBlock → List SourceBlock
  | [] => []
  | b :: bs => ⟨b.number, foundTokens b.functions⟩ :: if b.Whole then foundBlocks bs else []

/-- A text of headers and functions, and white space before it. -/
structure WrittenText where
  lead : List Char
  blocks : List WrittenBlock
  lead_blank : ∀ c ∈ lead, isBlank c = true

namespace WrittenText

def text (w : WrittenText) : List Char := w.lead ++ w.blocks.flatMap WrittenBlock.text

/-- The blocks with all functions that are written under their headers. -/
def source (w : WrittenText) : List SourceBlock := w.blocks.map WrittenBlock.source

/-- The blocks that the grammar finds. -/
def found (w : WrittenText) : List SourceBlock := foundBlocks w.blocks

end WrittenText

/-- The converter rejects the text; or the text consists of headers and functions, and the cells of
all functions under a header stand where the header says. -/
def LandsAtHeaders (p : Pyparsing) (text : List Char) : Prop :=
  ∃ fuel, tocfText p fuel text = .stopped ∨
    ∃ image w css, tocfText p fuel text = .done image ∧ expandTabs text = WrittenText.text w ∧
      encodeBlocks fuel false w.source = .done css ∧
        List.Forall₂ (fun b cells => InBlock image b.number cells) w.source css

/-- The grammar finds no block at the beginning, or it finds a function that has no encoding. -/
def Rejected (p : Pyparsing) (text : List Char) : Prop :=
  ∀ blocks rest, Grammar.cf2text p (expandTabs text) = some (blocks, rest) →
    ∃ fuel, encodeBlocks fuel false blocks = .stopped

/-- The loops end on every function, no block is too long, and the block that the grammar finds as
the `n`-th is that with the header `n`, or has the same cells. -/
def InHeaderOrder (found source : List SourceBlock) : Prop :=
  ∃ fuel rs css, encodeBlocks fuel false found = .done rs ∧
    encodeBlocks fuel false source = .done css ∧ (∀ cells ∈ css, cells.length ≤ 256) ∧
      List.Forall₂ (fun b cells => rs[b.number]?.map padded = some (padded cells)) source css

section found

variable {p : Pyparsing} {bs : List WrittenBlock} {s : List Char}

theorem opens_blocks (bs : List WrittenBlock) :
    Grammar.Opens (bs.flatMap WrittenBlock.text) := by
  cases bs with
  | nil => simp [Grammar.Opens]
  | cons b bs =>
    have hopen : "\x7bblock ".toList = ['\x7b', 'b', 'l', 'o', 'c', 'k', ' '] := by simp
    rw [List.flatMap_cons, WrittenBlock.text_eq, hopen]
    rintro c ⟨⟩
    rfl

/-- A block of the text is found, up to the first function that is not. -/
theorem writtenBlock_found (hp : p.Documented) (b : WrittenBlock)
    (hs : Lib.skipBlanks s = (b :: bs).flatMap WrittenBlock.text) : ∃ rest,
      Grammar.block p s = some (⟨b.number, foundTokens b.functions⟩, rest) ∧
        rest.length < s.length ∧
        (b.Whole → Lib.skipBlanks rest = bs.flatMap WrittenBlock.text) ∧
        (¬ b.Whole → Grammar.block p rest = none) := by
  obtain ⟨rest, hrest, hlen, hwhole, hcut⟩ := Grammar.functions_found (p := p) b.proper
    (fun _ _ _ => hp) b.gap_blank (opens_blocks bs)
  have htext : (b :: bs).flatMap WrittenBlock.text = "\x7bblock ".toList ++ (b.before ++
      (b.digits ++ (b.after ++ '\x7d' ::
        (b.gap ++ (b.functions.flatMap WrittenFunction.text ++
          bs.flatMap WrittenBlock.text))))) := by
    rw [List.flatMap_cons, WrittenBlock.text_eq]
    simp only [List.append_assoc, List.cons_append]
  rw [htext] at hs
  obtain ⟨hblock, hless⟩ := Grammar.block_found_of_tail b.before_blank b.digits_ne_nil
    b.digits_nums b.after_blank hs hrest hlen
  refine ⟨rest, hblock, hless, hwhole, fun hnot => hcut ?_⟩
  unfold WrittenBlock.Whole at hnot
  push Not at hnot
  exact hnot

theorem blocks_found (hp : p.Documented)
    (hs : Lib.skipBlanks s = bs.flatMap WrittenBlock.text) :
    ∃ rest, p.zeroOrMore (Grammar.block p) s = some (foundBlocks bs, rest) := by
  induction bs generalizing s with
  | nil =>
    have hmissing : Grammar.block p s = none := Grammar.block_missing (by rw [hs]; simp)
    exact ⟨s, p.zeroOrMore_end hmissing⟩
  | cons b bs ih =>
    obtain ⟨rest, hblock, hless, hwhole, hcut⟩ := writtenBlock_found hp b hs
    rw [p.zeroOrMore_next hblock hless, foundBlocks]
    by_cases hb : b.Whole
    · obtain ⟨rest', hrest'⟩ := ih (hwhole hb)
      rw [hrest', if_pos hb]
      exact ⟨rest', rfl⟩
    · rw [p.zeroOrMore_end (hcut hb), if_neg hb]
      exact ⟨rest, rfl⟩

/-- What the grammar finds in a text of headers and functions. -/
theorem cf2text_written (hp : p.Documented) (w : WrittenText) :
    w.blocks = [] ∧ Grammar.cf2text p w.text = none ∨
      ∃ rest, Grammar.cf2text p w.text = some (w.found, rest) := by
  have hskip : Lib.skipBlanks w.text = w.blocks.flatMap WrittenBlock.text := by
    rw [WrittenText.text, skipBlanks_append w.lead_blank, (opens_blocks w.blocks).skipBlanks]
  cases hblocks : w.blocks with
  | nil =>
    rw [hblocks] at hskip
    exact .inl ⟨rfl, p.oneOrMore_missing (Grammar.block_missing (by rw [hskip]; simp))⟩
  | cons b bs =>
    obtain ⟨rest', hall⟩ := blocks_found hp hskip
    rw [hblocks] at hskip
    obtain ⟨rest, hblock, hless, -⟩ := writtenBlock_found hp b hskip
    rw [p.zeroOrMore_next hblock hless] at hall
    refine .inr ⟨rest', ?_⟩
    rw [Grammar.cf2text, p.oneOrMore_next hblock hless, hall]
    rfl

/-- What is found is read off the characters. -/
theorem found_congr (hp : p.Documented) {w w' : WrittenText} (h : w.text = w'.text) :
    w.found = w'.found := by
  rcases cf2text_written hp w with ⟨hnil, hnone⟩ | ⟨rest, hrest⟩ <;>
    rcases cf2text_written hp w' with ⟨hnil', hnone'⟩ | ⟨rest', hrest'⟩
  · rw [WrittenText.found, hnil, WrittenText.found, hnil']
  · rw [h, hrest'] at hnone
    cases hnone
  · rw [h, hnone'] at hrest
    cases hrest
  · rw [h, hrest'] at hrest
    exact (Prod.mk.inj (Option.some.inj hrest)).1.symm

/-- Where every function has a parameter and white space behind it, all blocks are found. -/
theorem WrittenText.found_eq {w : WrittenText} (h : ∀ b ∈ w.blocks, b.Whole) :
    w.found = w.source := by
  have hall : ∀ bs : List WrittenBlock, (∀ b ∈ bs, b.Whole) →
      foundBlocks bs = bs.map WrittenBlock.source := by
    intro bs hbs
    induction bs with
    | nil => rfl
    | cons b bs ih =>
      obtain ⟨hb, hbs⟩ := List.forall_mem_cons.mp hbs
      have htokens : foundTokens b.functions = b.functions.map (·.token) := by
        rw [foundTokens, List.takeWhile_eq_self_iff.mpr fun f hf => decide_eq_true (hb f hf)]
      rw [foundBlocks, if_pos hb, ih hbs, htokens]
      rfl
  exact hall w.blocks h

end found

section cut

variable {fuel : ℕ} {v v' : Bool}

theorem encodeTokens_nil (v : Bool) : encodeTokens fuel v [] = .done ([], v) := rfl

theorem map_token_eq (fs : List WrittenFunction) :
    ∃ toks, fs.map (·.token) = foundTokens fs ++ toks ∧ ((∀ f ∈ fs, f.Found) → toks = []) := by
  refine ⟨(fs.dropWhile fun f => f.Found).map (·.token), ?_, fun hall => ?_⟩
  · rw [foundTokens, ← List.map_append, List.takeWhile_append_dropWhile]
  · rw [List.dropWhile_eq_nil_iff.mpr fun f hf => decide_eq_true (hall f hf)]
    rfl

/-- No block that is found has more cells than the longest in the text. -/
theorem length_le_of_found {bs : List WrittenBlock} {rs css : List (List Cell)}
    (h : encodeBlocks fuel v (foundBlocks bs) = .done rs)
    (hall : encodeBlocks fuel v (bs.map WrittenBlock.source) = .done css) :
    ∀ cells ∈ rs, ∃ all ∈ css, cells.length ≤ all.length := by
  induction bs generalizing v rs css with
  | nil =>
    obtain rfl := Outcome.done.inj h
    simp
  | cons b bs ih =>
    obtain ⟨toks, htoks, hwhole⟩ := map_token_eq b.functions
    rw [foundBlocks, encodeBlocks] at h
    rw [List.map_cons, encodeBlocks, WrittenBlock.source, htoks] at hall
    obtain ⟨⟨cells, v₁⟩, hcells, h⟩ := Outcome.bind_eq_done h
    obtain ⟨tail, htail, h⟩ := Outcome.bind_eq_done h
    obtain ⟨⟨all, v₂⟩, hall₁, hall⟩ := Outcome.bind_eq_done hall
    obtain ⟨tail', htail', hall⟩ := Outcome.bind_eq_done hall
    obtain rfl := Outcome.done.inj h
    obtain rfl := Outcome.done.inj hall
    rw [encodeTokens_append, hcells, Outcome.done_bind] at hall₁
    obtain ⟨⟨more, v₃⟩, hmore, hall₁⟩ := Outcome.bind_eq_done hall₁
    obtain ⟨rfl, rfl⟩ := Prod.mk.inj (Outcome.done.inj hall₁)
    refine List.forall_mem_cons.mpr ⟨⟨_, List.mem_cons_self, by simp⟩, fun r hr => ?_⟩
    by_cases hb : b.Whole
    · rw [if_pos hb] at htail
      rw [hwhole hb, encodeTokens_nil] at hmore
      obtain ⟨-, rfl⟩ := Prod.mk.inj (Outcome.done.inj hmore)
      obtain ⟨all, hmem, hle⟩ := ih htail htail' r hr
      exact ⟨all, List.mem_cons_of_mem _ hmem, hle⟩
    · rw [if_neg hb] at htail
      obtain rfl := Outcome.done.inj htail
      cases hr

end cut

section text

variable {p : Pyparsing} {text : List Char} {fuel : ℕ}

theorem tocfText_of_found (hp : p.Documented) {blocks : List SourceBlock} {rest : List Char}
    (h : Grammar.cf2text p (expandTabs text) = some (blocks, rest)) :
    tocfText p fuel text = tocf fuel blocks := by
  rw [tocfText, hp.parseString_eq, h]
  rfl

/-- The converter stops on the text. -/
theorem rejected_iff (hp : p.Documented) :
    Rejected p text ↔ ∃ fuel, tocfText p fuel text = .stopped := by
  unfold Rejected
  cases h : Grammar.cf2text p (expandTabs text) with
  | none =>
    have hstopped : tocfText p 0 text = .stopped := by
      rw [tocfText, hp.parseString_eq, h]
      rfl
    exact iff_of_true (by simp) ⟨0, hstopped⟩
  | some found =>
    obtain ⟨blocks, rest⟩ := found
    simp only [Option.some.injEq, Prod.mk.injEq, tocfText_of_found hp h, tocf_eq]
    constructor
    · intro hall
      obtain ⟨fuel, hstop⟩ := hall blocks rest ⟨rfl, rfl⟩
      exact ⟨fuel, by rw [hstop]; rfl⟩
    · rintro ⟨fuel, hstop⟩ _ _ ⟨rfl, rfl⟩
      refine ⟨fuel, ?_⟩
      cases henc : encodeBlocks fuel false blocks with
      | stopped => rfl
      | outOfFuel => rw [henc] at hstop; cases hstop
      | done css => rw [henc] at hstop; cases hstop

/-- In a text of headers and functions with blocks, all cells stand where the headers say exactly
when the blocks come in that order. -/
theorem placed_iff (hp : p.Documented) (w : WrittenText) {rest : List Char}
    (hw : expandTabs text = w.text) (h : Grammar.cf2text p w.text = some (w.found, rest)) :
    (∃ fuel image css, tocfText p fuel text = .done image ∧
      encodeBlocks fuel false w.source = .done css ∧
        List.Forall₂ (fun b cells => InBlock image b.number cells) w.source css) ↔
      InHeaderOrder w.found w.source := by
  rw [← hw] at h
  unfold InHeaderOrder
  refine exists_congr fun fuel => ?_
  rw [tocfText_of_found hp h, tocf_eq]
  cases hrs : encodeBlocks fuel false w.found with
  | outOfFuel => simp [Outcome.bind]
  | stopped => simp
  | done rs =>
    simp only [Outcome.done_bind, Outcome.done.injEq, exists_and_left, exists_eq_left']
    refine exists_congr fun css => and_congr_right fun hcss => ?_
    refine forall₂_inBlock_iff fun hlen cells hcells => ?_
    obtain ⟨all, hall, hle⟩ := length_le_of_found hrs hcss cells hcells
    exact hle.trans (hlen all hall)

/-- The blocks land where their headers say exactly when the text has them in that order, as far as
the grammar finds them. -/
theorem landsAtHeaders_iff (p : Pyparsing) (hp : p.Documented) (text : List Char) :
    LandsAtHeaders p text ↔ Rejected p text ∨
      ∃ w : WrittenText, expandTabs text = w.text ∧ InHeaderOrder w.found w.source := by
  have hsplit : LandsAtHeaders p text ↔ Rejected p text ∨ ∃ w : WrittenText,
      expandTabs text = w.text ∧ ∃ fuel image css, tocfText p fuel text = .done image ∧
        encodeBlocks fuel false w.source = .done css ∧
          List.Forall₂ (fun b cells => InBlock image b.number cells) w.source css := by
    rw [rejected_iff hp, LandsAtHeaders, exists_or]
    refine or_congr_right ⟨?_, ?_⟩
    · rintro ⟨fuel, image, w, css, himage, hw, hcss, hplaced⟩
      exact ⟨w, hw, fuel, image, css, himage, hcss, hplaced⟩
    · rintro ⟨w, hw, fuel, image, css, himage, hcss, hplaced⟩
      exact ⟨fuel, image, w, css, himage, hw, hcss, hplaced⟩
  rw [hsplit]
  by_cases hrejected : Rejected p text
  · exact iff_of_true (.inl hrejected) (.inl hrejected)
  refine or_congr_right (exists_congr fun w => and_congr_right fun hw => ?_)
  rcases cf2text_written hp w with ⟨-, hnone⟩ | ⟨rest, hfound⟩
  · refine absurd (fun blocks rest hfound => ?_) hrejected
    rw [hw, hnone] at hfound
    cases hfound
  · exact placed_iff hp w hw hfound

/-- A last function with no white space behind it is lost. -/
example : tocfText .reference 4 "\x7bblock 0\x7d execute(a)".toList =
    .done (List.replicate 256 0) := by decide +kernel

end text

/-- `{block 1}`, and nothing before it. -/
def blockOne : WrittenText where
  lead := []
  blocks := [{
    before := []
    digits := ['1']
    after := []
    gap := [' ']
    functions := [⟨(.execute, ['a']), [], [' ']⟩]
    before_blank := by decide
    digits_ne_nil := by decide
    digits_nums := by decide
    after_blank := by decide
    gap_blank := by decide
    proper := by
      intro f hf
      rw [List.mem_singleton.mp hf]
      exact ⟨by decide, by decide, by decide⟩ }]
  lead_blank := by decide

theorem found_blockOne : blockOne.found = [⟨1, [(.execute, ['a'])]⟩] := rfl

theorem expandTabs_blockOne : expandTabs blockOne.text = blockOne.text := by
  refine expandTabs_of_notMem ?_
  simp [WrittenText.text, blockOne, WrittenBlock.text_eq, WrittenFunction.text]
  decide

theorem blockOne_not_rejected : ¬ Rejected .reference blockOne.text := by
  intro h
  rcases cf2text_written Pyparsing.reference_documented blockOne with ⟨hnil, -⟩ | ⟨rest, hfound⟩
  · cases hnil
  · rw [← expandTabs_blockOne] at hfound
    obtain ⟨fuel, hstop⟩ := h _ _ hfound
    have hdone : encodeBlocks 4 false blockOne.found = .done [[nameCell ['a'] 1]] := by decide
    exact Outcome.ne_stopped_of_done (encodeBlocks_mono false _) hdone fuel hstop

/-- The only block that is found has the header 1, and is the one before all others. -/
theorem not_inHeaderOrder_blockOne {w : WrittenText} (h : w.found = blockOne.found) :
    ¬ InHeaderOrder w.found w.source := by
  rintro ⟨fuel, rs, css, hrs, -, -, hplaced⟩
  rw [h, found_blockOne, encodeBlocks] at hrs
  obtain ⟨head, -, hrs⟩ := Outcome.bind_eq_done hrs
  obtain rfl := Outcome.done.inj hrs
  rw [found_blockOne, WrittenText.found] at h
  rw [WrittenText.source] at hplaced
  cases hblocks : w.blocks with
  | nil =>
    rw [hblocks] at h
    cases h
  | cons b bs =>
    rw [hblocks, foundBlocks] at h
    rw [hblocks] at hplaced
    have hnumber : b.number = 1 := congrArg SourceBlock.number (List.cons.inj h).1
    obtain ⟨cells, tail, hhead, -, -⟩ := List.forall₂_cons_left_iff.mp hplaced
    change Option.map padded [head.1][b.number]? = _ at hhead
    rw [hnumber] at hhead
    cases hhead

theorem landsAtHeaders_iff_blockOne :
    LandsAtHeaders .reference blockOne.text ↔ Rejected .reference blockOne.text ∨
      ∃ w : WrittenText, expandTabs blockOne.text = w.text ∧ InHeaderOrder w.found w.source :=
  landsAtHeaders_iff .reference Pyparsing.reference_documented blockOne.text

/-- The only block of the text has the header 1 and stands in block 0 of the image. -/
theorem blockOne_not_landing : ¬ ∀ (p : Pyparsing), p.Documented →
    ∀ (text : List Char) (w : WrittenText), expandTabs text = w.text →
      (w.source.map SourceBlock.number).Nodup → LandsAtHeaders p text := by
  intro h
  rcases h .reference Pyparsing.reference_documented blockOne.text blockOne expandTabs_blockOne
    (by decide)
    with ⟨fuel, hstop | ⟨image, w, css, himage, hw, hcss, hplaced⟩⟩
  · exact blockOne_not_rejected ((rejected_iff Pyparsing.reference_documented).mpr ⟨fuel, hstop⟩)
  · have hfound : w.found = blockOne.found :=
      found_congr Pyparsing.reference_documented (hw.symm.trans expandTabs_blockOne)
    rcases cf2text_written Pyparsing.reference_documented w with ⟨hnil, -⟩ | ⟨rest, hrest⟩
    · rw [WrittenText.found, hnil] at hfound
      cases hfound
    · exact not_inHeaderOrder_blockOne hfound ((placed_iff Pyparsing.reference_documented w hw
        hrest).mp ⟨fuel, image, css, himage, hcss, hplaced⟩)

end Einherjar.Colorforth
