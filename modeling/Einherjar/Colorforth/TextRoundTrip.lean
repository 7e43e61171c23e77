import Einherjar.Colorforth.FaithfulBlocks
import Einherjar.Colorforth.Placement
import Einherjar.Colorforth.ReadBlocks

/-! Text form and block image: when `totext` and then `tocf` give the same image again. -/
namespace Einherjar.Colorforth
open Einherjar.Lib ParseCFBlockToText

/-- `totext` returns, and from its text `tocf` makes the same image. -/
def RoundTrips (p : Pyparsing) (image : List Cell) : Prop :=
  ∃ fuel text, totext fuel image = .done text ∧ ∃ fuel', tocfText p fuel' text = .done image

/-- Faithful blocks, one after another; a variable may get its value in a later block. -/
inductive FaithfulBlocks : Bool → List (List Cell) → Prop
  | nil (v : Bool) : FaithfulBlocks v []
  | cons {v v' : Bool} {cells : List Cell} {blocks : List (List Cell)}
      (head : Faithful v cells v') (rest : FaithfulBlocks v' blocks) :
      FaithfulBlocks v (cells :: blocks)

section block

variable {p : Pyparsing} {cells rest : List Cell} {body : List Char} {toks : List Token}
  {v v' : Bool}

theorem Segments.startsInside (h : Segments cells toks) : startsInside cells = false := by
  cases h with
  | nil => rfl
  | cons head next =>
    cases head with
    | name tag more => simpa [ParseCFBlockToText.startsInside] using (nameTags_kind tag).2.1
    | long tag number more => simp [ParseCFBlockToText.startsInside]; omega
    | short tag number more => simp [ParseCFBlockToText.startsInside]; omega
    | valued tag number more => simp [ParseCFBlockToText.startsInside]; omega
  | longCut tag => simp [ParseCFBlockToText.startsInside]; omega
  | variableCut tag => simp [ParseCFBlockToText.startsInside]; omega

theorem Segments.ne_nil (h : Segments cells toks) (hne : cells ≠ []) : toks ≠ [] := by
  cases h with
  | nil => exact absurd rfl hne
  | cons head next => cases head <;> simp
  | longCut tag => simp
  | variableCut tag => simp

/-- What is read in the text of a block, and what that says of its cells. -/
theorem Shown.readAs (h : Shown cells body) : ∃ toks whole, Grammar.ReadAs p body toks whole ∧
    ∀ {v x v'}, encodes v toks = .done (x, v') → Within x cells ∧
      ∀ k, cells = x ++ List.replicate k 0 → Faithful v cells v' ∧ whole = true := by
  cases h with
  | zeros hzeros =>
    refine ⟨[], true, Grammar.readAs_zeros, fun henc => ⟨within_nil henc, fun k hcells => ?_⟩⟩
    rw [encodes_nil] at henc
    obtain ⟨rfl, rfl⟩ := Prod.mk.inj (Outcome.done.inj henc)
    rw [hcells]
    exact ⟨.zeros _ k, rfl⟩
  | @words lead toks hfilled hprints =>
    obtain ⟨exts, rest, rfl, hexts, rfl, hsegments⟩ := hprints.segments
    obtain ⟨hlead, htoks⟩ := hprints.letters
    cases exts with
    | nil =>
      obtain ⟨tok, toks, rfl⟩ := List.exists_cons_of_ne_nil
        (hsegments.ne_nil (List.ne_nil_of_mem hfilled.choose_spec.1))
      have hbody : shown [] ++ separated (startsInside ([] ++ rest)) (tok :: toks) ++
          ")\n".toList = closed (tok :: toks) := by
        rw [List.nil_append, hsegments.startsInside, ← separated_false_eq]
        rfl
      rw [hbody]
      refine ⟨_, _, Grammar.readAs_closed htoks, fun henc =>
        ⟨hsegments.within henc, fun k hcells => ?_⟩⟩
      obtain ⟨hfaithful, hne⟩ := hsegments.faithful henc hcells
      exact ⟨hfaithful, decide_eq_true hne⟩
    | cons word exts =>
      have htag : tmpTag word = 0 := hexts word List.mem_cons_self
      have hbody : shown (word :: exts) ++ separated (startsInside (word :: exts ++ rest)) toks ++
          ")\n".toList = shown (word :: exts) ++ ')' :: (gap toks ++ closed toks) := by
        rw [List.append_assoc, ← separated_true_eq]
        simp [ParseCFBlockToText.startsInside, htag]
      have htabs : '\t' ∉ gap toks ++ closed toks := by
        rw [List.mem_append, not_or]
        exact ⟨fun hmem => (mem_gap hmem).2 rfl, (Grammar.readAs_closed (p := p) htoks).tabs⟩
      rw [hbody]
      refine ⟨[], false, Grammar.readAs_inside hlead htabs, fun henc =>
        ⟨within_nil henc, fun k hcells => ?_⟩⟩
      rw [encodes_nil] at henc
      obtain ⟨rfl, rfl⟩ := Prod.mk.inj (Outcome.done.inj henc)
      obtain ⟨c, hc, hne⟩ := hfilled
      rw [hcells] at hc
      exact absurd (List.eq_of_mem_replicate hc) hne

/-- A faithful block comes back from what is printed for it. -/
theorem Faithful.readAs (h : Faithful v cells v') (hlen : cells.length = 256) :
    ∃ body toks x, Shown cells body ∧ Grammar.ReadAs p body toks true ∧
      encodes v toks = .done (x, v') ∧ padded x = cells := by
  obtain ⟨k, rest, toks, x, m, rfl, hk, hsegments, hne, henc, hrest⟩ := h.comesBack
  by_cases hfilled : Filled (List.replicate k 0 ++ rest)
  · have hrestne : rest ≠ [] := by
      rintro rfl
      obtain ⟨c, hc, hnz⟩ := hfilled
      rw [List.append_nil] at hc
      exact hnz (List.eq_of_mem_replicate hc)
    obtain rfl := hk.resolve_right hrestne
    rw [List.replicate_zero, List.nil_append] at hfilled hlen ⊢
    obtain ⟨tok, toks, rfl⟩ := List.exists_cons_of_ne_nil (hsegments.ne_nil hrestne)
    have hprints := hsegments.prints
    have hshown := Shown.words hfilled hprints
    rw [hsegments.startsInside, List.nil_append, separated_false_eq] at hshown
    have hread := Grammar.readAs_closed (p := p) hprints.letters.2
    have hparsed : parsed (tok :: toks) = tok :: toks := by
      refine List.takeWhile_eq_self_iff.mpr fun tok hmem => ?_
      simpa using hne tok hmem
    rw [hparsed, decide_eq_true hne] at hread
    refine ⟨_, _, x, hshown, hread, henc, ?_⟩
    have hlen' := congrArg List.length hrest
    rw [List.length_append, List.length_replicate] at hlen'
    rw [padded, hrest, show 256 - x.length = m by omega]
  · have hzeros := not_filled_iff.mp hfilled
    have hrestnil : rest = [] := by
      refine hsegments.trimmed.resolve_right fun hne => hne ?_
      exact trimmedLength_eq_zero_iff.mpr fun c hc => hzeros c (List.mem_append_right _ hc)
    subst hrestnil
    rw [hsegments.eq_nil rfl, encodes_nil] at henc
    obtain ⟨rfl, rfl⟩ := Prod.mk.inj (Outcome.done.inj henc)
    refine ⟨[], [], [], .zeros hfilled, Grammar.readAs_zeros, encodes_nil v, ?_⟩
    rw [List.append_nil, List.length_replicate] at hlen
    rw [padded, hlen, List.nil_append, List.append_nil, List.length_nil, Nat.sub_zero]

end block

/-- What the functions of several blocks come to. -/
noncomputable def encodesBlocks (v : Bool) (tokss : List (List Token)) :
    Outcome (List (List Cell)) :=
  Outcome.limit fun fuel => encodeBlocks fuel v (tokss.map (SourceBlock.mk 0))

section image

variable {p : Pyparsing} {blocks : List (List Cell)} {bodies : List (List Char)} {v : Bool}

/-- The headers do not matter. -/
theorem encodeBlocks_tokens (fuel : ℕ) (v : Bool) (source : List SourceBlock) :
    encodeBlocks fuel v ((source.map SourceBlock.tokens).map (SourceBlock.mk 0)) =
      encodeBlocks fuel v source := by
  induction source generalizing v with
  | nil => rfl
  | cons b source ih => simp only [List.map_cons, encodeBlocks, ih]

theorem encodesBlocks_nil (v : Bool) : encodesBlocks v [] = .done [] := Outcome.limit_const _

theorem encodesBlocks_cons (v : Bool) (toks : List Token) (tokss : List (List Token)) :
    encodesBlocks v (toks :: tokss) = (encodes v toks).bind fun head =>
      (encodesBlocks head.2 tokss).bind fun tail => .done (head.1 :: tail) := by
  unfold encodesBlocks encodes
  have hmono : ∀ head : List Cell × Bool, Monotone fun fuel =>
      (encodeBlocks fuel head.2 (tokss.map (SourceBlock.mk 0))).bind fun tail =>
        Outcome.done (head.1 :: tail) := fun head _ _ hab =>
    Outcome.bind_mono (encodeBlocks_mono _ _ hab) fun _ => le_rfl
  simp only [List.map_cons, encodeBlocks]
  rw [Outcome.limit_bind (encodeTokens_mono _ _) hmono]
  congr 1
  funext head
  rw [Outcome.limit_bind (encodeBlocks_mono _ _) fun _ _ _ _ => le_rfl]
  simp only [Outcome.limit_const]

theorem tocf_iff (source : List SourceBlock) (image : List Cell) :
    (∃ fuel, tocf fuel source = .done image) ↔
      ∃ css, encodesBlocks false (source.map SourceBlock.tokens) = .done css ∧
        css.flatMap padded = image := by
  unfold encodesBlocks
  simp only [tocf_eq, encodeBlocks_tokens]
  constructor
  · rintro ⟨fuel, h⟩
    obtain ⟨css, hcss, hdone⟩ := Outcome.bind_eq_done h
    exact ⟨css, (Outcome.limit_eq_done_iff (encodeBlocks_mono _ _)).mpr ⟨fuel, hcss⟩,
      Outcome.done.inj hdone⟩
  · rintro ⟨css, hcss, rfl⟩
    obtain ⟨fuel, hfuel⟩ := (Outcome.limit_eq_done_iff (encodeBlocks_mono _ _)).mp hcss
    exact ⟨fuel, by rw [hfuel]; rfl⟩

/-- When the blocks that are read come back, all of them are faithful. -/
theorem faithfulBlocks_of_reads (hlen : ∀ cells ∈ blocks, cells.length = 256)
    {reads : List (List Token × Bool)}
    (hreads : List.Forall₂ (fun cells r => ∀ {v x v'}, encodes v r.1 = .done (x, v') →
      Within x cells ∧ ∀ k, cells = x ++ List.replicate k 0 → Faithful v cells v' ∧ r.2 = true)
        blocks reads) {css : List (List Cell)}
    (henc : encodesBlocks v (Grammar.untilCut reads) = .done css)
    (heq : css.flatMap padded = blocks.flatten) : FaithfulBlocks v blocks := by
  induction hreads generalizing v css with
  | nil => exact .nil v
  | @cons cells r blocks reads hread hreads ih =>
    obtain ⟨hcells, hlen⟩ := List.forall_mem_cons.mp hlen
    rw [Grammar.untilCut, encodesBlocks_cons] at henc
    obtain ⟨⟨x, v'⟩, hx, henc⟩ := Outcome.bind_eq_done henc
    obtain ⟨tail, htail, henc⟩ := Outcome.bind_eq_done henc
    obtain rfl := Outcome.done.inj henc
    obtain ⟨hwithin, hfaithful⟩ := hread hx
    have hpadded : (padded x).length = cells.length := by
      rw [length_padded (hcells ▸ hwithin.length), hcells]
    rw [List.flatMap_cons, List.flatten_cons] at heq
    obtain ⟨hhead, hrest⟩ := List.append_inj heq hpadded
    obtain ⟨hblock, hwhole⟩ := hfaithful (256 - x.length) hhead.symm
    rw [hwhole, if_pos rfl] at htail
    exact .cons hblock (ih hlen htail hrest)

/-- Faithful blocks come back one after another. -/
theorem FaithfulBlocks.reads (h : FaithfulBlocks v blocks)
    (hlen : ∀ cells ∈ blocks, cells.length = 256) : ∃ bodies tokss css,
      List.Forall₂ Shown blocks bodies ∧
        List.Forall₂ (fun body r => Grammar.ReadAs p body r.1 r.2) bodies
          (tokss.map fun toks => (toks, true)) ∧
            encodesBlocks v tokss = .done css ∧ css.map padded = blocks := by
  induction h with
  | nil v => exact ⟨[], [], [], .nil, .nil, encodesBlocks_nil v, rfl⟩
  | @cons v v' cells blocks head rest ih =>
    obtain ⟨hcells, hlen⟩ := List.forall_mem_cons.mp hlen
    obtain ⟨body, toks, x, hshown, hread, henc, hpadded⟩ := head.readAs (p := p) hcells
    obtain ⟨bodies, tokss, css, hshowns, hreads, hencs, hpaddeds⟩ := ih hlen
    refine ⟨body :: bodies, toks :: tokss, x :: css, .cons hshown hshowns, .cons hread hreads,
      ?_, by rw [List.map_cons, hpadded, hpaddeds]⟩
    rw [encodesBlocks_cons, henc, Outcome.done_bind, hencs]
    rfl

theorem length_imageBlocks {image : List Cell} :
    ∀ cells ∈ imageBlocks image, cells.length = 256 := by
  intro cells hcells
  obtain ⟨n, hn, rfl⟩ := List.mem_map.mp hcells
  have hlt := List.mem_range.mp hn
  exact length_chunk (by omega)

theorem flatten_imageBlocks {image : List Cell} (h : 256 ∣ image.length) :
    (imageBlocks image).flatten = image := by
  rw [imageBlocks, flatten_chunks, Nat.mul_div_cancel' h, List.take_length]

/-- The functions found in what is printed for the blocks of an image. -/
theorem exists_reads (h : List.Forall₂ Shown blocks bodies) :
    ∃ reads, List.Forall₂ (fun body r => Grammar.ReadAs p body r.1 r.2) bodies reads ∧
      List.Forall₂ (fun cells (r : List Token × Bool) =>
        ∀ {v x v'}, encodes v r.1 = .done (x, v') → Within x cells ∧
          ∀ k, cells = x ++ List.replicate k 0 → Faithful v cells v' ∧ r.2 = true)
            blocks reads := by
  induction h with
  | nil => exact ⟨[], .nil, .nil⟩
  | cons hshown hshowns ih =>
    obtain ⟨reads, hreads, hblocks⟩ := ih
    obtain ⟨toks, whole, hread, hblock⟩ := Shown.readAs (p := p) hshown
    exact ⟨(toks, whole) :: reads, .cons hread hreads, .cons hblock hblocks⟩

theorem untilCut_whole (tokss : List (List Token)) :
    Grammar.untilCut (tokss.map fun toks => (toks, true)) = tokss := by
  induction tokss with
  | nil => rfl
  | cons toks tokss ih => simp [Grammar.untilCut, ih]

end image

/-- Text form and image are inverse for an image of complete blocks exactly when it has a block,
all of them are faithful, and a letter is printed by the end of the first one that is not zero. -/
theorem roundTrips_iff (p : Pyparsing) {image : List Cell} (h : 256 ∣ image.length) :
    RoundTrips p image ↔ image ≠ [] ∧ FaithfulBlocks false (imageBlocks image) ∧
      Heard false (imageBlocks image) := by
  have hflatten := flatten_imageBlocks h
  constructor
  · rintro ⟨fuel, text, htext, fuel', htocf⟩
    obtain ⟨bodies, hshown, hheard, rfl⟩ := (totext_iff text).mp ⟨fuel, htext⟩
    obtain ⟨reads, hreads, hblocks⟩ := exists_reads (p := p) hshown
    have hbodies : bodies ≠ [] := by
      rintro rfl
      have hend : Grammar.cf2text p [] = none :=
        p.oneOrMore_missing (Grammar.block_missing (by simp [Lib.skipBlanks]))
      rw [tocfText, imageText, p.parseString_eq (by simp), hend] at htocf
      cases htocf
    have hne : image ≠ [] := by
      rintro rfl
      exact hbodies (List.forall₂_nil_left_iff.mp hshown)
    obtain ⟨source, hsource, htokens⟩ := Grammar.image_found hreads hbodies
    rw [tocfText, hsource] at htocf
    obtain ⟨css, hcss, heq⟩ := (tocf_iff source image).mp ⟨fuel', htocf⟩
    rw [htokens] at hcss
    exact ⟨hne, faithfulBlocks_of_reads length_imageBlocks hblocks hcss (heq.trans hflatten.symm),
      hheard⟩
  · rintro ⟨hne, hfaithful, hheard⟩
    obtain ⟨bodies, tokss, css, hshown, hreads, henc, hcss⟩ :=
      hfaithful.reads (p := p) length_imageBlocks
    obtain ⟨fuel, htext⟩ := (totext_iff _).mpr ⟨bodies, hshown, hheard, rfl⟩
    have hbodies : bodies ≠ [] := by
      rintro rfl
      rw [List.forall₂_nil_right_iff.mp hshown] at hflatten
      exact hne hflatten.symm
    obtain ⟨source, hsource, htokens⟩ := Grammar.image_found hreads hbodies
    rw [untilCut_whole] at htokens
    rw [← htokens] at henc
    obtain ⟨fuel', hfuel⟩ := (tocf_iff source image).mpr ⟨css, henc, by
      rw [List.flatMap_def, hcss, hflatten]⟩
    refine ⟨fuel, _, htext, fuel', ?_⟩
    rw [tocfText, hsource]
    exact hfuel

/-- The image of a block with a single word. -/
def wordImage : List Cell := nameCell ['a'] 1 :: List.replicate 255 0

theorem roundTrips_wordImage : RoundTrips .reference wordImage := by
  have hblocks : imageBlocks wordImage = [wordImage] := by decide +kernel
  have hreadable : Readable [['a']] :=
    readable_single ⟨by decide, by decide, fits_single_code (by decide)⟩ (by decide)
  have hword : Faithful false (groupCells (getTagsForFunction .execute) false [['a']] ++
      List.replicate 255 0) false :=
    .word (by decide) hreadable (by decide) (.zeros false 255)
  have hcomplete : 256 ∣ wordImage.length := by
    rw [wordImage, List.length_cons, List.length_replicate]
  refine (roundTrips_iff .reference hcomplete).mpr ⟨List.cons_ne_nil _ _, ?_, ?_⟩
  · rw [hblocks]
    exact .cons hword (.nil false)
  · rw [hblocks]
    have hprints : printsText wordImage = true := by decide +kernel
    intro cells hcells
    rw [List.mem_singleton.mp (List.mem_of_find?_eq_some hcells), hprints]
    rfl

theorem exists_number_of_prints {word : Cell} {rest : List Cell} {lead : List Char}
    {toks : List Token} (h : Prints (word :: rest) lead toks)
    (htag : tmpTag word = 6 ∨ tmpTag word = 8 ∨ tmpTag word = 0xf) :
    ∃ text, numberText (word.sshiftRight 5) word = .done text := by
  cases h with
  | extension tag next => omega
  | name tag next => exact absurd htag (nameTags_kind tag).2.2.2.1
  | long tag number next => omega
  | longCut tag => omega
  | short tag number next => exact ⟨_, number⟩
  | valued tag number next => omega
  | variableCut tag => omega

/-- A block with a small number. -/
def shortText : List Char := "\x7bblock 0\x7d\nexecuteshort(5) ".toList

def shortImage : List Cell := 168#32 :: List.replicate 255 0

/-- The image is made from a text, but `totext` does not come to the end of its number. -/
theorem shortImage_stuck : tocfText .reference 10 shortText = .done shortImage ∧
    256 ∣ shortImage.length ∧ ¬ RoundTrips .reference shortImage := by
  have hcomplete : 256 ∣ shortImage.length := by
    rw [shortImage, List.length_cons, List.length_replicate]
  refine ⟨by decide +kernel, hcomplete, ?_⟩
  rintro ⟨fuel, text, htext, -⟩
  obtain ⟨bodies, hshown, -⟩ := (totext_iff text).mp ⟨fuel, htext⟩
  have hblocks : imageBlocks shortImage = [shortImage] := by decide +kernel
  rw [hblocks] at hshown
  obtain ⟨body, -, hbody, -⟩ := List.forall₂_cons_left_iff.mp hshown
  cases hbody with
  | zeros hzeros => exact hzeros ⟨168#32, List.mem_cons_self, by decide⟩
  | words hfilled hprints =>
    obtain ⟨number, hnumber⟩ := exists_number_of_prints hprints (.inr (.inl (by decide)))
    rw [numberText_eq, if_neg (by decide), if_neg (by decide)] at hnumber
    cases hnumber

end Einherjar.Colorforth
