import Einherjar.Colorforth.Grammar
import Einherjar.Colorforth.PrintedBlocks

/-! What the converter's grammar finds in the text that `totext` prints for an image. -/
namespace Einherjar.Colorforth
open Einherjar.Lib

section letters

open ParseCFBlockToText

/-- The characters of the code have no meaning in the grammar. -/
theorem code_plain {c : Char} (h : c ∈ code) : c ≠ '(' ∧ c ≠ ')' ∧ c ≠ '\x7b' ∧ c ≠ '\t' := by
  have hall : ∀ c ∈ code, c ≠ '(' ∧ c ≠ ')' ∧ c ≠ '\x7b' ∧ c ≠ '\t' := by decide
  exact hall c h

theorem mem_decimal {v : ℤ} {c : Char} (h : c ∈ decimal v) : c ∈ code := by
  have hdigit : ∀ d < 10, Nat.digitChar d ∈ code := by decide
  have hnumeral : c ∈ numeral 10 v.natAbs → c ∈ code := fun hc => by
    obtain ⟨d, hd, rfl⟩ := mem_numeral hc
    exact hdigit d hd
  unfold decimal at h
  split_ifs at h
  · rcases List.mem_cons.mp h with rfl | hc
    · decide
    · exact hnumeral hc
  · exact hnumeral h

theorem mem_numberText {n word : Cell} {text : List Char} (h : numberText n word = .done text) :
    ∀ c ∈ text, c ∈ code := by
  rw [numberText_eq] at h
  split_ifs at h
  · obtain rfl := Outcome.done.inj h
    obtain ⟨k, hk⟩ := printHex_zeros n
    intro c hc
    rw [hk] at hc
    rw [List.eq_of_mem_replicate hc]
    decide
  · obtain rfl := Outcome.done.inj h
    exact fun c => mem_decimal

theorem mem_decimalText {n : Cell} {text : List Char} (h : decimalText n = .done text) :
    ∀ c ∈ text, c ∈ code := by
  rw [decimalText, limit_printDec] at h
  split_ifs at h
  obtain rfl := Outcome.done.inj h
  exact fun c => mem_decimal

/-- What stands for the words consists of characters of the code. -/
theorem ParseCFBlockToText.Prints.letters {cells : List Cell} {lead : List Char} {toks : List Token}
    (h : Prints cells lead toks) :
    (∀ c ∈ lead, c ∈ code) ∧ ∀ tok ∈ toks, ∀ c ∈ tok.2, c ∈ code := by
  have hword : ∀ word : Cell, ∀ c ∈ unpack word, c ∈ code := fun word =>
    (cellText_unpack word).1.letters
  induction h with
  | nil => simp
  | @extension word rest lead toks tag next ih =>
    exact ⟨List.forall_mem_append.mpr ⟨hword word, ih.1⟩, ih.2⟩
  | @name word rest lead toks tag next ih =>
    exact ⟨by simp, List.forall_mem_cons.mpr
      ⟨List.forall_mem_append.mpr ⟨hword word, ih.1⟩, ih.2⟩⟩
  | long tag number next ih =>
    exact ⟨by simp, List.forall_mem_cons.mpr
      ⟨List.forall_mem_append.mpr ⟨mem_numberText number, ih.1⟩, ih.2⟩⟩
  | longCut tag => simp
  | short tag number next ih =>
    exact ⟨by simp, List.forall_mem_cons.mpr
      ⟨List.forall_mem_append.mpr ⟨mem_numberText number, ih.1⟩, ih.2⟩⟩
  | @valued word n rest text lead toks tag number next ih =>
    exact ⟨by simp, List.forall_mem_cons.mpr ⟨hword word, List.forall_mem_cons.mpr
      ⟨List.forall_mem_append.mpr ⟨mem_decimalText number, ih.1⟩, ih.2⟩⟩⟩
  | @variableCut word tag => exact ⟨by simp, by simpa using hword word⟩

end letters

namespace Grammar

variable {p : Pyparsing} {body next s : List Char} {toks : List Token} {whole : Bool}

/-- The grammar finds the functions `toks` in what is printed for a block; unless that is all of
it, no block is found after them. -/
structure ReadAs (p : Pyparsing) (body : List Char) (toks : List Token) (whole : Bool) :
    Prop where
  found : ∀ {next : List Char}, Opens next → ∃ rest,
    p.zeroOrMore (function p) ('\n' :: (body ++ next)) = some (toks, rest) ∧
      rest.length ≤ (body ++ next).length + 1 ∧
      (whole = true → Lib.skipBlanks rest = next) ∧ (whole = false → block p rest = none)
  tabs : '\t' ∉ body

theorem newline_blank : ∀ c ∈ ['\n'], isBlank c = true := by decide

theorem readAs_closed (h : ∀ tok ∈ toks, ∀ c ∈ tok.2, c ∈ code) :
    ReadAs p (closed toks) (parsed toks) (decide (∀ tok ∈ toks, tok.2 ≠ [])) where
  found hnext := by
    have hproper := proper_printedFunctions
      fun tok htok hmem => (code_plain (h tok htok _ hmem)).2.1 rfl
    obtain ⟨rest, hrest, hlen, hwhole, hcut⟩ := functions_found (p := p) hproper
      (fun f hf hgap => absurd hgap (gap_of_mem_printedFunctions hf).2.1) newline_blank hnext
    rw [flatMap_printedFunctions, foundTokens_printedFunctions] at hrest
    rw [flatMap_printedFunctions] at hlen
    refine ⟨rest, hrest, hlen, fun hall => hwhole ?_, fun hall => hcut ?_⟩
    · exact forall_found_printedFunctions.mpr (of_decide_eq_true hall)
    · by_contra hnone
      push Not at hnone
      exact of_decide_eq_false hall (forall_found_printedFunctions.mp hnone)
  tabs := by
    induction toks with
    | nil => simp [closed]
    | cons tok toks ih =>
      obtain ⟨htok, htoks⟩ := List.forall_mem_cons.mp h
      have hname : '\t' ∉ functionName tok.1 := fun hmem => (mem_functionName hmem).2.2.2.1 rfl
      have hparam : '\t' ∉ tok.2 := fun hmem => (code_plain (htok _ hmem)).2.2.2 rfl
      have hgap : '\t' ∉ gap toks := fun hmem => (mem_gap hmem).2 rfl
      simp [closed, hname, hparam, hgap, ih htoks]

theorem readAs_zeros : ReadAs p [] [] true := by
  have hnone := readAs_closed (p := p)
    (List.forall_mem_nil fun tok : Token => ∀ c ∈ tok.2, c ∈ code)
  simpa [closed, parsed] using hnone

theorem mem_head_skipBlanks {w : List Char} {c : Char}
    (h : c ∈ (Lib.skipBlanks (w ++ ')' :: s)).head?) : c ∈ w ∨ c = ')' := by
  induction w with
  | nil =>
    rw [List.nil_append, skipBlanks_of_head (by rintro d ⟨⟩; decide)] at h
    exact .inr (by simpa using h.symm)
  | cons d w ih =>
    by_cases hd : isBlank d = true
    · rw [List.cons_append, Lib.skipBlanks, List.dropWhile_cons_of_pos hd] at h
      exact (ih h).imp_left (List.mem_cons_of_mem d)
    · rw [List.cons_append, Lib.skipBlanks, List.dropWhile_cons_of_neg hd] at h
      obtain rfl : d = c := by simpa using h
      exact .inl List.mem_cons_self

/-- Nothing is read where the end of a function comes first. -/
theorem readAs_inside {lead : List Char} (hlead : ∀ c ∈ lead, c ∈ code)
    (hbody : '\t' ∉ s) : ReadAs p (lead ++ ')' :: s) [] false where
  found {next} hnext := by
    have hopen : '(' ∉ '\n' :: lead := by
      rw [List.mem_cons, not_or]
      exact ⟨by decide, fun hmem => (code_plain (hlead _ hmem)).1 rfl⟩
    have hend := p.zeroOrMore_end (function_missing_inside (p := p) hopen (s ++ next))
    refine ⟨_, by simpa using hend, by simp, by simp, fun _ => block_missing fun c hc => ?_⟩
    have hhead := mem_head_skipBlanks (w := '\n' :: lead) hc
    rw [List.mem_cons] at hhead
    rcases hhead with (rfl | hmem) | rfl
    · decide
    · exact (code_plain (hlead c hmem)).2.2.1
    · decide
  tabs := by
    have hplain : '\t' ∉ lead := fun hmem => (code_plain (hlead _ hmem)).2.2.2 rfl
    simp [hplain, hbody]

/-- The blocks that are found, up to the first one that is not read as a whole. -/
def untilCut : List (List Token × Bool) → List (List Token)
  | [] => []
  | r :: rs => r.1 :: if r.2 then untilCut rs else []

theorem header_append (number : ℕ) (s : List Char) : header number ++ s =
    "\x7bblock ".toList ++ (numeral 10 number ++ '\x7d' :: '\n' :: s) := by
  have hclose : "\x7d\n".toList = ['\x7d', '\n'] := by simp
  unfold header
  rw [hclose]
  simp only [List.append_assoc, List.cons_append, List.nil_append]

theorem opens_imageText (number : ℕ) (bodies : List (List Char)) :
    Opens (imageText number bodies) := by
  cases bodies with
  | nil => simp [Opens, imageText]
  | cons body bodies =>
    have hopen : "\x7bblock ".toList = ['\x7b', 'b', 'l', 'o', 'c', 'k', ' '] := by simp
    rw [imageText, header_append, hopen]
    rintro c ⟨⟩
    rfl

theorem block_found (h : ReadAs p body toks whole) (hnext : Opens next) {number : ℕ}
    (hs : Lib.skipBlanks s = header number ++ (body ++ next)) : ∃ n rest,
      block p s = some (⟨n, toks⟩, rest) ∧ rest.length < s.length ∧
        (whole = true → Lib.skipBlanks rest = next) ∧ (whole = false → block p rest = none) := by
  obtain ⟨rest, hrest, hlen, hwhole, hcut⟩ := h.found hnext
  have hdigit : ∀ d < 10, Nat.digitChar d ∈ nums := by decide
  have hnumeral : ∀ c ∈ numeral 10 number, c ∈ nums := by
    intro c hc
    obtain ⟨d, hd, rfl⟩ := mem_numeral hc
    exact hdigit d hd
  have hnoBlank := List.forall_mem_nil fun c => isBlank c = true
  rw [header_append] at hs
  obtain ⟨hblock, hless⟩ := block_found_of_tail hnoBlank (numeral_ne_nil 10 number) hnumeral hnoBlank
    hs hrest hlen
  exact ⟨_, rest, hblock, hless, hwhole, hcut⟩

/-- The functions of the blocks that are found in the text of an image. -/
theorem blocks_found {bodies : List (List Char)} {reads : List (List Token × Bool)}
    (h : List.Forall₂ (fun body r => ReadAs p body r.1 r.2) bodies reads) {number : ℕ}
    (hs : Lib.skipBlanks s = imageText number bodies) : ∃ blocks rest,
      p.zeroOrMore (block p) s = some (blocks, rest) ∧
        blocks.map SourceBlock.tokens = untilCut reads := by
  induction h generalizing number s with
  | nil =>
    have hend := p.zeroOrMore_end (block_missing (p := p) (s := s) (by rw [hs]; simp [imageText]))
    exact ⟨[], s, hend, rfl⟩
  | @cons body r bodies reads hread hreads ih =>
    obtain ⟨n, rest, hblock, hless, hwhole, hcut⟩ :=
      block_found hread (opens_imageText (number + 1) bodies) hs
    cases hr : r.2 with
    | true =>
      obtain ⟨blocks, rest', hblocks, htokens⟩ := ih (hwhole hr)
      refine ⟨⟨n, r.1⟩ :: blocks, rest', ?_, ?_⟩
      · rw [p.zeroOrMore_next hblock hless, hblocks]
        rfl
      · rw [List.map_cons, htokens, untilCut, hr, if_pos rfl]
    | false =>
      refine ⟨[⟨n, r.1⟩], rest, ?_, ?_⟩
      · rw [p.zeroOrMore_next hblock hless, p.zeroOrMore_end (hcut hr)]
        rfl
      · rw [untilCut, hr]
        rfl

theorem tabs_imageText {bodies : List (List Char)} (h : ∀ body ∈ bodies, '\t' ∉ body)
    (number : ℕ) : '\t' ∉ imageText number bodies := by
  induction bodies generalizing number with
  | nil => simp [imageText]
  | cons body bodies ih =>
    obtain ⟨hbody, hbodies⟩ := List.forall_mem_cons.mp h
    have hopen : '\t' ∉ "\x7bblock ".toList := by simp
    have hdigit : ∀ d < 10, Nat.digitChar d ≠ '\t' := by decide
    have hnumeral : '\t' ∉ numeral 10 number := fun hmem => by
      obtain ⟨d, hd, heq⟩ := mem_numeral hmem
      exact hdigit d hd heq.symm
    rw [imageText, header_append]
    simp only [List.mem_append, List.mem_cons, not_or]
    exact ⟨hopen, hnumeral, by decide, by decide, hbody, ih hbodies _⟩

/-- What the grammar finds in the text of an image of one block or more. -/
theorem image_found {bodies : List (List Char)} {reads : List (List Token × Bool)}
    (h : List.Forall₂ (fun body r => ReadAs p body r.1 r.2) bodies reads) (hne : bodies ≠ []) :
    ∃ blocks, p.parseString (cf2text p) (imageText 0 bodies) = some blocks ∧
      blocks.map SourceBlock.tokens = untilCut reads := by
  have htabs : ∀ body ∈ bodies, '\t' ∉ body := by
    have hboth := h.imp fun body r hread => And.intro hread.tabs hread
    exact ((List.forall₂_and_left _ _).mp hboth).1
  rw [p.parseString_eq (tabs_imageText htabs 0), cf2text]
  cases h with
  | nil => exact absurd rfl hne
  | @cons body r bodies reads hread hreads =>
    have hskip := (opens_imageText 0 (body :: bodies)).skipBlanks
    obtain ⟨n, rest, hblock, hless, -⟩ := block_found hread (opens_imageText 1 bodies) hskip
    obtain ⟨blocks, rest', hblocks, htokens⟩ := blocks_found (p := p) (.cons hread hreads) hskip
    rw [p.zeroOrMore_next hblock hless] at hblocks
    refine ⟨blocks, ?_, htokens⟩
    rw [p.oneOrMore_next hblock hless, hblocks]
    rfl

end Grammar

end Einherjar.Colorforth
