import Einherjar.Colorforth.Reencoding

/-! The blocks whose text is turned back into the same cells. -/
namespace Einherjar.Colorforth
open Einherjar.Lib ParseCFBlockToText

/-- The numbers that come back: those that are printed in decimal, and of those that should be
printed in hexadecimal only zero. -/
def Shows (f : BlockFunction) (n : Cell) : Prop :=
  if fivebitFunction f = none then Printable n else n = 0

instance (f : BlockFunction) (n : Cell) : Decidable (Shows f n) := by
  unfold Shows
  infer_instance

/-- `Faithful v cells v'`: the rest `cells` of a block comes back, where `v` says that a variable
has no value yet, and `v'` that this is so after it. -/
inductive Faithful : Bool → List Cell → Bool → Prop
  | zeros (v : Bool) (k : ℕ) : Faithful v (List.replicate k 0) v
  | word {v v' : Bool} {f : BlockFunction} {groups : List (List Char)} {rest : List Cell}
      (function : f ∈ wordFunctions) (readable : Readable groups)
      (free : f = .compileWord → v = false) (next : Faithful v rest v') :
      Faithful v (groupCells (getTagsForFunction f) false groups ++ rest) v'
  | long {v v' : Bool} {f : BlockFunction} {n : Cell} {rest : List Cell}
      (function : f ∈ longFunctions) (shows : Shows f n) (next : Faithful v rest v') :
      Faithful v (BitVec.ofNat 32 (getTagsForFunction f) :: n :: rest) v'
  | short {v v' : Bool} {f : BlockFunction} {rest : List Cell} (function : f ∈ shortFunctions)
      (next : Faithful v rest v') :
      Faithful v (BitVec.ofNat 32 (getTagsForFunction f) :: rest) v'
  | valued {v v' : Bool} {g : List Char} {n : Cell} {rest : List Cell} (name : CellText g)
      (nonempty : g ≠ []) (value : Printable n) (next : Faithful false rest v') :
      Faithful v (nameCell g 12 :: n :: rest) v'
  | unfinished {v : Bool} {g : List Char} (name : CellText g) (nonempty : g ≠ []) :
      Faithful v [nameCell g 12] true

section segments

variable {word n : Cell} {cells rest x : List Cell} {v v₁ v' : Bool} {ts toks : List Token}

theorem natAbs_sshiftRight_lt (word : Cell) : (word.sshiftRight 5).toInt.natAbs < 10 ^ 9 := by
  have hlt := @BitVec.toInt_lt 32 word
  have hle := @BitVec.le_toInt 32 word
  rw [BitVec.toInt_sshiftRight, Int.shiftRight_eq_div_pow]
  simp only [Nat.add_one_sub_one] at hlt hle
  omega

/-- Words that are the cells of the functions printed for them, with zeros after them. -/
theorem Segment.faithful (h : Segment cells ts) (hne : ∀ tok ∈ ts, tok.2 ≠ [])
    (henc : encodes v ts = .done (x, v₁)) {k : ℕ} (heq : cells = x ++ List.replicate k 0)
    (next : Faithful v₁ rest v') : Faithful v (x ++ rest) v' := by
  cases h with
  | @name word exts tag more =>
    obtain ⟨hf, htagf, hcompile⟩ := tagFunction_name tag
    rcases encodes_name tag henc with ⟨-, i, hi, hr⟩ | ⟨hfree, groups, hcut, hrecut, hr⟩
    · -- the cell would be the number that its own letters denote
      obtain ⟨rfl, rfl⟩ := Prod.mk.inj hr
      obtain ⟨hword, hexts⟩ := List.cons.inj heq
      subst hexts
      have hshown : shown (word :: List.replicate k 0) = unpack word := by
        rw [← List.singleton_append, shown_append, shown_zeros]
        simp [shown]
      rw [show ([] : List Cell).append (List.replicate k 0) = List.replicate k 0 from rfl,
        hshown] at hi
      exact absurd hword.symm (ofInt_unpack_ne hi)
    · obtain ⟨rfl, rfl⟩ := Prod.mk.inj hr
      have hreadable := readable_of_recut (nameTags_kind tag).1 (hne _ List.mem_cons_self) hcut
        hrecut heq
      have hword := Faithful.word hf hreadable (fun hf => hfree (hcompile.mp hf)) next
      rwa [htagf] at hword
  | @long word n exts text tag number more =>
    obtain ⟨hf, htag, hhex⟩ := tagFunction_long tag (hexbit word)
    obtain ⟨i, hi, hread⟩ := encodes_number (List.mem_append_left _ hf) htag hhex number henc
    rw [encodes_long hf hi] at henc
    obtain ⟨rfl, rfl⟩ := Prod.mk.inj (Outcome.done.inj henc)
    obtain ⟨-, htail⟩ := List.cons.inj heq
    obtain ⟨hn, hexts⟩ := List.cons.inj htail
    obtain ⟨hvalue, hprintable⟩ := hread (by rw [hexts]; exact shown_zeros k)
      (hne _ List.mem_cons_self)
    refine .long hf ?_ next
    unfold Shows
    split_ifs with hnone
    · rw [← hn]
      exact hprintable hnone
    · have hbit : hexbit word = true := Bool.eq_true_of_not_eq_false fun h => hnone (hhex.mpr h)
      rw [hvalue, if_pos hbit]
      rfl
  | @short word exts text tag number more =>
    obtain ⟨hf, htag, hhex⟩ := tagFunction_short tag (hexbit word)
    obtain ⟨i, hi, hread⟩ := encodes_number (List.mem_append_right _ hf) htag hhex number henc
    rw [encodes_short hf hi] at henc
    obtain ⟨rfl, rfl⟩ := Prod.mk.inj (Outcome.done.inj henc)
    obtain ⟨-, hexts⟩ := List.cons.inj heq
    obtain ⟨hvalue, hprintable⟩ := hread (by rw [hexts]; exact shown_zeros k)
      (hne _ List.mem_cons_self)
    have hzero : i = 0 := by
      by_cases hbit : hexbit word = true
      · rw [hvalue, if_pos hbit]
      · have hnone := hhex.mpr (Bool.eq_false_iff.mpr hbit)
        rw [hvalue, if_neg hbit,
          (hprintable hnone).eq_zero (natAbs_sshiftRight_lt word)]
        rfl
    have hcell : (BitVec.ofInt 32 i <<< 5) +
        BitVec.ofNat 32 (getTagsForFunction (tagFunction (tmpTag word) (hexbit word))) =
          BitVec.ofNat 32 (getTagsForFunction (tagFunction (tmpTag word) (hexbit word))) := by
      rw [hzero]
      simp
    rw [hcell]
    exact .short hf next
  | @valued word n exts text tag number more =>
    obtain ⟨i, hr, hread⟩ := encodes_valued (hne _ List.mem_cons_self) tag number henc
    obtain ⟨rfl, rfl⟩ := Prod.mk.inj hr
    obtain ⟨-, htail⟩ := List.cons.inj heq
    obtain ⟨hn, hexts⟩ := List.cons.inj htail
    obtain ⟨-, hprintable⟩ := hread (by rw [hexts]; exact shown_zeros k)
    have hvalued := Faithful.valued (v := v) (cellText_unpack word).1
      (hne _ List.mem_cons_self) hprintable next
    rwa [nameCell_variable tag, hn] at hvalued

theorem ne_of_encodes_nil (h : trimmedLength cells ≠ 0) (henc : encodes v [] = .done (x, v'))
    (k : ℕ) : cells ≠ x ++ List.replicate k 0 := by
  rintro rfl
  rw [encodes_nil] at henc
  obtain ⟨rfl, rfl⟩ := Prod.mk.inj (Outcome.done.inj henc)
  exact h (trimmedLength_zeros k)

theorem Segments.eq_nil (h : Segments cells toks) (hcells : cells = []) : toks = [] := by
  cases h with
  | nil => rfl
  | cons head next =>
    have hhead := head.trimmed
    rw [(List.append_eq_nil_iff.mp hcells).1] at hhead
    exact absurd rfl hhead
  | longCut tag => cases hcells
  | variableCut tag => cases hcells

/-- Words that are the cells of all the functions read, with zeros after them. -/
theorem Segments.faithful (h : Segments cells toks) {k : ℕ}
    (henc : encodes v (parsed toks) = .done (x, v')) (heq : cells = x ++ List.replicate k 0) :
    Faithful v cells v' ∧ ∀ tok ∈ toks, tok.2 ≠ [] := by
  induction h generalizing v x v' k with
  | nil =>
    rw [show parsed [] = [] from rfl, encodes_nil] at henc
    obtain ⟨rfl, rfl⟩ := Prod.mk.inj (Outcome.done.inj henc)
    exact ⟨.zeros v 0, by simp⟩
  | @cons cells rest ts toks head next ih =>
    rcases head.parsed_append toks with ⟨hne, hparsed⟩ | hparsed
    · rw [hparsed, encodes_append] at henc
      obtain ⟨⟨x, v₁⟩, hx, henc⟩ := Outcome.bind_eq_done henc
      obtain ⟨⟨y, v₂⟩, hy, henc⟩ := Outcome.bind_eq_done henc
      obtain ⟨rfl, rfl⟩ := Prod.mk.inj (Outcome.done.inj henc)
      obtain ⟨j, m, hcells, hrest, hlast⟩ :=
        (head.within hne hx).split (next.within hy) next.trimmed heq
      obtain ⟨hfaithful, htoks⟩ := ih hy hrest
      refine ⟨?_, fun tok hmem => (List.mem_append.mp hmem).elim (hne tok) (htoks tok)⟩
      by_cases hj : j = 0
      · have hwords := head.faithful hne hx hcells hfaithful
        rwa [hcells, hj, List.replicate_zero, List.append_nil]
      · have hnil := hlast hj
        rw [next.eq_nil hnil, show parsed [] = [] from rfl, encodes_nil] at hy
        obtain ⟨-, rfl⟩ := Prod.mk.inj (Outcome.done.inj hy)
        rw [hnil, List.append_nil, hcells]
        exact head.faithful hne hx hcells (.zeros _ j)
    · rw [hparsed] at henc
      have htrimmed : trimmedLength (cells ++ rest) ≠ 0 := by
        have hhead := head.trimmed
        rw [trimmedLength_append]
        split_ifs <;> omega
      exact absurd heq (ne_of_encodes_nil htrimmed henc k)
  | @longCut word tag =>
    have hword : word ≠ 0 := ne_zero_of_tag (by omega)
    have htrimmed := (trimmedLength_cons_pos hword []).ne'
    exact absurd heq (ne_of_encodes_nil htrimmed henc k)
  | @variableCut word tag =>
    by_cases hword : unpack word = []
    · rw [hword] at henc
      have hnonzero : word ≠ 0 := ne_zero_of_tag (by omega)
      have htrimmed := (trimmedLength_cons_pos hnonzero []).ne'
      exact absurd heq (ne_of_encodes_nil htrimmed henc k)
    · rw [show parsed [(.variable, unpack word)] = [(.variable, unpack word)] by
        simp [parsed, hword], encodes_bare hword tag] at henc
      obtain ⟨rfl, rfl⟩ := Prod.mk.inj (Outcome.done.inj henc)
      have hunfinished := Faithful.unfinished (v := v) (cellText_unpack word).1 hword
      rw [nameCell_variable tag] at hunfinished
      exact ⟨hunfinished, by simpa using hword⟩

end segments

/-- Functions are printed for the cells, and read again they are the cells. -/
def ComesBack (v : Bool) (cells : List Cell) (v' : Bool) : Prop :=
  ∃ k rest toks x m, cells = List.replicate k 0 ++ rest ∧ (k = 0 ∨ rest = []) ∧
    Segments rest toks ∧ (∀ tok ∈ toks, tok.2 ≠ []) ∧ encodes v toks = .done (x, v') ∧
      rest = x ++ List.replicate m 0

section printing

variable {f : BlockFunction} {word n : Cell} {cells rest x : List Cell} {v v₁ v' : Bool}
  {ts : List Token}

theorem ComesBack.append (hts : ∀ k, Segment (x ++ List.replicate k 0) ts)
    (hne : ∀ tok ∈ ts, tok.2 ≠ []) (henc : encodes v ts = .done (x, v₁))
    (next : ComesBack v₁ rest v') : ComesBack v (x ++ rest) v' := by
  obtain ⟨k, rest, toks, y, m, rfl, hk, hsegments, htoks, hy, hrest⟩ := next
  have hencodes : encodes v (ts ++ toks) = .done (x ++ y, v') := by
    rw [encodes_append, henc, Outcome.done_bind, hy]
    rfl
  have hsegment := Segments.cons (hts k) hsegments
  rw [List.append_assoc] at hsegment
  have hall : ∀ tok ∈ ts ++ toks, tok.2 ≠ [] := fun tok hmem =>
    (List.mem_append.mp hmem).elim (hne tok) (htoks tok)
  rcases hk with rfl | rfl
  · exact ⟨0, _, _, _, m, rfl, .inl rfl, hsegment, hall, hencodes, by simp [hrest]⟩
  · obtain ⟨rfl, -⟩ := List.append_eq_nil_iff.mp hrest.symm
    exact ⟨0, _, _, _, k, rfl, .inl rfl, hsegment, hall, hencodes, by simp⟩

theorem tmpTag_nameCell {g : List Char} {tag : ℕ} (htag : tag < 16) :
    tmpTag (nameCell g tag) = tag := color_nameCell htag

theorem extends_zeros (k : ℕ) : Extends (List.replicate k 0) := by
  intro word hword
  rw [List.eq_of_mem_replicate hword]
  decide

theorem extends_groupCells (tag : ℕ) (groups : List (List Char)) :
    Extends (groupCells tag true groups) := by
  induction groups with
  | nil => simp [Extends, groupCells]
  | cons g gs ih =>
    have htag : tmpTag (nameCell g 0) = 0 := tmpTag_nameCell (by decide)
    exact List.forall_mem_cons.mpr ⟨htag, ih⟩

theorem segment_word (hf : f ∈ wordFunctions) {groups : List (List Char)}
    (hgroups : Readable groups) (k : ℕ) :
    Segment (groupCells (getTagsForFunction f) false groups ++ List.replicate k 0)
      [(f, groups.flatten)] := by
  have hself : ∀ f ∈ wordFunctions, tagFunction (getTagsForFunction f) false = f := by decide
  obtain ⟨hmem, -⟩ := tag_wordFunction hf
  have hlt := (nameTags_kind hmem).1
  have htexts := hgroups.unpack_cells hlt false
  obtain ⟨g, gs, rfl⟩ := List.exists_cons_of_ne_nil hgroups.nonempty
  have htag : tmpTag (nameCell g (getTagsForFunction f)) = getTagsForFunction f :=
    tmpTag_nameCell hlt
  have hmore : Extends (groupCells (getTagsForFunction f) true gs ++ List.replicate k 0) :=
    List.forall_mem_append.mpr ⟨extends_groupCells _ gs, extends_zeros k⟩
  have hname : tmpTag (nameCell g (getTagsForFunction f)) ∈ nameTags := by rwa [htag]
  have hsegment := Segment.name hname hmore
  have hshown : shown (groupCells (getTagsForFunction f) false (g :: gs) ++
      List.replicate k 0) = (g :: gs).flatten := by
    rw [shown_append, shown_zeros, List.append_nil, shown, htexts]
  rw [htag, hself f hf] at hsegment
  rw [← hshown]
  exact hsegment

theorem decimal_ne_nil (i : ℤ) : decimal i ≠ [] := by
  intro hnil
  have hread := int_decimal i
  rw [hnil, show int 10 [] = none by decide] at hread
  cases hread

/-- A number that comes back is printed, and read again. -/
theorem exists_numberText (hshows : Shows f n)
    (htag : getTagsForFunction f &&& 0b10000 ≠ 0 ↔ hexbit word = true)
    (hhex : fivebitFunction f = none ↔ hexbit word = false) :
    ∃ text, numberText n word = .done text ∧ text ≠ [] ∧
      taggedInt (getTagsForFunction f) text = some n.toInt := by
  have hread : ∃ text, numberText n word = .done text ∧ text ≠ [] ∧
      (if hexbit word then 0 else n.toInt) = n.toInt := by
    rw [numberText_eq]
    unfold Shows at hshows
    split_ifs at hshows with hnone
    · have hbit := hhex.mp hnone
      simp only [hbit, Bool.false_eq_true, if_false, if_pos hshows]
      exact ⟨_, rfl, decimal_ne_nil _, trivial⟩
    · have hbit : hexbit word = true := Bool.eq_true_of_not_eq_false fun h => hnone (hhex.mpr h)
      subst hshows
      simp only [hbit, if_true]
      exact ⟨_, rfl, by decide, by decide⟩
  obtain ⟨text, htext, hne, hvalue⟩ := hread
  refine ⟨text, htext, hne, ?_⟩
  rw [(taggedInt_numberText htext hne htag).1, hvalue]

theorem comesBack_long (hf : f ∈ longFunctions) (hshows : Shows f n)
    (next : ComesBack v rest v') :
    ComesBack v (BitVec.ofNat 32 (getTagsForFunction f) :: n :: rest) v' := by
  have hall : ∀ f ∈ longFunctions, ∀ word, word = BitVec.ofNat 32 (getTagsForFunction f) →
      (tmpTag word = 2 ∨ tmpTag word = 5) ∧ tagFunction (tmpTag word) (hexbit word) = f ∧
        (getTagsForFunction f &&& 0b10000 ≠ 0 ↔ hexbit word = true) ∧
          (fivebitFunction f = none ↔ hexbit word = false) := by
    intro f hf word hword
    subst hword
    revert f
    decide
  obtain ⟨htag, hself, hbit, hhex⟩ := hall f hf _ rfl
  obtain ⟨text, htext, hne, hread⟩ := exists_numberText hshows hbit hhex
  have hsegment : ∀ k, Segment
      ([BitVec.ofNat 32 (getTagsForFunction f), n] ++ List.replicate k 0) [(f, text)] := by
    intro k
    have hlong := Segment.long htag htext (extends_zeros k)
    rwa [hself, shown_zeros, List.append_nil] at hlong
  refine ComesBack.append hsegment (by simpa using hne) ?_ next
  rw [encodes_long hf hread, BitVec.ofInt_toInt]

theorem comesBack_short (hf : f ∈ shortFunctions) (next : ComesBack v rest v') :
    ComesBack v (BitVec.ofNat 32 (getTagsForFunction f) :: rest) v' := by
  have hall : ∀ f ∈ shortFunctions, ∀ word, word = BitVec.ofNat 32 (getTagsForFunction f) →
      (tmpTag word = 6 ∨ tmpTag word = 8 ∨ tmpTag word = 0xf) ∧
        tagFunction (tmpTag word) (hexbit word) = f ∧ word.sshiftRight 5 = 0 ∧
          (getTagsForFunction f &&& 0b10000 ≠ 0 ↔ hexbit word = true) ∧
            (fivebitFunction f = none ↔ hexbit word = false) := by
    intro f hf word hword
    subst hword
    revert f
    decide
  obtain ⟨htag, hself, hshift, hbit, hhex⟩ := hall f hf _ rfl
  have hshows : Shows f 0 := by
    unfold Shows
    split_ifs
    · exact .inl rfl
    · rfl
  obtain ⟨text, htext, hne, hread⟩ := exists_numberText hshows hbit hhex
  rw [← hshift] at htext
  have hsegment : ∀ k, Segment
      ([BitVec.ofNat 32 (getTagsForFunction f)] ++ List.replicate k 0) [(f, text)] := by
    intro k
    have hshort := Segment.short htag htext (extends_zeros k)
    rwa [hself, shown_zeros, List.append_nil] at hshort
  refine ComesBack.append hsegment (by simpa using hne) ?_ next
  rw [encodes_short hf hread]
  simp

theorem comesBack_valued {g : List Char} (hg : CellText g) (hne : g ≠ []) (hn : Printable n)
    (next : ComesBack false rest v') : ComesBack v (nameCell g 12 :: n :: rest) v' := by
  have htag : tmpTag (nameCell g 12) = 0xc := tmpTag_nameCell (by decide)
  have hunpack : unpack (nameCell g 12) = g :=
    unpack_textCell hg.letters hg.tight hg.fits (by decide)
  have htext : decimalText n = .done (decimal n.toInt) := by
    rw [decimalText, limit_printDec, if_pos hn]
  have hsegment : ∀ k, Segment ([nameCell g 12, n] ++ List.replicate k 0)
      [(.variable, g), (.compileWord, decimal n.toInt)] := by
    intro k
    have hvalued := Segment.valued htag htext (extends_zeros k)
    rwa [hunpack, shown_zeros, List.append_nil] at hvalued
  refine ComesBack.append hsegment (by simpa using ⟨hne, decimal_ne_nil _⟩) ?_ next
  have hword : unpack (nameCell g 12) ≠ [] := by rwa [hunpack]
  have hbare := encodes_bare hword htag v
  rw [hunpack] at hbare
  have happend := encodes_append v [(.variable, g)] [(.compileWord, decimal n.toInt)]
  rw [hbare, Outcome.done_bind, encodes_value (int_decimal _), BitVec.ofInt_toInt] at happend
  exact happend

theorem comesBack_unfinished {g : List Char} (hg : CellText g) (hne : g ≠ []) (v : Bool) :
    ComesBack v [nameCell g 12] true := by
  have htag : tmpTag (nameCell g 12) = 0xc := tmpTag_nameCell (by decide)
  have hunpack : unpack (nameCell g 12) = g :=
    unpack_textCell hg.letters hg.tight hg.fits (by decide)
  have hsegments := Segments.variableCut htag
  have hbare := encodes_bare (by rwa [hunpack]) htag v
  rw [hunpack] at hsegments hbare
  exact ⟨0, _, _, _, 0, rfl, .inl rfl, hsegments, by simpa using hne, hbare, by simp⟩

/-- Cells that are those of functions come back. -/
theorem Faithful.comesBack (h : Faithful v cells v') : ComesBack v cells v' := by
  induction h with
  | zeros v k => exact ⟨k, [], [], [], 0, by simp, .inr rfl, .nil, by simp, encodes_nil v, rfl⟩
  | word hf hgroups hfree next ih =>
    refine ComesBack.append (segment_word hf hgroups) (by simpa using hgroups.flatten_ne_nil) ?_ ih
    rw [encodes_word hf hfree, hgroups.cut]
    rfl
  | long hf hshows next ih => exact comesBack_long hf hshows ih
  | short hf next ih => exact comesBack_short hf ih
  | valued hg hne hn next ih => exact comesBack_valued hg hne hn ih
  | unfinished hg hne => exact comesBack_unfinished hg hne _

end printing

end Einherjar.Colorforth
