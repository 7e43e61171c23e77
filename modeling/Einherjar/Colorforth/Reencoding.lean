import Einherjar.Colorforth.Converter
import Einherjar.Colorforth.Segments
import Mathlib.Data.BitVec

/-! What the converter makes of the functions that `totext` prints: never more cells than they
were printed for, and the same ones only if the cells are those of readable functions. -/
namespace Einherjar.Colorforth
open Einherjar.Lib ParseCFBlockToText

/-- What the functions come to, and whether a variable is without a value after them. -/
noncomputable def encodes (inVariable : Bool) (toks : List Token) : Outcome (List Cell × Bool) :=
  Outcome.limit fun fuel => encodeTokens fuel inVariable toks

/-- The functions whose parameter is a word, but the variable. -/
def wordFunctions : List BlockFunction := nameFunctions ++ [.compilerFeedback, .displayMacro]

section encoding

variable {f : BlockFunction} {inVariable : Bool} {param : List Char} {r : List Cell × Bool}

theorem encodes_nil (inVariable : Bool) : encodes inVariable [] = .done ([], inVariable) :=
  Outcome.limit_const _

theorem encodes_append (inVariable : Bool) (ts toks : List Token) :
    encodes inVariable (ts ++ toks) = (encodes inVariable ts).bind fun head =>
      (encodes head.2 toks).bind fun tail => .done (head.1 ++ tail.1, tail.2) := by
  unfold encodes
  simp only [encodeTokens_append]
  have hmono : ∀ head : List Cell × Bool, Monotone fun fuel =>
      (encodeTokens fuel head.2 toks).bind fun tail =>
        Outcome.done (head.1 ++ tail.1, tail.2) := fun head _ _ hab =>
    Outcome.bind_mono (encodeTokens_mono _ _ hab) fun _ => le_rfl
  rw [Outcome.limit_bind (encodeTokens_mono _ _) hmono]
  congr 1
  funext head
  rw [Outcome.limit_bind (encodeTokens_mono _ _) fun _ _ _ _ => le_rfl]
  simp only [Outcome.limit_const]

theorem encodes_single (inVariable : Bool) (f : BlockFunction) (param : List Char) :
    encodes inVariable [(f, param)] = Outcome.limit fun fuel =>
      wordToLongArray fuel (if f = .variable then true else inVariable) f param := by
  unfold encodes
  simp only [encodeTokens, functionAction, Outcome.done_bind, List.append_nil, Prod.mk.eta,
    Outcome.bind_done]

theorem tag_wordFunction (hf : f ∈ wordFunctions) :
    getTagsForFunction f ∈ nameTags ∧ f ∉ longFunctions ∧ f ∉ shortFunctions ∧ f ≠ .variable := by
  revert f
  decide

theorem limit_wordToLongArray (hlong : f ∉ longFunctions) (hshort : f ∉ shortFunctions)
    (hfree : ¬ (f = .compileWord ∧ inVariable = true)) (htag : getTagsForFunction f < 16) :
    (Outcome.limit fun fuel => wordToLongArray fuel inVariable f param) =
      (cutCells [] param).bind fun groups =>
        .done (groupCells (getTagsForFunction f) false groups, inVariable) := by
  unfold wordToLongArray
  simp only [if_neg hlong, if_neg hshort, if_neg hfree]
  rw [Outcome.limit_bind (packWord_mono _ _) fun _ _ _ _ => le_rfl, limit_packWord htag,
    Outcome.bind_assoc]
  simp only [Outcome.limit_const, Outcome.done_bind]

theorem encodes_word (hf : f ∈ wordFunctions) (hfree : f = .compileWord → inVariable = false) :
    encodes inVariable [(f, param)] = (cutCells [] param).bind fun groups =>
      .done (groupCells (getTagsForFunction f) false groups, inVariable) := by
  obtain ⟨htag, hlong, hshort, hvar⟩ := tag_wordFunction hf
  rw [encodes_single, if_neg hvar]
  refine limit_wordToLongArray hlong hshort (fun h => ?_) (nameTags_kind htag).1
  rw [hfree h.1] at h
  exact absurd h.2 (by decide)

theorem encodes_variable (inVariable : Bool) (param : List Char) :
    encodes inVariable [(.variable, param)] = (cutCells [] param).bind fun groups =>
      .done (groupCells 12 false groups, true) := by
  rw [encodes_single, if_pos rfl]
  exact limit_wordToLongArray (by decide) (by decide) (by decide) (by decide)

theorem encodes_long (hf : f ∈ longFunctions) {v : ℤ}
    (hv : taggedInt (getTagsForFunction f) param = some v) (inVariable : Bool) :
    encodes inVariable [(f, param)] =
      .done ([BitVec.ofNat 32 (getTagsForFunction f), BitVec.ofInt 32 v], inVariable) := by
  have hvar : ∀ f ∈ longFunctions, f ≠ .variable := by decide
  rw [encodes_single, if_neg (hvar f hf)]
  simp only [wordToLongArray_long hf hv, Outcome.limit_const]

theorem encodes_short (hf : f ∈ shortFunctions) {v : ℤ}
    (hv : taggedInt (getTagsForFunction f) param = some v) (inVariable : Bool) :
    encodes inVariable [(f, param)] =
      .done ([(BitVec.ofInt 32 v <<< 5) + BitVec.ofNat 32 (getTagsForFunction f)],
        inVariable) := by
  have hvar : ∀ f ∈ shortFunctions, f ≠ .variable := by decide
  rw [encodes_single, if_neg (hvar f hf)]
  simp only [wordToLongArray_short hf hv, Outcome.limit_const]

theorem encodes_value {v : ℤ} (hv : int 10 param = some v) :
    encodes true [(.compileWord, param)] = .done ([BitVec.ofInt 32 v], false) := by
  rw [encodes_single, if_neg (by decide)]
  simp only [wordToLongArray_value hv, Outcome.limit_const]

/-- A number that is not one stops the converter. -/
theorem exists_number_of_encodes (hf : f ∈ longFunctions ++ shortFunctions)
    (h : encodes inVariable [(f, param)] = .done r) :
    ∃ v, taggedInt (getTagsForFunction f) param = some v := by
  have hvar : ∀ f ∈ longFunctions ++ shortFunctions, f ≠ .variable := by decide
  rw [encodes_single, if_neg (hvar f hf)] at h
  cases hv : taggedInt (getTagsForFunction f) param with
  | some v => exact ⟨v, rfl⟩
  | none =>
    rcases List.mem_append.mp hf with hlong | hshort
    · simp [wordToLongArray, hlong, hv] at h
    · by_cases hlong : f ∈ longFunctions <;> simp [wordToLongArray, hlong, hshort, hv] at h

theorem exists_value_of_encodes (h : encodes true [(.compileWord, param)] = .done r) :
    ∃ v, int 10 param = some v := by
  rw [encodes_single, if_neg (by decide)] at h
  have hlong : BlockFunction.compileWord ∉ longFunctions := by decide
  have hshort : BlockFunction.compileWord ∉ shortFunctions := by decide
  cases hv : int 10 param with
  | some v => exact ⟨v, rfl⟩
  | none => simp [wordToLongArray, hlong, hshort, hv] at h

end encoding

section tags

variable {word n : Cell} {exts : List Cell} {text : List Char} {inVariable : Bool}
  {r : List Cell × Bool}

theorem tagFunction_name {t : ℕ} (ht : t ∈ nameTags) : tagFunction t false ∈ wordFunctions ∧
    getTagsForFunction (tagFunction t false) = t ∧
      (tagFunction t false = .compileWord ↔ t = 4) := by
  revert t
  decide

theorem tagFunction_long {t : ℕ} (ht : t = 2 ∨ t = 5) (hexbit : Bool) :
    tagFunction t hexbit ∈ longFunctions ∧
      (getTagsForFunction (tagFunction t hexbit) &&& 0b10000 ≠ 0 ↔ hexbit = true) ∧
        (fivebitFunction (tagFunction t hexbit) = none ↔ hexbit = false) := by
  rcases ht with rfl | rfl <;> cases hexbit <;> decide

theorem tagFunction_short {t : ℕ} (ht : t = 6 ∨ t = 8 ∨ t = 0xf) (hexbit : Bool) :
    tagFunction t hexbit ∈ shortFunctions ∧
      (getTagsForFunction (tagFunction t hexbit) &&& 0b10000 ≠ 0 ↔ hexbit = true) ∧
        (fivebitFunction (tagFunction t hexbit) = none ↔ hexbit = false) := by
  rcases ht with rfl | rfl | rfl <;> cases hexbit <;> decide

theorem ne_zero_of_tag (h : tmpTag word ≠ 0) : word ≠ 0 := by
  rintro rfl
  exact h (by decide)

/-- What is read in the text of a number. -/
theorem taggedInt_numberText (h : numberText n word = .done text) (hne : text ≠ []) {tag : ℕ}
    (htag : tag &&& 0b10000 ≠ 0 ↔ hexbit word = true) :
    taggedInt tag text = some (if hexbit word then 0 else n.toInt) ∧
      (hexbit word = false → Printable n) := by
  rw [numberText_eq] at h
  unfold taggedInt
  simp only [htag]
  by_cases hbit : hexbit word = true
  · rw [if_pos hbit] at h
    obtain rfl := Outcome.done.inj h
    obtain ⟨k, hk⟩ := printHex_zeros n
    cases k with
    | zero => exact absurd hk hne
    | succ k =>
      rw [if_pos hbit, if_pos hbit, hk, int_zeros]
      exact ⟨rfl, fun hfalse => by rw [hfalse] at hbit; cases hbit⟩
  · rw [if_neg hbit] at h
    split_ifs at h with hprintable
    obtain rfl := Outcome.done.inj h
    rw [if_neg hbit, if_neg hbit, int_decimal]
    exact ⟨rfl, fun _ => hprintable⟩

theorem int_decimalText (h : decimalText n = .done text) :
    int 10 text = some n.toInt ∧ Printable n := by
  rw [decimalText, limit_printDec] at h
  split_ifs at h with hprintable
  obtain rfl := Outcome.done.inj h
  exact ⟨int_decimal _, hprintable⟩

end tags

section segments

variable {word n : Cell} {exts cells : List Cell} {text : List Char} {inVariable : Bool}
  {r : List Cell × Bool} {ts : List Token}

/-- Only in a variable that has no value yet is a word read as a number. -/
theorem encodes_name (htag : tmpTag word ∈ nameTags)
    (h : encodes inVariable [(tagFunction (tmpTag word) false, shown cells)] = .done r) :
    (inVariable = true ∧ ∃ i, int 10 (shown cells) = some i ∧ r = ([BitVec.ofInt 32 i], false)) ∨
      (tmpTag word = 4 → inVariable = false) ∧ ∃ groups, cutCells [] (shown cells) = .done groups ∧
        Recut (cells.map unpack) groups ∧
          r = (groupCells (tmpTag word) false groups, inVariable) := by
  obtain ⟨hf, htagf, hcompile⟩ := tagFunction_name htag
  by_cases hvalue : tmpTag word = 4 ∧ inVariable = true
  · obtain ⟨h4, rfl⟩ := hvalue
    rw [hcompile.mpr h4] at h
    obtain ⟨i, hi⟩ := exists_value_of_encodes h
    rw [encodes_value hi] at h
    exact .inl ⟨rfl, i, hi, (Outcome.done.inj h).symm⟩
  · have hfree : tmpTag word = 4 → inVariable = false := fun h4 =>
      Bool.eq_false_iff.mpr fun hv => hvalue ⟨h4, hv⟩
    rw [encodes_word hf (fun hf => hfree (hcompile.mp hf)), htagf] at h
    have htexts : ∀ t ∈ cells.map unpack, CellText t := by
      intro t ht
      obtain ⟨c, -, rfl⟩ := List.mem_map.mp ht
      exact (cellText_unpack c).1
    obtain ⟨groups, hcut, hrecut⟩ := exists_recut htexts
    have hcut' : cutCells [] (shown cells) = .done groups := hcut
    rw [hcut'] at h
    exact .inr ⟨hfree, groups, hcut', hrecut, (Outcome.done.inj h).symm⟩

theorem encodes_number {f : BlockFunction} (hf : f ∈ longFunctions ++ shortFunctions)
    (htag : getTagsForFunction f &&& 0b10000 ≠ 0 ↔ hexbit word = true)
    (hhex : fivebitFunction f = none ↔ hexbit word = false)
    (hnumber : numberText n word = .done text)
    (h : encodes inVariable [(f, text ++ shown exts)] = .done r) :
    ∃ i, taggedInt (getTagsForFunction f) (text ++ shown exts) = some i ∧
      (shown exts = [] → text ++ shown exts ≠ [] →
        i = (if hexbit word then 0 else n.toInt) ∧
          (fivebitFunction f = none → Printable n)) := by
  obtain ⟨i, hi⟩ := exists_number_of_encodes hf h
  refine ⟨i, hi, fun hshown hne => ?_⟩
  rw [hshown, List.append_nil] at hi hne
  obtain ⟨hread, hprintable⟩ := taggedInt_numberText hnumber hne htag
  exact ⟨Option.some.inj (hi.symm.trans hread), fun hnone => hprintable (hhex.mp hnone)⟩

/-- The text of a single cell is not divided. -/
theorem readable_single {g : List Char} (hg : CellText g) (hne : g ≠ []) : Readable [g] :=
  ⟨by simp, by simpa using hne, by simpa using hg, by simp⟩

theorem nameCell_variable (htag : tmpTag word = 0xc) : nameCell (unpack word) 12 = word := by
  have hself := nameCell_unpack word
  rwa [← toNat_color, show (word &&& 0xf#32).toNat = 12 from htag] at hself

/-- A variable and its value. -/
theorem encodes_valued (hword : unpack word ≠ []) (htag : tmpTag word = 0xc)
    (hnumber : decimalText n = .done text)
    (h : encodes inVariable [(.variable, unpack word), (.compileWord, text ++ shown exts)] =
      .done r) :
    ∃ i, r = ([word, BitVec.ofInt 32 i], false) ∧
      (shown exts = [] → i = n.toInt ∧ Printable n) := by
  have happend := encodes_append inVariable [(.variable, unpack word)]
    [(.compileWord, text ++ shown exts)]
  have hcut := (readable_single (cellText_unpack word).1 hword).cut
  rw [List.flatten_singleton] at hcut
  rw [List.singleton_append, h, encodes_variable, hcut] at happend
  simp only [Outcome.done_bind] at happend
  obtain ⟨tail, htail, hr⟩ := Outcome.bind_eq_done happend.symm
  obtain ⟨i, hi⟩ := exists_value_of_encodes htail
  rw [encodes_value hi] at htail
  obtain rfl := Outcome.done.inj htail
  obtain rfl := Outcome.done.inj hr
  refine ⟨i, ?_, fun hshown => ?_⟩
  · simp [groupCells, nameCell_variable htag]
  · obtain ⟨hread, hprintable⟩ := int_decimalText hnumber
    rw [hshown, List.append_nil] at hi
    exact ⟨Option.some.inj (hi.symm.trans hread), hprintable⟩

theorem shown_of_zeros (h : ∀ word ∈ exts, word = 0) : shown exts = [] := by
  rw [List.eq_replicate_of_mem h]
  exact shown_zeros _

/-- A number after a word is zero again when it was zero and nothing follows it. -/
theorem within_pair {w value : Cell} (hword : word ≠ 0)
    (hvalue : n = 0 → shown exts = [] → value = 0) :
    Within [w, value] (word :: n :: exts) := by
  have hpos := trimmedLength_cons_pos hword (n :: exts)
  by_cases hrest : trimmedLength (n :: exts) = 0
  · obtain ⟨hn, hexts⟩ := List.forall_mem_cons.mp (trimmedLength_eq_zero_iff.mp hrest)
    have hzero := hvalue hn (shown_of_zeros hexts)
    have hlast : trimmedLength [value] = 0 := trimmedLength_eq_zero_iff.mpr (by simp [hzero])
    refine ⟨by simp, ?_⟩
    rw [trimmedLength, hlast]
    split_ifs <;> omega
  · refine .of_length_le ?_
    rw [trimmedLength, if_neg fun h => hrest h.1]
    simp
    omega

theorem countP_le_trimmedLength (cells : List Cell) :
    (cells.map unpack).countP (· ≠ []) ≤ trimmedLength cells := by
  induction cells with
  | nil => exact le_rfl
  | cons c cells ih =>
    rw [List.map_cons, trimmedLength]
    by_cases hc : unpack c = []
    · rw [List.countP_cons_of_neg (by simp [hc])]
      split_ifs <;> omega
    · have hzero : c ≠ 0 := by
        rintro rfl
        exact hc (by decide)
      rw [List.countP_cons_of_pos (by simp [hc]), if_neg fun h => hzero h.2]
      omega

theorem length_groupCells (tag : ℕ) (extensionMode : Bool) (groups : List (List Char)) :
    (groupCells tag extensionMode groups).length = groups.length := by
  induction groups generalizing extensionMode with
  | nil => rfl
  | cons g gs ih => rw [groupCells, List.length_cons, ih, List.length_cons]

/-- The functions are not encoded in more cells than they were printed for. -/
theorem Segment.within (h : Segment cells ts) (hne : ∀ tok ∈ ts, tok.2 ≠ [])
    (henc : encodes inVariable ts = .done r) : Within r.1 cells := by
  cases h with
  | @name word exts tag more =>
    have hword : word ≠ 0 := ne_zero_of_tag (nameTags_kind tag).2.1
    rcases encodes_name tag henc with ⟨-, i, -, rfl⟩ | ⟨-, groups, -, hrecut, rfl⟩
    · exact .of_length_le (trimmedLength_cons_pos hword exts)
    · refine .of_length_le ?_
      rw [length_groupCells]
      exact hrecut.length.trans (countP_le_trimmedLength _)
  | @long word n exts text tag number more =>
    obtain ⟨hf, htag, hhex⟩ := tagFunction_long tag (hexbit word)
    have hword : word ≠ 0 := ne_zero_of_tag (by omega)
    obtain ⟨i, hi, hread⟩ := encodes_number (List.mem_append_left _ hf) htag hhex number henc
    rw [encodes_long hf hi] at henc
    obtain rfl := Outcome.done.inj henc
    refine within_pair hword fun hn hshown => ?_
    rw [(hread hshown (hne _ List.mem_cons_self)).1, hn]
    split_ifs <;> rfl
  | @short word exts text tag number more =>
    obtain ⟨hf, htag, hhex⟩ := tagFunction_short tag (hexbit word)
    have hword : word ≠ 0 := ne_zero_of_tag (by omega)
    obtain ⟨i, hi, -⟩ := encodes_number (List.mem_append_right _ hf) htag hhex number henc
    rw [encodes_short hf hi] at henc
    obtain rfl := Outcome.done.inj henc
    exact .of_length_le (trimmedLength_cons_pos hword exts)
  | @valued word n exts text tag number more =>
    have hword : word ≠ 0 := ne_zero_of_tag (by omega)
    obtain ⟨i, rfl, hread⟩ := encodes_valued (hne _ List.mem_cons_self) tag number henc
    refine within_pair hword fun hn hshown => ?_
    rw [(hread hshown).1, hn]
    rfl

theorem encodes_bare (hword : unpack word ≠ []) (htag : tmpTag word = 0xc) (inVariable : Bool) :
    encodes inVariable [(.variable, unpack word)] = .done ([word], true) := by
  have hcut := (readable_single (cellText_unpack word).1 hword).cut
  rw [List.flatten_singleton] at hcut
  rw [encodes_variable, hcut]
  simp [groupCells, nameCell_variable htag]

/-- Either all functions printed for the words are read, or nothing from there on. -/
theorem Segment.parsed_append (h : Segment cells ts) (toks : List Token) :
    ((∀ tok ∈ ts, tok.2 ≠ []) ∧ parsed (ts ++ toks) = ts ++ parsed toks) ∨
      parsed (ts ++ toks) = [] := by
  have hsingle : ∀ tok : Token, ((∀ t ∈ [tok], t.2 ≠ []) ∧
      parsed ([tok] ++ toks) = [tok] ++ parsed toks) ∨ parsed ([tok] ++ toks) = [] := by
    intro tok
    by_cases hne : tok.2 = []
    · exact .inr (by simp [parsed, hne])
    · exact .inl ⟨by simpa using hne, by simp [parsed, hne]⟩
  cases h with
  | name tag more => exact hsingle _
  | long tag number more => exact hsingle _
  | short tag number more => exact hsingle _
  | @valued word n exts text tag number more =>
    have hvalue : text ++ shown exts ≠ [] := by
      intro hnil
      obtain rfl := (List.append_eq_nil_iff.mp hnil).1
      have hnone : int 10 [] = none := by decide
      rw [(int_decimalText number).1] at hnone
      cases hnone
    by_cases hne : unpack word = []
    · exact .inr (by simp [parsed, hne])
    · exact .inl ⟨by simp only [List.forall_mem_cons]; exact ⟨hne, hvalue, by simp⟩,
        by simp [parsed, hne, hvalue]⟩

/-- The words for which functions are printed do not begin with a zero. -/
theorem Segment.trimmed (h : Segment cells ts) : trimmedLength cells ≠ 0 := by
  have hpos : ∀ {word : Cell} {exts : List Cell}, tmpTag word ≠ 0 →
      trimmedLength (word :: exts) ≠ 0 := fun htag =>
    (trimmedLength_cons_pos (ne_zero_of_tag htag) _).ne'
  cases h with
  | name tag more => exact hpos (nameTags_kind tag).2.1
  | long tag number more => exact hpos (by omega)
  | short tag number more => exact hpos (by omega)
  | valued tag number more => exact hpos (by omega)

theorem Segments.trimmed {toks : List Token} (h : Segments cells toks) :
    cells = [] ∨ trimmedLength cells ≠ 0 := by
  cases h with
  | nil => exact .inl rfl
  | cons head next =>
    have hhead := head.trimmed
    have hlen := trimmedLength_le (α := Cell)
    refine .inr ?_
    rw [trimmedLength_append]
    split_ifs <;> omega
  | longCut tag => exact .inr (trimmedLength_cons_pos (ne_zero_of_tag (by omega)) []).ne'
  | variableCut tag => exact .inr (trimmedLength_cons_pos (ne_zero_of_tag (by omega)) []).ne'

theorem within_nil (h : encodes inVariable [] = .done r) : Within r.1 cells := by
  rw [encodes_nil] at h
  obtain rfl := Outcome.done.inj h
  exact .nil _

theorem Segments.within {toks : List Token} (h : Segments cells toks)
    (henc : encodes inVariable (parsed toks) = .done r) : Within r.1 cells := by
  induction h generalizing inVariable r with
  | nil => exact within_nil henc
  | @cons cells rest ts toks head next ih =>
    rcases head.parsed_append toks with ⟨hne, hparsed⟩ | hparsed
    · rw [hparsed, encodes_append] at henc
      obtain ⟨x, hx, henc⟩ := Outcome.bind_eq_done henc
      obtain ⟨y, hy, henc⟩ := Outcome.bind_eq_done henc
      obtain rfl := Outcome.done.inj henc
      exact (head.within hne hx).append (ih hy)
    · rw [hparsed] at henc
      exact within_nil henc
  | longCut tag => exact within_nil henc
  | @variableCut word tag =>
    by_cases hword : unpack word = []
    · rw [hword] at henc
      exact within_nil henc
    · rw [show parsed [(.variable, unpack word)] = [(.variable, unpack word)] by
        simp [parsed, hword], encodes_bare hword tag] at henc
      obtain rfl := Outcome.done.inj henc
      exact ⟨le_rfl, le_rfl⟩

end segments

end Einherjar.Colorforth
