import Mathlib.Data.List.MinMax
import Mathlib.Data.List.Infix

/-! The elements of pyparsing that a grammar may be made of, with what its documentation says of
them. -/
namespace Einherjar.Lib

/-- An element of a grammar: what it finds at the beginning of a text, and the rest. -/
abbrev Expression (α : Type) := List Char → Option (α × List Char)

/-- The whitespace that is skipped before most elements. -/
def isBlank (c : Char) : Bool := c ∈ [' ', '\n', '\t', '\r']

def skipBlanks (s : List Char) : List Char := s.dropWhile isBlank

structure Pyparsing where
  /-- A given text. -/
  literal : List Char → Expression (List Char)
  /-- One of several texts, the longest that is there. -/
  oneOf : List (List Char) → Expression (List Char)
  /-- As many characters as there are that are not among those given, at least one. No
  whitespace is skipped before them. -/
  charsNotIn : List Char → Expression (List Char)
  /-- As many of the characters given as there are, at least one. -/
  word : List Char → Expression (List Char)
  /-- Whitespace. -/
  white : Expression (List Char)
  zeroOrMore : {α : Type} → Expression α → Expression (List α)
  oneOrMore : {α : Type} → Expression α → Expression (List α)
  /-- What an element finds in a text; the text may go on after it. -/
  parseString : {α : Type} → Expression α → List Char → Option α
  literal_found : ∀ {lit s rest}, skipBlanks s = lit ++ rest → literal lit s = some (lit, rest)
  literal_missing : ∀ {lit s}, ¬ lit <+: skipBlanks s → literal lit s = none
  oneOf_found : ∀ {words w s rest}, w ∈ words → skipBlanks s = w ++ rest →
    (∀ v ∈ words, v <+: skipBlanks s → v.length ≤ w.length) → oneOf words s = some (w, rest)
  oneOf_missing : ∀ {words s}, (∀ w ∈ words, ¬ w <+: skipBlanks s) → oneOf words s = none
  charsNotIn_found : ∀ {cs w rest}, w ≠ [] → (∀ c ∈ w, c ∉ cs) → (∀ c ∈ rest.head?, c ∈ cs) →
    charsNotIn cs (w ++ rest) = some (w, rest)
  charsNotIn_missing : ∀ {cs s}, (∀ c ∈ s.head?, c ∈ cs) → charsNotIn cs s = none
  word_found : ∀ {cs s w rest}, w ≠ [] → (∀ c ∈ w, c ∈ cs) → (∀ c ∈ rest.head?, c ∉ cs) →
    skipBlanks s = w ++ rest → word cs s = some (w, rest)
  white_found : ∀ {w rest}, w ≠ [] → (∀ c ∈ w, isBlank c = true) →
    (∀ c ∈ rest.head?, isBlank c = false) → white (w ++ rest) = some (w, rest)
  zeroOrMore_end : ∀ {α} {e : Expression α} {s}, e s = none → zeroOrMore e s = some ([], s)
  zeroOrMore_next : ∀ {α} {e : Expression α} {s a rest}, e s = some (a, rest) →
    rest.length < s.length → zeroOrMore e s = (zeroOrMore e rest).map fun r => (a :: r.1, r.2)
  oneOrMore_missing : ∀ {α} {e : Expression α} {s}, e s = none → oneOrMore e s = none
  oneOrMore_next : ∀ {α} {e : Expression α} {s a rest}, e s = some (a, rest) →
    rest.length < s.length → oneOrMore e s = (zeroOrMore e rest).map fun r => (a :: r.1, r.2)
  /-- Tabulators are expanded first. -/
  parseString_eq : ∀ {α} {e : Expression α} {s}, '\t' ∉ s → parseString e s = (e s).map Prod.fst

/-- Tabulators become blanks up to the next column that is a multiple of 8. -/
def expandTabsFrom : ℕ → List Char → List Char
  | _, [] => []
  | column, c :: s =>
    if c = '\t' then List.replicate (8 - column % 8) ' ' ++ expandTabsFrom 0 s
    else if c = '\n' ∨ c = '\r' then c :: expandTabsFrom 0 s
    else c :: expandTabsFrom (column + 1) s

def expandTabs (s : List Char) : List Char := expandTabsFrom 0 s

/-- More of the documentation, for texts of every kind. -/
structure Pyparsing.Documented (p : Pyparsing) : Prop where
  white_missing : ∀ {s}, (∀ c ∈ s.head?, isBlank c = false) → p.white s = none
  parseString_tabs : ∀ {α} (e : Expression α) (s : List Char),
    p.parseString e s = p.parseString e (expandTabs s)

section tabs

theorem expandTabsFrom_of_notMem {s : List Char} (h : '\t' ∉ s) (column : ℕ) :
    expandTabsFrom column s = s := by
  induction s generalizing column with
  | nil => rfl
  | cons c s ih =>
    obtain ⟨hc, hs⟩ := not_or.mp (List.mem_cons.not.mp h)
    rw [expandTabsFrom, if_neg (Ne.symm hc), ih hs, ih hs, ite_self]

theorem expandTabs_of_notMem {s : List Char} (h : '\t' ∉ s) : expandTabs s = s :=
  expandTabsFrom_of_notMem h 0

theorem notMem_expandTabsFrom (column : ℕ) (s : List Char) : '\t' ∉ expandTabsFrom column s := by
  induction s generalizing column with
  | nil => simp [expandTabsFrom]
  | cons c s ih =>
    rw [expandTabsFrom]
    split_ifs with htab hline
    · rw [List.mem_append, not_or]
      exact ⟨fun hmem => absurd (List.eq_of_mem_replicate hmem) (by decide), ih 0⟩
    · rw [List.mem_cons, not_or]
      exact ⟨Ne.symm htab, ih 0⟩
    · rw [List.mem_cons, not_or]
      exact ⟨Ne.symm htab, ih _⟩

theorem notMem_expandTabs (s : List Char) : '\t' ∉ expandTabs s := notMem_expandTabsFrom 0 s

/-- Every text is read with its tabulators expanded. -/
theorem Pyparsing.Documented.parseString_eq {p : Pyparsing} (hp : p.Documented) {α : Type}
    (e : Expression α) (s : List Char) :
    p.parseString e s = (e (expandTabs s)).map Prod.fst := by
  rw [hp.parseString_tabs, p.parseString_eq (notMem_expandTabs s)]

end tabs

section blanks

variable {s t w : List Char}

theorem skipBlanks_of_head (h : ∀ c ∈ s.head?, isBlank c = false) : skipBlanks s = s := by
  cases s with
  | nil => rfl
  | cons c s => exact List.dropWhile_cons_of_neg (by simpa using h c rfl)

theorem skipBlanks_append (hw : ∀ c ∈ w, isBlank c = true) (s : List Char) :
    skipBlanks (w ++ s) = skipBlanks s := by
  unfold skipBlanks
  rw [List.dropWhile_append_of_pos hw]

/-- The characters with a property, and what comes after the last of them. -/
theorem span_append {p : Char → Bool} (hw : ∀ c ∈ w, p c = true)
    (hs : ∀ c ∈ s.head?, p c = false) :
    (w ++ s).takeWhile p = w ∧ (w ++ s).dropWhile p = s := by
  rw [List.takeWhile_append_of_pos hw, List.dropWhile_append_of_pos hw]
  cases s with
  | nil => simp
  | cons c s =>
    have hc : ¬ p c = true := by simpa using hs c rfl
    rw [List.takeWhile_cons_of_neg hc, List.dropWhile_cons_of_neg hc, List.append_nil]
    exact ⟨rfl, rfl⟩

theorem span_nil {p : Char → Bool} (hs : ∀ c ∈ s.head?, p c = false) : s.takeWhile p = [] :=
  (span_append (w := []) (by simp) hs).1

end blanks

namespace Pyparsing

/-- What is found, if anything, begins the text. -/
theorem oneOf_cases (p : Pyparsing) (words : List (List Char)) (s : List Char) :
    p.oneOf words s = none ∨
      ∃ w ∈ words, ∃ rest, skipBlanks s = w ++ rest ∧ p.oneOf words s = some (w, rest) := by
  cases hmax : (words.filter fun w => w.isPrefixOf (skipBlanks s)).argmax List.length with
  | none =>
    refine .inl (p.oneOf_missing fun w hw hprefix => ?_)
    have hnone := List.filter_eq_nil_iff.mp (List.argmax_eq_none.mp hmax) w hw
    exact hnone (List.isPrefixOf_iff_prefix.mpr hprefix)
  | some w =>
    obtain ⟨hw, hprefix⟩ := List.mem_filter.mp (List.argmax_mem hmax)
    obtain ⟨rest, hrest⟩ := List.isPrefixOf_iff_prefix.mp hprefix
    refine .inr ⟨w, hw, rest, hrest.symm, p.oneOf_found hw hrest.symm fun v hv hprefix => ?_⟩
    have hmem : v ∈ words.filter fun w => w.isPrefixOf (skipBlanks s) :=
      List.mem_filter.mpr ⟨hv, List.isPrefixOf_iff_prefix.mpr hprefix⟩
    exact List.le_of_mem_argmax hmem hmax

/-! An implementation with these properties. -/
section reference

variable {α : Type}

def literalRef (lit : List Char) : Expression (List Char) := fun s =>
  if lit.isPrefixOf (skipBlanks s) then some (lit, (skipBlanks s).drop lit.length) else none

def oneOfRef (words : List (List Char)) : Expression (List Char) := fun s =>
  ((words.filter fun w => w.isPrefixOf (skipBlanks s)).argmax List.length).map fun w =>
    (w, (skipBlanks s).drop w.length)

/-- As many characters with a property as there are, at least one. -/
def run (p : Char → Bool) : Expression (List Char) := fun s =>
  if s.takeWhile p = [] then none else some (s.takeWhile p, s.dropWhile p)

/-- As often as the element is found, but not more often than there are characters. -/
def repeatRef (e : Expression α) : ℕ → List Char → List α × List Char
  | 0, s => ([], s)
  | n + 1, s =>
    match e s with
    | none => ([], s)
    | some (a, rest) =>
      if rest.length < s.length then (a :: (repeatRef e n rest).1, (repeatRef e n rest).2)
      else ([], s)

theorem repeatRef_nil (e : Expression α) (n : ℕ) : repeatRef e n [] = ([], []) := by
  cases n with
  | zero => rfl
  | succ n =>
    rw [repeatRef]
    split
    · rfl
    · exact if_neg (Nat.not_lt_zero _)

theorem repeatRef_of_le (e : Expression α) {m n : ℕ} {s : List Char} (hm : s.length ≤ m)
    (hn : s.length ≤ n) : repeatRef e m s = repeatRef e n s := by
  induction m generalizing n s with
  | zero =>
    obtain rfl := List.length_eq_zero_iff.mp (Nat.le_zero.mp hm)
    rw [repeatRef_nil, repeatRef_nil]
  | succ m ih =>
    cases n with
    | zero =>
      obtain rfl := List.length_eq_zero_iff.mp (Nat.le_zero.mp hn)
      rw [repeatRef_nil, repeatRef_nil]
    | succ n =>
      rw [repeatRef, repeatRef]
      cases e s with
      | none => rfl
      | some r =>
        by_cases hlt : r.2.length < s.length
        · simp only [if_pos hlt, ih (show r.2.length ≤ m by omega) (show r.2.length ≤ n by omega)]
        · simp only [if_neg hlt]

theorem repeatRef_next {e : Expression α} {s rest : List Char} {a : α} (he : e s = some (a, rest))
    (hlt : rest.length < s.length) : repeatRef e s.length s =
      (a :: (repeatRef e rest.length rest).1, (repeatRef e rest.length rest).2) := by
  obtain ⟨n, hn⟩ := Nat.exists_eq_succ_of_ne_zero (Nat.ne_zero_of_lt hlt)
  rw [hn, repeatRef, he]
  simp only [if_pos hlt, repeatRef_of_le e (show rest.length ≤ n by omega) le_rfl]

theorem literalRef_found {lit s rest : List Char} (h : skipBlanks s = lit ++ rest) :
    literalRef lit s = some (lit, rest) := by
  rw [literalRef, h, if_pos (List.isPrefixOf_iff_prefix.mpr (List.prefix_append ..)),
    List.drop_left]

theorem oneOfRef_found {words : List (List Char)} {w s rest : List Char} (hw : w ∈ words)
    (h : skipBlanks s = w ++ rest)
    (hmax : ∀ v ∈ words, v <+: skipBlanks s → v.length ≤ w.length) :
    oneOfRef words s = some (w, rest) := by
  have hfound : w ∈ words.filter fun v => v.isPrefixOf (skipBlanks s) :=
    List.mem_filter.mpr ⟨hw, List.isPrefixOf_iff_prefix.mpr (h ▸ List.prefix_append ..)⟩
  unfold oneOfRef
  cases hargmax : (words.filter fun v => v.isPrefixOf (skipBlanks s)).argmax List.length with
  | none =>
    rw [List.argmax_eq_none.mp hargmax] at hfound
    simp at hfound
  | some m =>
    obtain ⟨hm, hprefix⟩ := List.mem_filter.mp (List.argmax_mem hargmax)
    rw [List.isPrefixOf_iff_prefix] at hprefix
    have hlen : m.length = w.length :=
      Nat.le_antisymm (hmax m hm hprefix) (List.le_of_mem_argmax hfound hargmax)
    have hmw : m = w := by
      rw [List.prefix_iff_eq_take.mp hprefix, h, hlen, List.take_left]
    rw [Option.map_some, hmw, h, List.drop_left]

theorem run_found {p : Char → Bool} {w rest : List Char} (hne : w ≠ [])
    (hw : ∀ c ∈ w, p c = true) (hrest : ∀ c ∈ rest.head?, p c = false) :
    run p (w ++ rest) = some (w, rest) := by
  obtain ⟨htake, hdrop⟩ := span_append hw hrest
  rw [run, htake, hdrop, if_neg hne]

/-- The elements as they are documented. -/
def reference : Pyparsing where
  literal := literalRef
  oneOf := oneOfRef
  charsNotIn cs := run fun c => decide (c ∉ cs)
  word cs s := run (fun c => decide (c ∈ cs)) (skipBlanks s)
  white := run isBlank
  zeroOrMore e s := some (repeatRef e s.length s)
  oneOrMore e s := (e s).map fun r => (r.1 :: (repeatRef e r.2.length r.2).1,
    (repeatRef e r.2.length r.2).2)
  parseString e s := (e (expandTabs s)).map Prod.fst
  literal_found := literalRef_found
  literal_missing h := if_neg fun hprefix => h (List.isPrefixOf_iff_prefix.mp hprefix)
  oneOf_found := oneOfRef_found
  oneOf_missing {words s} h := by
    have hnone : (words.filter fun w => w.isPrefixOf (skipBlanks s)) = [] :=
      List.filter_eq_nil_iff.mpr fun w hw hprefix =>
        h w hw (List.isPrefixOf_iff_prefix.mp hprefix)
    rw [oneOfRef, hnone]
    rfl
  charsNotIn_found hne hw hrest := run_found hne (fun c hc => decide_eq_true (hw c hc))
    fun c hc => decide_eq_false (not_not.mpr (hrest c hc))
  charsNotIn_missing h := if_pos (span_nil fun c hc => decide_eq_false (not_not.mpr (h c hc)))
  word_found hne hw hrest h := by
    rw [h]
    exact run_found hne (fun c hc => decide_eq_true (hw c hc))
      fun c hc => decide_eq_false (hrest c hc)
  white_found := run_found
  zeroOrMore_end {α e s} h := by
    have hend : repeatRef e s.length s = ([], s) := by
      cases s with
      | nil => exact repeatRef_nil e 0
      | cons c s => rw [List.length_cons, repeatRef, h]
    rw [hend]
  zeroOrMore_next h hlt := by
    rw [repeatRef_next h hlt]
    rfl
  oneOrMore_missing h := by rw [h]; rfl
  oneOrMore_next h _ := by rw [h]; rfl
  parseString_eq h := by rw [expandTabs_of_notMem h]

theorem reference_documented : reference.Documented where
  white_missing h := if_pos (span_nil h)
  parseString_tabs e s := by
    have hsame := expandTabs_of_notMem (notMem_expandTabs s)
    change (e (expandTabs s)).map Prod.fst = (e (expandTabs (expandTabs s))).map Prod.fst
    rw [hsame]

end reference

end Pyparsing

end Einherjar.Lib
