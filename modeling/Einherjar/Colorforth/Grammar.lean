import Einherjar.Colorforth.PrintedTokens
import Einherjar.Lib.Pyparsing
import Mathlib.Data.List.TakeWhile

/-! The converter's grammar, and how it reads the functions that `totext` prints. -/
namespace Einherjar.Colorforth
open Einherjar.Lib

/-- The functions of `accepted_functions`. -/
def acceptedFunctions : List BlockFunction :=
  functions ++ [.hexExecuteLong, .hexExecuteShort, .hexCompileShort, .hexCompileLong,
    .hexCommentedNumber]

def nums : List Char := ['0', '1', '2', '3', '4', '5', '6', '7', '8', '9']

namespace Grammar

variable (p : Pyparsing)

def function : Expression Token := fun s => do
  let (name, s) ← p.oneOf (acceptedFunctions.map functionName) s
  let (_, s) ← p.literal ['('] s
  let (param, s) ← p.charsNotIn [')'] s
  let (_, s) ← p.literal [')'] s
  let (_, s) ← p.white s
  let f ← acceptedFunctions.find? fun f => functionName f = name
  return ((f, param), s)

def block : Expression SourceBlock := fun s => do
  let (_, s) ← p.literal "\x7bblock ".toList s
  let (number, s) ← p.word nums s
  let (_, s) ← p.literal ['\x7d'] s
  let (tokens, s) ← p.zeroOrMore (function p) s
  return (⟨((int 10 number).getD 0).toNat, tokens⟩, s)

def cf2text : Expression (List SourceBlock) := p.oneOrMore (block p)

end Grammar

/-- `tocf` on a text, which is rejected when the grammar finds no block at its beginning. -/
def tocfText (p : Pyparsing) (fuel : ℕ) (text : List Char) : Outcome (List Cell) :=
  match p.parseString (Grammar.cf2text p) text with
  | none => .stopped
  | some blocks => tocf fuel blocks

section names

variable {f : BlockFunction}

theorem mem_acceptedFunctions (f : BlockFunction) : f ∈ acceptedFunctions := by
  cases f <;> decide

/-- The characters of the names. -/
theorem mem_functionName {c : Char} (h : c ∈ functionName f) :
    c ≠ '(' ∧ c ≠ ')' ∧ c ≠ '\x7b' ∧ c ≠ '\t' ∧ isBlank c = false := by
  have hall : ∀ f ∈ acceptedFunctions, ∀ c ∈ functionName f,
      c ≠ '(' ∧ c ≠ ')' ∧ c ≠ '\x7b' ∧ c ≠ '\t' ∧ isBlank c = false := by decide +kernel
  exact hall f (mem_acceptedFunctions f) c h

theorem find_functionName (f : BlockFunction) :
    (acceptedFunctions.find? fun g => functionName g = functionName f) = some f := by
  have hall : ∀ f ∈ acceptedFunctions,
      (acceptedFunctions.find? fun g => functionName g = functionName f) = some f := by
    decide +kernel
  exact hall f (mem_acceptedFunctions f)

/-- A name begins with a letter. -/
theorem functionName_head (f : BlockFunction) :
    ∃ c cs, functionName f = c :: cs ∧ isBlank c = false ∧ c ≠ '\x7b' ∧ c ≠ '\x7d' := by
  have hall : ∀ f ∈ acceptedFunctions,
      ∀ c ∈ (functionName f).take 1, isBlank c = false ∧ c ≠ '\x7b' ∧ c ≠ '\x7d' := by
    decide +kernel
  have hne : ∀ f ∈ acceptedFunctions, functionName f ≠ [] := by decide +kernel
  obtain ⟨c, cs, h⟩ := List.exists_cons_of_ne_nil (hne f (mem_acceptedFunctions f))
  have hc := hall f (mem_acceptedFunctions f) c (by rw [h]; simp)
  exact ⟨c, cs, h, hc⟩

/-- The name before a character that is in no name is the longest that is there. -/
theorem length_le_of_prefix {v w s : List Char} {d : Char} (hv : d ∉ v) (h : v <+: w ++ d :: s) :
    v.length ≤ w.length := by
  by_contra hlen
  rw [Nat.not_le] at hlen
  have hw : w ++ [d] <+: w ++ d :: s := ⟨s, by simp⟩
  have hmem := (List.prefix_of_prefix_length_le hw h (by simp; omega)).subset
    (show d ∈ w ++ [d] by simp)
  exact hv hmem

/-- A bracket that closes and one that opens do not both come first. -/
theorem opens_before_close {w u s t : List Char} (hw : '(' ∉ w) (hu : ')' ∉ u) :
    w ++ ')' :: s ≠ u ++ '(' :: t := by
  intro heq
  rcases List.append_eq_append_iff.mp heq with ⟨a, rfl, ha⟩ | ⟨a, rfl, ha⟩
  · cases a with
    | nil => simp at ha
    | cons c a =>
      obtain ⟨rfl, -⟩ := List.cons.inj ha
      exact hu (by simp)
  · cases a with
    | nil => simp at ha
    | cons c a =>
      obtain ⟨rfl, -⟩ := List.cons.inj ha
      exact hw (by simp)

end names

/-- A function in a text, with the white space before its opening bracket and behind it. -/
structure WrittenFunction where
  token : Token
  inner : List Char
  gap : List Char

namespace WrittenFunction

def text (f : WrittenFunction) : List Char :=
  functionName f.token.1 ++ (f.inner ++ '(' :: (f.token.2 ++ ')' :: f.gap))

/-- There is only white space in these places, and the parameter ends at the bracket. -/
structure Proper (f : WrittenFunction) : Prop where
  inner : ∀ c ∈ f.inner, isBlank c = true
  gap : ∀ c ∈ f.gap, isBlank c = true
  closes : ')' ∉ f.token.2

/-- The grammar asks for a parameter and for white space behind the function. -/
def Found (f : WrittenFunction) : Prop := f.token.2 ≠ [] ∧ f.gap ≠ []

instance (f : WrittenFunction) : Decidable f.Found := by
  unfold Found
  infer_instance

end WrittenFunction

/-- The functions before the first one that the grammar does not find. -/
def foundTokens (fs : List WrittenFunction) : List Token :=
  (fs.takeWhile fun f => f.Found).map (·.token)

/-- What is written between two functions, or after the last one. -/
def gap : List Token → List Char
  | [] => ['\n']
  | tok :: _ => if tok.1 = .define then [' ', '\n'] else [' ']

/-- The text of functions with the end of the last one. -/
def closed : List Token → List Char
  | [] => []
  | tok :: toks => functionName tok.1 ++ '(' :: (tok.2 ++ ')' :: (gap toks ++ closed toks))

/-- The functions before the first one without a parameter, which the grammar does not find. -/
def parsed (toks : List Token) : List Token := toks.takeWhile fun tok => tok.2 ≠ []

section closed

variable {toks : List Token}

theorem gap_ne_nil (toks : List Token) : gap toks ≠ [] := by
  cases toks with
  | nil => simp [gap]
  | cons tok toks =>
    rw [gap]
    split_ifs <;> simp

theorem mem_gap {c : Char} (h : c ∈ gap toks) : isBlank c = true ∧ c ≠ '\t' := by
  have hall : ∀ c ∈ [' ', '\n'], isBlank c = true ∧ c ≠ '\t' := by decide
  apply hall
  cases toks with
  | nil => simp_all [gap]
  | cons tok toks =>
    rw [gap] at h
    split_ifs at h <;> simp_all

/-- Where a function has begun before, its end comes first. -/
theorem separated_true_eq (toks : List Token) :
    ParseCFBlockToText.separated true toks ++ ")\n".toList =
      ')' :: (gap toks ++ closed toks) := by
  induction toks with
  | nil => rfl
  | cons tok toks ih =>
    rw [ParseCFBlockToText.separated, ParseCFBlockToText.opening, gap, closed, ← ih]
    by_cases hdefine : tok.1 = .define <;> simp [hdefine]

theorem separated_false_eq (tok : Token) (toks : List Token) :
    ParseCFBlockToText.separated false (tok :: toks) ++ ")\n".toList = closed (tok :: toks) := by
  rw [ParseCFBlockToText.separated, ParseCFBlockToText.opening, closed, ← separated_true_eq]
  simp

/-- The functions of a printed block, as they are written. -/
def printedFunctions : List Token → List WrittenFunction
  | [] => []
  | tok :: toks => ⟨tok, [], gap toks⟩ :: printedFunctions toks

theorem flatMap_printedFunctions (toks : List Token) :
    (printedFunctions toks).flatMap WrittenFunction.text = closed toks := by
  induction toks with
  | nil => rfl
  | cons tok toks ih =>
    rw [printedFunctions, List.flatMap_cons, ih, closed]
    simp [WrittenFunction.text]

theorem map_printedFunctions (toks : List Token) :
    (printedFunctions toks).map (·.token) = toks := by
  induction toks with
  | nil => rfl
  | cons tok toks ih => rw [printedFunctions, List.map_cons, ih]

theorem gap_of_mem_printedFunctions {f : WrittenFunction} (h : f ∈ printedFunctions toks) :
    f.inner = [] ∧ f.gap ≠ [] ∧ ∀ c ∈ f.gap, isBlank c = true := by
  induction toks with
  | nil => cases h
  | cons tok toks ih =>
    rcases List.mem_cons.mp h with rfl | h
    · exact ⟨rfl, gap_ne_nil toks, fun c hc => (mem_gap hc).1⟩
    · exact ih h

theorem found_printedFunctions {f : WrittenFunction} (h : f ∈ printedFunctions toks) :
    f.Found ↔ f.token.2 ≠ [] := and_iff_left (gap_of_mem_printedFunctions h).2.1

theorem forall_found_printedFunctions :
    (∀ f ∈ printedFunctions toks, f.Found) ↔ ∀ tok ∈ toks, tok.2 ≠ [] := by
  conv_rhs => rw [← map_printedFunctions toks, List.forall_mem_map]
  exact forall₂_congr fun f hf => found_printedFunctions hf

theorem foundTokens_printedFunctions (toks : List Token) :
    foundTokens (printedFunctions toks) = parsed toks := by
  induction toks with
  | nil => rfl
  | cons tok toks ih =>
    have hfound := found_printedFunctions
      (show (⟨tok, [], gap toks⟩ : WrittenFunction) ∈ printedFunctions (tok :: toks) from
        List.mem_cons_self)
    unfold foundTokens parsed at ih ⊢
    rw [printedFunctions, List.takeWhile_cons, List.takeWhile_cons]
    by_cases htok : tok.2 = []
    · simp [hfound, htok]
    · simp [hfound, htok, ih]

theorem proper_printedFunctions (htoks : ∀ tok ∈ toks, ')' ∉ tok.2) :
    ∀ f ∈ printedFunctions toks, f.Proper := by
  intro f hf
  obtain ⟨hinner, -, hgap⟩ := gap_of_mem_printedFunctions hf
  refine ⟨by simp [hinner], hgap, htoks f.token ?_⟩
  rw [← map_printedFunctions toks]
  exact List.mem_map_of_mem hf

end closed

namespace Grammar

variable {p : Pyparsing} {pre s next : List Char}

/-- The end of a text, or the beginning of a block. -/
def Opens (s : List Char) : Prop := ∀ c ∈ s.head?, c = '\x7b'

theorem Opens.skipBlanks (h : Opens s) : skipBlanks s = s :=
  skipBlanks_of_head fun c hc => by rw [h c hc]; decide

/-- The name is found before its bracket, which may come behind white space. -/
theorem name_found (hpre : ∀ c ∈ pre, isBlank c = true) (f : BlockFunction) {inner : List Char}
    (hinner : ∀ c ∈ inner, isBlank c = true) (s : List Char) :
    p.oneOf (acceptedFunctions.map functionName) (pre ++ (functionName f ++ (inner ++ '(' :: s))) =
      some (functionName f, inner ++ '(' :: s) := by
  obtain ⟨c, cs, hname, hc, -⟩ := functionName_head f
  have hskip : Lib.skipBlanks (pre ++ (functionName f ++ (inner ++ '(' :: s))) =
      functionName f ++ (inner ++ '(' :: s) := by
    rw [skipBlanks_append hpre, skipBlanks_of_head]
    rw [hname]
    rintro d ⟨⟩
    exact hc
  refine p.oneOf_found (List.mem_map_of_mem (mem_acceptedFunctions f)) hskip fun v hv hprefix => ?_
  obtain ⟨g, -, rfl⟩ := List.mem_map.mp hv
  rw [hskip] at hprefix
  cases inner with
  | nil => exact length_le_of_prefix (fun hmem => (mem_functionName hmem).1 rfl) hprefix
  | cons d inner =>
    refine length_le_of_prefix (fun hmem => ?_) hprefix
    have hplain := (mem_functionName hmem).2.2.2.2
    rw [hinner d List.mem_cons_self] at hplain
    cases hplain

theorem bracket_found {c : Char} (hc : isBlank c = false) {inner : List Char}
    (hinner : ∀ c ∈ inner, isBlank c = true) (s : List Char) :
    p.literal [c] (inner ++ c :: s) = some ([c], s) := by
  refine p.literal_found ?_
  rw [skipBlanks_append hinner, skipBlanks_of_head]
  · rfl
  · rintro d ⟨⟩
    exact hc

theorem close_found (s : List Char) : p.literal [')'] (')' :: s) = some ([')'], s) :=
  bracket_found (by decide) (List.forall_mem_nil fun c => isBlank c = true) s

theorem param_found {param : List Char} (hne : param ≠ []) (hparam : ')' ∉ param)
    (s : List Char) : p.charsNotIn [')'] (param ++ ')' :: s) = some (param, ')' :: s) := by
  refine p.charsNotIn_found hne (fun c hc hmem => ?_) (by simp)
  rw [List.mem_singleton.mp hmem] at hc
  exact hparam hc

variable {f : WrittenFunction}

/-- A function with its parameter is found. -/
theorem function_found (hpre : ∀ c ∈ pre, isBlank c = true) (hf : f.Proper) (hfound : f.Found)
    (hs : ∀ c ∈ s.head?, isBlank c = false) :
    function p (pre ++ (f.text ++ s)) = some (f.token, s) := by
  have htext : f.text ++ s = functionName f.token.1 ++
      (f.inner ++ '(' :: (f.token.2 ++ ')' :: (f.gap ++ s))) := by
    simp [WrittenFunction.text]
  unfold function
  simp only [htext, name_found hpre f.token.1 hf.inner, Option.bind_eq_bind, Option.bind_some,
    bracket_found (c := '(') (by decide) hf.inner, param_found hfound.1 hf.closes, close_found,
    p.white_found hfound.2 hf.gap hs, find_functionName]
  rfl

/-- A function is not found without a parameter, nor without white space behind it. -/
theorem function_missing (hpre : ∀ c ∈ pre, isBlank c = true) (hf : f.Proper)
    (hdoc : f.gap = [] → p.Documented) (hmissing : ¬ f.Found)
    (hs : ∀ c ∈ s.head?, isBlank c = false) : function p (pre ++ (f.text ++ s)) = none := by
  have htext : f.text ++ s = functionName f.token.1 ++
      (f.inner ++ '(' :: (f.token.2 ++ ')' :: (f.gap ++ s))) := by
    simp [WrittenFunction.text]
  unfold function
  simp only [htext, name_found hpre f.token.1 hf.inner, Option.bind_eq_bind, Option.bind_some,
    bracket_found (c := '(') (by decide) hf.inner]
  by_cases hparam : f.token.2 = []
  · have hnone : p.charsNotIn [')'] (')' :: (f.gap ++ s)) = none :=
      p.charsNotIn_missing (by simp)
    rw [hparam, List.nil_append, hnone]
    rfl
  · have hgap : f.gap = [] := by
      by_contra hgap
      exact hmissing ⟨hparam, hgap⟩
    have hnone : p.white s = none := (hdoc hgap).white_missing hs
    simp only [param_found hparam hf.closes, close_found, Option.bind_some, hgap, List.nil_append,
      hnone, Option.bind_none]

/-- A function is not found where a block begins. -/
theorem function_missing_opens (hpre : ∀ c ∈ pre, isBlank c = true) (hs : Opens s) :
    function p (pre ++ s) = none := by
  have hnone : p.oneOf (acceptedFunctions.map functionName) (pre ++ s) = none := by
    refine p.oneOf_missing fun w hw hprefix => ?_
    obtain ⟨f, -, rfl⟩ := List.mem_map.mp hw
    obtain ⟨c, cs, hname, -, hc, -⟩ := functionName_head f
    obtain ⟨t, ht⟩ := hprefix
    rw [skipBlanks_append hpre, hs.skipBlanks, hname] at ht
    exact hc (hs c (by rw [← ht]; rfl))
  unfold function
  rw [hnone]
  rfl

/-- A function is not found where one ends before another has begun. -/
theorem function_missing_inside {w : List Char} (hw : '(' ∉ w) (s : List Char) :
    function p (w ++ ')' :: s) = none := by
  unfold function
  rcases p.oneOf_cases (acceptedFunctions.map functionName) (w ++ ')' :: s) with
    hnone | ⟨name, hname, rest, hskip, hsome⟩
  · rw [hnone]
    rfl
  · obtain ⟨f, -, rfl⟩ := List.mem_map.mp hname
    -- the bracket that would have to follow the name is not there
    have hmissing : p.literal ['('] rest = none := by
      refine p.literal_missing fun ⟨t, ht⟩ => ?_
      have hblank : ∀ v : List Char, ')' ∉ v.takeWhile isBlank := fun v hmem =>
        absurd (List.mem_takeWhile_imp hmem) (by decide)
      have hclose : ')' ∉ functionName f := fun hmem => (mem_functionName hmem).2.1 rfl
      refine opens_before_close hw (u := (w ++ ')' :: s).takeWhile isBlank ++ functionName f ++
        rest.takeWhile isBlank) (by simp [hblank, hclose]) (s := s) (t := t) ?_
      calc w ++ ')' :: s
          = (w ++ ')' :: s).takeWhile isBlank ++ Lib.skipBlanks (w ++ ')' :: s) :=
            List.takeWhile_append_dropWhile.symm
        _ = (w ++ ')' :: s).takeWhile isBlank ++ (functionName f ++
              (rest.takeWhile isBlank ++ Lib.skipBlanks rest)) := by
            rw [hskip, Lib.skipBlanks, List.takeWhile_append_dropWhile]
        _ = _ := by rw [← ht]; simp
    rw [hsome]
    simp only [Option.bind_eq_bind, Option.bind_some, hmissing, Option.bind_none]

/-- A block is not found but at its beginning. -/
theorem block_missing (hs : ∀ c ∈ (Lib.skipBlanks s).head?, c ≠ '\x7b') : block p s = none := by
  have hmissing : p.literal "\x7bblock ".toList s = none := by
    refine p.literal_missing fun ⟨t, ht⟩ => ?_
    rw [← ht] at hs
    exact hs '\x7b' rfl rfl
  unfold block
  rw [hmissing]
  rfl

/-- A function begins with a letter. -/
theorem head_text (f : WrittenFunction) (s : List Char) :
    ∀ c ∈ (f.text ++ s).head?, isBlank c = false ∧ c ≠ '\x7b' := by
  obtain ⟨c, cs, hname, hc, hbrace, -⟩ := functionName_head f.token.1
  rw [WrittenFunction.text, hname]
  rintro d ⟨⟩
  exact ⟨hc, hbrace⟩

/-- After the gap no blank follows. -/
theorem head_functions (fs : List WrittenFunction) (hnext : Opens next) :
    ∀ c ∈ (fs.flatMap WrittenFunction.text ++ next).head?, isBlank c = false := by
  cases fs with
  | nil =>
    intro c hc
    rw [hnext c hc]
    decide
  | cons f fs =>
    intro c hc
    rw [List.flatMap_cons, List.append_assoc] at hc
    exact (head_text f _ c hc).1

/-- The functions that are found in their text, and what is found after them. -/
theorem functions_found {fs : List WrittenFunction} (hfs : ∀ f ∈ fs, f.Proper)
    (hdoc : ∀ f ∈ fs, f.gap = [] → p.Documented) (hpre : ∀ c ∈ pre, isBlank c = true)
    (hnext : Opens next) :
    ∃ rest, p.zeroOrMore (function p) (pre ++ (fs.flatMap WrittenFunction.text ++ next)) =
        some (foundTokens fs, rest) ∧
      rest.length ≤ (pre ++ (fs.flatMap WrittenFunction.text ++ next)).length ∧
      ((∀ f ∈ fs, f.Found) → Lib.skipBlanks rest = next) ∧
      ((∃ f ∈ fs, ¬ f.Found) → block p rest = none) := by
  induction fs generalizing pre with
  | nil =>
    have hend := p.zeroOrMore_end (function_missing_opens (p := p) hpre hnext)
    exact ⟨pre ++ next, hend, le_rfl, fun _ => by rw [skipBlanks_append hpre, hnext.skipBlanks],
      by simp⟩
  | cons f fs ih =>
    obtain ⟨hf, hfs⟩ := List.forall_mem_cons.mp hfs
    obtain ⟨hfdoc, hdoc⟩ := List.forall_mem_cons.mp hdoc
    have hhead := head_functions fs hnext
    have htext : (f :: fs).flatMap WrittenFunction.text ++ next =
        f.text ++ (fs.flatMap WrittenFunction.text ++ next) := by
      rw [List.flatMap_cons, List.append_assoc]
    rw [htext]
    by_cases hfound : f.Found
    · have hfunction := function_found (p := p) hpre hf hfound hhead
      obtain ⟨rest, hrest, hlen, hwhole, hcut⟩ :=
        ih hfs hdoc (List.forall_mem_nil fun c => isBlank c = true)
      have hless : (fs.flatMap WrittenFunction.text ++ next).length <
          (pre ++ (f.text ++ (fs.flatMap WrittenFunction.text ++ next))).length := by
        simp only [WrittenFunction.text, List.length_append, List.length_cons]
        omega
      rw [List.nil_append] at hrest hlen
      refine ⟨rest, ?_, by omega,
        fun h => hwhole fun g hmem => h g (List.mem_cons_of_mem _ hmem), ?_⟩
      · rw [p.zeroOrMore_next hfunction hless, hrest]
        simp [foundTokens, hfound]
      · rintro ⟨g, hmem, hmissing⟩
        rcases List.mem_cons.mp hmem with rfl | hmem
        · exact absurd hfound hmissing
        · exact hcut ⟨g, hmem, hmissing⟩
    · have hend := p.zeroOrMore_end (function_missing (p := p) hpre hf hfdoc hfound hhead)
      refine ⟨_, ?_, le_rfl, fun h => absurd (h f List.mem_cons_self) hfound,
        fun _ => block_missing ?_⟩
      · rw [hend]
        simp [foundTokens, hfound]
      · have hplain := head_text f (fs.flatMap WrittenFunction.text ++ next)
        rw [skipBlanks_append hpre, skipBlanks_of_head fun c hc => (hplain c hc).1]
        exact fun c hc => (hplain c hc).2

/-- A header is found with what is found of its functions. -/
theorem block_found_of_tail {before digits after tail rest : List Char} {toks : List Token}
    (hbefore : ∀ c ∈ before, isBlank c = true) (hdigits : digits ≠ [])
    (hnums : ∀ c ∈ digits, c ∈ nums) (hafter : ∀ c ∈ after, isBlank c = true)
    (hs : Lib.skipBlanks s =
      "\x7bblock ".toList ++ (before ++ (digits ++ (after ++ '\x7d' :: tail))))
    (htail : p.zeroOrMore (function p) tail = some (toks, rest))
    (hlen : rest.length ≤ tail.length) :
    block p s = some (⟨((int 10 digits).getD 0).toNat, toks⟩, rest) ∧ rest.length < s.length := by
  have hplain : ∀ c ∈ nums, isBlank c = false := by decide
  have hliteral := p.literal_found hs
  have hhead : Lib.skipBlanks (before ++ (digits ++ (after ++ '\x7d' :: tail))) =
      digits ++ (after ++ '\x7d' :: tail) := by
    obtain ⟨c, cs, hcs⟩ := List.exists_cons_of_ne_nil hdigits
    rw [skipBlanks_append hbefore, skipBlanks_of_head]
    rw [hcs]
    rintro d ⟨⟩
    exact hplain c (hnums c (by rw [hcs]; simp))
  have hword : p.word nums (before ++ (digits ++ (after ++ '\x7d' :: tail))) =
      some (digits, after ++ '\x7d' :: tail) := by
    refine p.word_found hdigits hnums (fun c hc hmem => ?_) hhead
    cases after with
    | nil =>
      obtain rfl : '\x7d' = c := Option.some.inj hc
      exact absurd hmem (by decide)
    | cons d after =>
      obtain rfl : d = c := Option.some.inj hc
      have hblank := hafter d List.mem_cons_self
      rw [hplain d hmem] at hblank
      cases hblank
  constructor
  · unfold block
    simp only [hliteral, hword, htail, Option.bind_eq_bind, Option.bind_some,
      bracket_found (c := '\x7d') (by decide) hafter]
    rfl
  · have hskip : (Lib.skipBlanks s).length ≤ s.length := (List.dropWhile_sublist _).length_le
    rw [hs] at hskip
    simp only [List.length_append, List.length_cons] at hskip
    omega

end Grammar

end Einherjar.Colorforth
