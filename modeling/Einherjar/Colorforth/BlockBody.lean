import Einherjar.Colorforth.NameEncoding

/-! Block bodies as the converter accepts them, and the cells it makes of them. -/
namespace Einherjar.Colorforth
open Einherjar.Lib

/-- The functions that take a name, but the variable. -/
def nameFunctions : List BlockFunction :=
  [.execute, .define, .compileWord, .compileMacro, .text, .textCapitalized, .textAllCaps]

/-- One function of a block body with its parameter; a variable comes with the function that
gives its value. Numbers come with the value that their parameter denotes. -/
inductive Item where
  | name (f : BlockFunction) (w : List Char) (function : f ∈ nameFunctions) (word : IsWord w)
  | long (f : BlockFunction) (param : List Char) (v : ℤ) (function : f ∈ longFunctions)
      (value : taggedInt (getTagsForFunction f) param = some v)
      (range : fivebitFunction f = none → -2 ^ 31 < v ∧ v < 2 ^ 31)
  | short (f : BlockFunction) (param : List Char) (v : ℤ) (function : f ∈ shortFunctions)
      (value : taggedInt (getTagsForFunction f) param = some v)
      (range : fivebitFunction f = none → -2 ^ 26 ≤ v ∧ v < 2 ^ 26)
  | valued (w param : List Char) (v : ℤ) (word : IsWord w) (value : int 10 param = some v)

namespace Item

def tokens : Item → List Token
  | name f w .. => [(f, w)]
  | long f param .. => [(f, param)]
  | short f param .. => [(f, param)]
  | valued w param .. => [(.variable, w), (.compileWord, param)]

def cells : Item → List Cell
  | name f w .. => wordCells (getTagsForFunction f) w
  | long f _ v .. => [BitVec.ofNat 32 (getTagsForFunction f), BitVec.ofInt 32 v]
  | short f _ v .. => [(BitVec.ofInt 32 v <<< 5) + BitVec.ofNat 32 (getTagsForFunction f)]
  | valued w _ v .. => wordCells 12 w ++ [BitVec.ofInt 32 v]

/-- The number of head and extension cells; they come first. -/
def heads : Item → ℕ
  | name f w .. => (wordCells (getTagsForFunction f) w).length
  | long .. => 1
  | short .. => 1
  | valued w .. => (wordCells 12 w).length

/-- The fuel that the name needs. -/
def fuel : Item → ℕ
  | name _ w .. => 2 * w.length + 2
  | long .. => 0
  | short .. => 0
  | valued w .. => 2 * w.length + 2

end Item

def bodyTokens (body : List Item) : List Token := body.flatMap Item.tokens

def bodyCells (body : List Item) : List Cell := body.flatMap Item.cells

/-- The converter encodes the functions as the cells, and is outside a variable afterwards. -/
def Encodes (toks : List Token) (cells : List Cell) : Prop :=
  ∃ bound, ∀ fuel, bound ≤ fuel → encodeTokens fuel false toks = .done (cells, false)

theorem tag_nameFunction {f : BlockFunction} (hf : f ∈ nameFunctions) :
    getTagsForFunction f ∈ [1, 3, 4, 7, 9, 10, 11] := by
  revert f
  decide

theorem wordToLongArray_name {f : BlockFunction} (hf : f ∈ nameFunctions) {w : List Char}
    (hw : IsWord w) {fuel : ℕ} (hfuel : 2 * w.length + 2 ≤ fuel) :
    wordToLongArray fuel false f w = .done (wordCells (getTagsForFunction f) w, false) := by
  have hlong : ∀ f ∈ nameFunctions, f ∉ longFunctions ∧ f ∉ shortFunctions := by decide
  have htag : getTagsForFunction f < 16 := by
    have hall : ∀ t ∈ [1, 3, 4, 7, 9, 10, 11], t < 16 := by decide
    exact hall _ (tag_nameFunction hf)
  have hpack : packWord fuel (getTagsForFunction f) w =
      .done (wordCells (getTagsForFunction f) w) := packWord_eq htag hw.letters (by omega)
  unfold wordToLongArray
  simp only [if_neg (hlong f hf).1, if_neg (hlong f hf).2, hpack, Bool.false_eq_true, and_false,
    if_false, Outcome.done_bind]

theorem wordToLongArray_long {f : BlockFunction} (hf : f ∈ longFunctions) {param : List Char}
    {v : ℤ} (hv : taggedInt (getTagsForFunction f) param = some v) (fuel : ℕ) (inVariable : Bool) :
    wordToLongArray fuel inVariable f param =
      .done ([BitVec.ofNat 32 (getTagsForFunction f), BitVec.ofInt 32 v], inVariable) := by
  unfold wordToLongArray
  simp only [if_pos hf, hv]

theorem wordToLongArray_short {f : BlockFunction} (hf : f ∈ shortFunctions) {param : List Char}
    {v : ℤ} (hv : taggedInt (getTagsForFunction f) param = some v) (fuel : ℕ) (inVariable : Bool) :
    wordToLongArray fuel inVariable f param =
      .done ([(BitVec.ofInt 32 v <<< 5) + BitVec.ofNat 32 (getTagsForFunction f)],
        inVariable) := by
  have hlong : ∀ f ∈ shortFunctions, f ∉ longFunctions := by decide
  unfold wordToLongArray
  simp only [if_neg (hlong f hf), if_pos hf, hv]

theorem wordToLongArray_variable {w : List Char} (hw : IsWord w) {fuel : ℕ}
    (hfuel : 2 * w.length + 2 ≤ fuel) :
    wordToLongArray fuel true .variable w = .done (wordCells 12 w, true) := by
  have hpack : packWord fuel 12 w = .done (wordCells 12 w) :=
    packWord_eq (by decide) hw.letters (by omega)
  change (packWord fuel 12 w).bind _ = _
  rw [hpack]
  rfl

theorem wordToLongArray_value {param : List Char} {v : ℤ} (hv : int 10 param = some v)
    (fuel : ℕ) :
    wordToLongArray fuel true .compileWord param = .done ([BitVec.ofInt 32 v], false) := by
  have hlong : BlockFunction.compileWord ∉ longFunctions := by decide
  have hshort : BlockFunction.compileWord ∉ shortFunctions := by decide
  unfold wordToLongArray
  simp only [if_neg hlong, if_neg hshort, and_self, if_true, hv]

/-- What the converter makes of an item, wherever it stands in the body. -/
theorem encodeTokens_item (item : Item) {fuel : ℕ} (hfuel : item.fuel ≤ fuel)
    (toks : List Token) :
    encodeTokens fuel false (item.tokens ++ toks) =
      (encodeTokens fuel false toks).bind fun tail =>
        .done (item.cells ++ tail.1, tail.2) := by
  have hnot : ∀ f ∈ nameFunctions ++ longFunctions ++ shortFunctions, f ≠ .variable := by decide
  cases item with
  | name f w hf hw =>
    have hvar := hnot f (by simp [hf])
    have hword := wordToLongArray_name hf hw hfuel
    simp only [Item.tokens, List.singleton_append, encodeTokens, functionAction, if_neg hvar,
      hword, Outcome.done_bind]
    rfl
  | long f param v hf hv _ =>
    have hvar := hnot f (by simp [hf])
    simp only [Item.tokens, List.singleton_append, encodeTokens, functionAction, if_neg hvar,
      wordToLongArray_long hf hv, Outcome.done_bind]
    rfl
  | short f param v hf hv _ =>
    have hvar := hnot f (by simp [hf])
    simp only [Item.tokens, List.singleton_append, encodeTokens, functionAction, if_neg hvar,
      wordToLongArray_short hf hv, Outcome.done_bind]
    rfl
  | valued w param v hw hv =>
    have hword := wordToLongArray_variable hw hfuel
    have hne : BlockFunction.compileWord ≠ .variable := by decide
    simp only [Item.tokens, List.cons_append, List.nil_append, encodeTokens, functionAction,
      if_pos, if_neg hne, hword, wordToLongArray_value hv, Outcome.done_bind]
    cases encodeTokens fuel false toks with
    | done tail => simp [Item.cells]
    | stopped => rfl
    | outOfFuel => rfl

/-- Every body is encoded, item by item. -/
theorem encodes_body (body : List Item) : Encodes (bodyTokens body) (bodyCells body) := by
  refine ⟨(body.map Item.fuel).sum, fun fuel hfuel => ?_⟩
  induction body with
  | nil => rfl
  | cons item body ih =>
    rw [List.map_cons, List.sum_cons] at hfuel
    have hrest := ih (by omega)
    unfold bodyTokens bodyCells at hrest ⊢
    rw [List.flatMap_cons, encodeTokens_item item (by omega), hrest, List.flatMap_cons]
    rfl

/-- A function other than the variable, with a parameter that it takes. -/
def AcceptedToken (tok : Token) : Prop :=
  (tok.1 ∈ nameFunctions ∧ IsWord tok.2) ∨
  (tok.1 ∈ longFunctions ∧ ∃ v, taggedInt (getTagsForFunction tok.1) tok.2 = some v ∧
    (fivebitFunction tok.1 = none → -2 ^ 31 < v ∧ v < 2 ^ 31)) ∨
  (tok.1 ∈ shortFunctions ∧ ∃ v, taggedInt (getTagsForFunction tok.1) tok.2 = some v ∧
    (fivebitFunction tok.1 = none → -2 ^ 26 ≤ v ∧ v < 2 ^ 26))

/-- Every variable is followed by the function that gives its value. -/
inductive Accepted : List Token → Prop
  | nil : Accepted []
  | token {tok : Token} {toks : List Token} (head : AcceptedToken tok) (rest : Accepted toks) :
      Accepted (tok :: toks)
  | valued {w param : List Char} {v : ℤ} {toks : List Token} (word : IsWord w)
      (value : int 10 param = some v) (rest : Accepted toks) :
      Accepted ((.variable, w) :: (.compileWord, param) :: toks)

theorem exists_item_of_acceptedToken {tok : Token} (h : AcceptedToken tok) :
    ∃ item : Item, item.tokens = [tok] := by
  rcases h with ⟨hf, hw⟩ | ⟨hf, v, hv, hrange⟩ | ⟨hf, v, hv, hrange⟩
  · exact ⟨.name tok.1 tok.2 hf hw, rfl⟩
  · exact ⟨.long tok.1 tok.2 v hf hv hrange, rfl⟩
  · exact ⟨.short tok.1 tok.2 v hf hv hrange, rfl⟩

/-- The functions of block bodies are exactly the accepted ones. -/
theorem accepted_iff_exists_body (toks : List Token) :
    Accepted toks ↔ ∃ body, bodyTokens body = toks := by
  constructor
  · intro h
    induction h with
    | nil => exact ⟨[], rfl⟩
    | token head rest ih =>
      obtain ⟨body, rfl⟩ := ih
      obtain ⟨item, hitem⟩ := exists_item_of_acceptedToken head
      exact ⟨item :: body, by rw [bodyTokens, List.flatMap_cons, hitem]; rfl⟩
    | valued word value rest ih =>
      obtain ⟨body, rfl⟩ := ih
      exact ⟨.valued _ _ _ word value :: body, rfl⟩
  · rintro ⟨body, rfl⟩
    induction body with
    | nil => exact .nil
    | cons item body ih =>
      cases item with
      | name f w hf hw => exact .token (.inl ⟨hf, hw⟩) ih
      | long f param v hf hv hrange => exact .token (.inr (.inl ⟨hf, v, hv, hrange⟩)) ih
      | short f param v hf hv hrange => exact .token (.inr (.inr ⟨hf, v, hv, hrange⟩)) ih
      | valued w param v hw hv => exact .valued hw hv ih

end Einherjar.Colorforth
