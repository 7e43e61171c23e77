import Einherjar.Colorforth.TextCells

/-! The converter's `tocf`: the actions of its grammar, and the image that they put together. -/
namespace Einherjar.Colorforth
open Einherjar.Lib

/-- What the grammar finds in a block: the number in its header, and its functions. -/
structure SourceBlock where
  number : ℕ
  tokens : List Token

/-- The fields of the class. -/
structure ParseTextToCFBlock where
  out : List Cell
  outPerBlock : List Cell
  blockNumber : ℕ
  inVariable : Bool

namespace ParseTextToCFBlock

def init : ParseTextToCFBlock := ⟨[], [], 0, false⟩

def functionAction (fuel : ℕ) (tok : Token) (s : ParseTextToCFBlock) :
    Outcome ParseTextToCFBlock :=
  (Colorforth.functionAction fuel s.inVariable tok).bind fun cells =>
    .done { s with outPerBlock := s.outPerBlock ++ cells.1, inVariable := cells.2 }

/-- A block that is too long is not cut off: only a message is printed. -/
def blockAction (number : ℕ) (s : ParseTextToCFBlock) : ParseTextToCFBlock :=
  let outPerBlock :=
    if s.outPerBlock.length < 256 then
      s.outPerBlock ++ List.replicate (256 - s.outPerBlock.length) 0
    else s.outPerBlock
  { s with blockNumber := number, out := s.out ++ outPerBlock, outPerBlock := [] }

/-- The actions of a block: those of its functions come before its own. -/
def block (fuel : ℕ) (b : SourceBlock) (s : ParseTextToCFBlock) : Outcome ParseTextToCFBlock :=
  (Outcome.forEach (functionAction fuel) b.tokens s).bind fun s => .done (s.blockAction b.number)

end ParseTextToCFBlock

/-- The image that is written for the blocks of an accepted text. -/
def tocf (fuel : ℕ) (blocks : List SourceBlock) : Outcome (List Cell) :=
  (Outcome.forEach (ParseTextToCFBlock.block fuel) blocks .init).bind fun s => .done s.out

/-- The cells of the functions of each block. -/
def encodeBlocks (fuel : ℕ) : Bool → List SourceBlock → Outcome (List (List Cell))
  | _, [] => .done []
  | inVariable, b :: bs =>
    (encodeTokens fuel inVariable b.tokens).bind fun head =>
      (encodeBlocks fuel head.2 bs).bind fun tail => .done (head.1 :: tail)

/-- The cells of a block, filled up with zeros. -/
def padded (cells : List Cell) : List Cell := cells ++ List.replicate (256 - cells.length) 0

namespace ParseTextToCFBlock

variable {fuel : ℕ}

theorem forEach_functionAction (toks : List Token) (s : ParseTextToCFBlock) :
    Outcome.forEach (functionAction fuel) toks s =
      (encodeTokens fuel s.inVariable toks).bind fun cells =>
        .done { s with outPerBlock := s.outPerBlock ++ cells.1, inVariable := cells.2 } := by
  induction toks generalizing s with
  | nil => simp [Outcome.forEach, encodeTokens]
  | cons tok toks ih =>
    rw [Outcome.forEach, encodeTokens, functionAction, Outcome.bind_assoc, Outcome.bind_assoc]
    congr 1
    funext head
    simp only [Outcome.done_bind, ih, Outcome.bind_assoc, List.append_assoc]

theorem blockAction_eq (number : ℕ) (s : ParseTextToCFBlock) :
    s.blockAction number =
      { s with
        blockNumber := number, out := s.out ++ padded s.outPerBlock, outPerBlock := [] } := by
  unfold blockAction padded
  by_cases hlen : s.outPerBlock.length < 256
  · simp only [if_pos hlen]
  · simp only [if_neg hlen, Nat.sub_eq_zero_of_le (Nat.le_of_not_lt hlen), List.replicate_zero,
      List.append_nil]

/-- A block adds its cells to the image, filled up with zeros. -/
theorem block_eq (b : SourceBlock) {s : ParseTextToCFBlock} (hs : s.outPerBlock = []) :
    block fuel b s =
      (encodeTokens fuel s.inVariable b.tokens).bind fun cells =>
        .done ⟨s.out ++ padded cells.1, [], b.number, cells.2⟩ := by
  rw [block, forEach_functionAction, Outcome.bind_assoc]
  simp only [Outcome.done_bind, blockAction_eq, hs, List.nil_append]

theorem forEach_block (blocks : List SourceBlock) {s : ParseTextToCFBlock}
    (hs : s.outPerBlock = []) :
    ((Outcome.forEach (block fuel) blocks s).bind fun s => .done s.out) =
      (encodeBlocks fuel s.inVariable blocks).bind fun css =>
        .done (s.out ++ css.flatMap padded) := by
  induction blocks generalizing s with
  | nil => simp [Outcome.forEach, encodeBlocks]
  | cons b blocks ih =>
    rw [Outcome.forEach, encodeBlocks, block_eq b hs]
    simp only [Outcome.bind_assoc, Outcome.done_bind]
    congr 1
    funext cells
    rw [ih rfl]
    simp only [List.flatMap_cons, List.append_assoc]

end ParseTextToCFBlock

/-- The blocks stand in the image in the order of the text, whatever their headers say. -/
theorem tocf_eq (fuel : ℕ) (blocks : List SourceBlock) :
    tocf fuel blocks =
      (encodeBlocks fuel false blocks).bind fun css => .done (css.flatMap padded) := by
  rw [tocf, ParseTextToCFBlock.forEach_block blocks rfl]
  rfl

theorem encodeTokens_append (fuel : ℕ) (inVariable : Bool) (ts toks : List Token) :
    encodeTokens fuel inVariable (ts ++ toks) =
      (encodeTokens fuel inVariable ts).bind fun head =>
        (encodeTokens fuel head.2 toks).bind fun tail => .done (head.1 ++ tail.1, tail.2) := by
  induction ts generalizing inVariable with
  | nil => simp [encodeTokens]
  | cons tok ts ih =>
    simp only [List.cons_append, encodeTokens, ih, Outcome.bind_assoc, Outcome.done_bind,
      List.append_assoc]

section fuel

theorem wordToLongArray_mono (inVariable : Bool) (f : BlockFunction) (param : List Char) :
    Monotone fun fuel => wordToLongArray fuel inVariable f param := by
  intro m n hmn
  simp only [wordToLongArray]
  split_ifs
  · exact le_rfl
  · exact le_rfl
  · exact le_rfl
  · exact Outcome.bind_mono (packWord_mono _ _ hmn) fun _ => le_rfl

theorem encodeTokens_mono (inVariable : Bool) (toks : List Token) :
    Monotone fun fuel => encodeTokens fuel inVariable toks := by
  intro m n hmn
  induction toks generalizing inVariable with
  | nil => exact le_rfl
  | cons tok toks ih =>
    exact Outcome.bind_mono (wordToLongArray_mono _ _ _ hmn) fun head =>
      Outcome.bind_mono (ih head.2) fun _ => le_rfl

theorem encodeBlocks_mono (inVariable : Bool) (blocks : List SourceBlock) :
    Monotone fun fuel => encodeBlocks fuel inVariable blocks := by
  intro m n hmn
  induction blocks generalizing inVariable with
  | nil => exact le_rfl
  | cons b blocks ih =>
    exact Outcome.bind_mono (encodeTokens_mono _ _ hmn) fun head =>
      Outcome.bind_mono (ih head.2) fun _ => le_rfl

end fuel

end Einherjar.Colorforth
