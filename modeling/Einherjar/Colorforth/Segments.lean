import Einherjar.Colorforth.BlockBody
import Einherjar.Colorforth.Grammar
import Einherjar.Colorforth.LetterNumbers
import Einherjar.Lib.ZeroTail

/-! The words of each function that `totext` prints, and what the converter makes of the function
when it reads it again. -/
namespace Einherjar.Colorforth
open Einherjar.Lib ParseCFBlockToText

/-- The letters of several words. -/
def shown (cells : List Cell) : List Char := (cells.map unpack).flatten

/-- Words that belong to the function begun before. -/
def Extends (cells : List Cell) : Prop := ∀ word ∈ cells, tmpTag word = 0

/-- `Segment cells toks`: the words `cells` are printed as the functions `toks`. -/
inductive Segment : List Cell → List Token → Prop
  | name {word : Cell} {exts : List Cell} (tag : tmpTag word ∈ nameTags) (more : Extends exts) :
      Segment (word :: exts) [(tagFunction (tmpTag word) false, shown (word :: exts))]
  | long {word n : Cell} {exts : List Cell} {text : List Char}
      (tag : tmpTag word = 2 ∨ tmpTag word = 5) (number : numberText n word = .done text)
      (more : Extends exts) :
      Segment (word :: n :: exts)
        [(tagFunction (tmpTag word) (hexbit word), text ++ shown exts)]
  | short {word : Cell} {exts : List Cell} {text : List Char}
      (tag : tmpTag word = 6 ∨ tmpTag word = 8 ∨ tmpTag word = 0xf)
      (number : numberText (word.sshiftRight 5) word = .done text) (more : Extends exts) :
      Segment (word :: exts) [(tagFunction (tmpTag word) (hexbit word), text ++ shown exts)]
  | valued {word n : Cell} {exts : List Cell} {text : List Char} (tag : tmpTag word = 0xc)
      (number : decimalText n = .done text) (more : Extends exts) :
      Segment (word :: n :: exts) [(.variable, unpack word), (.compileWord, text ++ shown exts)]

/-- The words of a block and the functions that are printed for them. -/
inductive Segments : List Cell → List Token → Prop
  | nil : Segments [] []
  | cons {cells rest : List Cell} {ts toks : List Token} (head : Segment cells ts)
      (next : Segments rest toks) : Segments (cells ++ rest) (ts ++ toks)
  | longCut {word : Cell} (tag : tmpTag word = 2 ∨ tmpTag word = 5) :
      Segments [word] [(tagFunction (tmpTag word) (hexbit word), [])]
  | variableCut {word : Cell} (tag : tmpTag word = 0xc) :
      Segments [word] [(.variable, unpack word)]

section printing

variable {cells exts rest : List Cell} {lead : List Char} {toks ts : List Token}

theorem shown_append (xs ys : List Cell) : shown (xs ++ ys) = shown xs ++ shown ys := by
  simp [shown]

theorem shown_zeros (k : ℕ) : shown (List.replicate k 0) = [] := map_unpack_zeros k

/-- What is printed, divided into the words of each function. -/
theorem ParseCFBlockToText.Prints.segments (h : Prints cells lead toks) :
    ∃ exts rest, cells = exts ++ rest ∧ Extends exts ∧ lead = shown exts ∧ Segments rest toks := by
  have hnil : Extends [] := by simp [Extends]
  induction h with
  | nil => exact ⟨[], [], rfl, hnil, rfl, .nil⟩
  | @extension word rest lead toks tag next ih =>
    obtain ⟨exts, rest, rfl, hexts, rfl, hsegments⟩ := ih
    exact ⟨word :: exts, rest, rfl, List.forall_mem_cons.mpr ⟨tag, hexts⟩, rfl, hsegments⟩
  | @name word rest lead toks tag next ih =>
    obtain ⟨exts, rest, rfl, hexts, rfl, hsegments⟩ := ih
    exact ⟨[], _, rfl, hnil, rfl, .cons (.name tag hexts) hsegments⟩
  | long tag number next ih =>
    obtain ⟨exts, rest, rfl, hexts, rfl, hsegments⟩ := ih
    exact ⟨[], _, rfl, hnil, rfl, .cons (.long tag number hexts) hsegments⟩
  | longCut tag => exact ⟨[], _, rfl, hnil, rfl, .longCut tag⟩
  | short tag number next ih =>
    obtain ⟨exts, rest, rfl, hexts, rfl, hsegments⟩ := ih
    exact ⟨[], _, rfl, hnil, rfl, .cons (.short tag number hexts) hsegments⟩
  | valued tag number next ih =>
    obtain ⟨exts, rest, rfl, hexts, rfl, hsegments⟩ := ih
    exact ⟨[], _, rfl, hnil, rfl, .cons (.valued tag number hexts) hsegments⟩
  | variableCut tag => exact ⟨[], _, rfl, hnil, rfl, .variableCut tag⟩

theorem ParseCFBlockToText.Prints.of_extends (hexts : Extends exts) (h : Prints rest lead toks) :
    Prints (exts ++ rest) (shown exts ++ lead) toks := by
  induction exts with
  | nil => exact h
  | cons word exts ih =>
    obtain ⟨htag, hexts⟩ := List.forall_mem_cons.mp hexts
    have hprints := Prints.extension htag (ih hexts)
    simpa [shown] using hprints

theorem Segments.prints (h : Segments cells toks) : Prints cells [] toks := by
  induction h with
  | nil => exact .nil
  | @cons cells rest ts toks head next ih =>
    cases head with
    | name tag hexts => simpa [shown] using Prints.name tag (Prints.of_extends hexts ih)
    | long tag number hexts =>
      simpa using Prints.long tag number (Prints.of_extends hexts ih)
    | short tag number hexts =>
      simpa using Prints.short tag number (Prints.of_extends hexts ih)
    | valued tag number hexts =>
      simpa using Prints.valued tag number (Prints.of_extends hexts ih)
  | longCut tag => exact .longCut tag
  | variableCut tag => exact .variableCut tag

end printing

end Einherjar.Colorforth
