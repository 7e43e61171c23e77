import Einherjar.Colorforth.Decoders
import Einherjar.Colorforth.Numbers

/-! `cf2html.c`: the blocks on the standard input as HTML on the standard output. -/
namespace Einherjar.Colorforth
open Einherjar.Io Einherjar.Lib

namespace Cf2html

def function : List String :=
  ["extension", "execute", "execute", "define",
   "compile", "compile", "compile", "compilemacro",
   "execute", "text", "textcapitalized", "textallcaps",
   "variable", "compiler_feedback", "display_macro", "commented_number",
   "", "", "executehex", "",
   "", "compilehex", "compilehex", "", "executehex", "", "", "",
   "executehex", "", "", "",
   "", "", "", "commented_number"]

/-- `print_tags(p, t)` -/
def printTags (p : Bool) (t : ℕ) : List Char :=
  (if p then "</code>".toList else []) ++ (if t = 3 ∧ p then "<br>".toList else []) ++
    ("<code class=".toList ++ (function.getD t "").toList ++ ">".toList) ++
    if t ≠ 3 then [' '] else []

/-- `print_hex`. Its `if (i == 0) putchar ('0'); return;` returns in any case, so that its loop is
never reached. -/
def printHex (i : BitVec 32) : List Char := if i = 0 then ['0'] else []

/-- `print_dec`, with the same `return`. -/
def printDec (i : BitVec 32) : List Char := if i = 0 then ['0'] else []

/-- The variables of `main` but the countdown `w`, and what is left of the input. -/
structure Exporter where
  b : BitVec 32
  p : Bool
  t : Cell
  n : Cell
  pos : BitVec 32
  input : List Cell

/-- `fread (&n, 4, 1, stdin)`, which is not checked: at the end of the input `n` stays. -/
def Exporter.readNumber (s : Exporter) : Exporter :=
  match s.input with
  | [] => s
  | c :: input => { s with n := c, input := input }

/-- `fread (&t, 4, 1, stdin)`: whether it has read a cell. -/
def Exporter.readWord (s : Exporter) : Exporter × Bool :=
  match s.input with
  | [] => (s, false)
  | c :: input => ({ s with t := c, input := input }, true)

/-- What `main` has printed, with what it was for. -/
inductive Printed where
  | text (s : List Char)
  /-- The header of a block. `t` holds the next word, `pos` the position behind it. -/
  | header (s : List Char) (b pos : BitVec 32) (t : Cell)
  /-- A word, and the cell after it when that has been read for it. -/
  | word (s : List Char) (pos : BitVec 32) (t : Cell) (payload : Option Cell)

/-- The `switch` for the word in `t`. -/
structure Switch where
  printed : List Char
  payload : Option Cell
  state : Exporter
  w : ℕ

def switchWord (fuel : ℕ) (s : Exporter) (w : ℕ) : Outcome Switch :=
  let color := (s.t &&& 0xf#32).toNat
  match color with
  | 0 =>
    (printText fuel (s.t &&& 0xfffffff0#32)).bind fun text => .done ⟨text, none, s, w⟩
  | 2 | 5 =>
    let tags := printTags s.p (s.t &&& 0x1f#32).toNat
    if w = 0 then .done ⟨tags, none, s, w⟩
    else
      let s := s.readNumber
      let number := if s.t &&& 0x10#32 ≠ 0 then printHex s.n else printDec s.n
      .done ⟨tags ++ number, some s.n, { s with pos := s.pos + 4 }, w - 1⟩
  | 6 | 8 | 15 =>
    let tags := printTags s.p (s.t &&& 0x1f#32).toNat
    let number :=
      if s.t &&& 0x10#32 ≠ 0 then printHex (s.t.sshiftRight 5) else printDec (s.t.sshiftRight 5)
    .done ⟨tags ++ number, none, s, w⟩
  | 12 =>
    (printText fuel (s.t &&& 0xfffffff0#32)).bind fun text =>
      let name := printTags s.p (s.t &&& 0xf#32).toNat ++ text
      if w = 0 then .done ⟨name, none, s, w⟩
      else
        let s := s.readWord.1
        .done ⟨name ++ (printTags true 4 ++ printDec s.t), some s.t,
          { s with pos := s.pos + 4 }, w - 1⟩
  | color =>
    (printText fuel (s.t &&& 0xfffffff0#32)).bind fun text =>
      .done ⟨printTags s.p color ++ text, none, s, w⟩

/-- `printf("<!-- pos: %d -->", pos)` -/
def positionComment (pos : BitVec 32) : List Char :=
  "<!-- pos: ".toList ++ decimal pos.toInt ++ " -->".toList

/-- `while (w--)`: what is printed, the state after it, and whether the input has ended. -/
def wordLoop : ℕ → Exporter → ℕ → Outcome (List Printed × Exporter × Bool)
  | 0, _, _ => .outOfFuel
  | _ + 1, s, 0 => .done ([], s, false)
  | fuel + 1, s, w + 1 =>
    (switchWord fuel s w).bind fun done =>
      let word := .word (positionComment s.pos ++ done.printed) s.pos s.t done.payload
      let (next, more) := { done.state with p := true }.readWord
      if more then
        (wordLoop fuel { next with pos := next.pos + 4 } done.w).bind fun (rest, s, ended) =>
          .done (word :: rest, s, ended)
      else .done ([word, .text "</code>\n</div>\n".toList], next, true)

/-- `while (1)` -/
def blockLoop : ℕ → Exporter → Outcome (List Printed)
  | 0, _ => .outOfFuel
  | fuel + 1, s =>
    let header := .header
      ("\x7bblock ".toList ++ decimal s.b.toInt ++ "\x7d\n".toList ++ "<div class=code>\n".toList)
      s.b s.pos s.t
    (wordLoop fuel { s with b := s.b + 1 } 256).bind fun (words, s, ended) =>
      if ended then .done (header :: words ++ [.text "</html>\n".toList])
      else
        let footer := (if s.p then "</code>\n".toList else []) ++ "</div>\n<hr>\n".toList
        (blockLoop fuel { s with p := false }).bind fun rest =>
          .done (header :: words ++ .text footer :: rest)

def pageStart : List String :=
  ["<html>\n",
   "<link rel=stylesheet type=\"text/css\" href=\"colorforth.css\">\n",
   "  <style type=\"text/css\">\n",
   "  body \x7b margin-right:10%;\x7d\n",
   "  div.code \x7b\n",
   "    width:100%;\n",
   "    padding:0.5em;\n",
   "    background-color:black;\n",
   "    font-size:xx-large;\n",
   "    font-weight:bold;\n",
   "    text-transform:lowercase;\n",
   "  \x7d\n",
   "  code.define \x7b color:red; \x7d\n",
   "  code.compile \x7b color:#00ff00; \x7d\n",
   "  code.compilehex \x7b color:green; \x7d\n",
   "  code.execute \x7b color:yellow; \x7d\n",
   "  code.executehex \x7b color:#c0c000; \x7d\n",
   "  code.compilemacro \x7b color:#00ffff; \x7d\n",
   "  code.variable \x7bcolor:#ff00ff; \x7d\n",
   "  code.text \x7b color:white; \x7d\n",
   "  code.textcapitalized \x7b color:white; text-transform:capitalize; \x7d\n",
   "  code.textallcaps \x7b color:white; text-transform:uppercase; \x7d\n",
   "  code.display_macro \x7b color:#0000FF; \x7d\n",
   "  code.compiler_feedback \x7b color:grey; \x7d\n",
   "  code.commented_number \x7b color:white; \x7d\n",
   "  </style>\n"]

/-- `main`, with the value that `n` happens to have. -/
def main (fuel : ℕ) (n : Cell) (input : List Cell) : Outcome (List Printed) :=
  let start := .text (pageStart.flatMap String.toList)
  match input with
  | [] => .done [start]
  | t :: input =>
    (blockLoop fuel { b := 0, p := false, t := t, n := n, pos := 4, input := input }).bind
      fun printed => .done (start :: printed)

/-- The number that a word shows: whether in base 16, and its value. -/
def shownNumber (t : Cell) (payload : Option Cell) : Option (Bool × Cell) :=
  match (t &&& 0xf#32).toNat with
  | 2 | 5 => payload.map fun c => (t &&& 0x10#32 ≠ 0, c)
  | 6 | 8 | 15 => some (t &&& 0x10#32 ≠ 0, t.sshiftRight 5)
  | 12 => payload.map fun c => (false, c)
  | _ => none

def numeralOf (isHex : Bool) (v : Cell) : List Char :=
  if isHex then numeral 16 v.toNat else decimal v.toInt

/-- The printers give the same characters as those of the editor. -/
def SamePrinters (v : Cell) : Prop :=
  display (printDec v) = Colorforth.printDec v ∧ display (printHex v) = Colorforth.printHex v

section numbers

variable {v : Cell}

theorem printTags_eq (p : Bool) {t : ℕ} (ht : t ≠ 3) :
    ∃ before, printTags p t = before ++ [' '] := by
  unfold printTags
  rw [if_pos ht]
  exact ⟨_, rfl⟩

theorem and_0x1f_ne_three (t : Cell) {k : ℕ} (hk : (t &&& 0xf#32).toNat = k) (hne : k ≠ 3) :
    (t &&& 0x1f#32).toNat ≠ 3 := by
  have hlow : t.toNat % 16 = k := by
    rw [← hk, BitVec.toNat_and]
    exact (Nat.and_two_pow_sub_one_eq_mod _ 4).symm
  have hfive : (t &&& 0x1f#32).toNat = t.toNat % 32 := by
    rw [BitVec.toNat_and]
    exact Nat.and_two_pow_sub_one_eq_mod _ 5
  omega

/-- Both printers do the same. -/
theorem printHex_eq (i : BitVec 32) : printHex i = printDec i := rfl

theorem numeralOf_zero (isHex : Bool) : numeralOf isHex 0 = ['0'] := by cases isHex <;> rfl

theorem space_notMem_numeralOf (isHex : Bool) (v : Cell) : ' ' ∉ numeralOf isHex v := by
  have hnumeral : ∀ base n, ' ' ∉ numeral base n := notMem_numeral (by decide) (by decide)
  unfold numeralOf decimal
  split_ifs
  · exact hnumeral _ _
  · rw [List.mem_cons, not_or]
    exact ⟨by decide, hnumeral _ _⟩
  · exact hnumeral _ _

theorem numeralOf_ne_nil (isHex : Bool) (v : Cell) : numeralOf isHex v ≠ [] := by
  unfold numeralOf decimal
  split_ifs
  · exact numeral_ne_nil _ _
  · exact List.cons_ne_nil _ _
  · exact numeral_ne_nil _ _

/-- What a word that shows a number prints ends with the call of a printer for it. -/
theorem switchWord_number {fuel w : ℕ} {s : Exporter} {r : Switch} {isHex : Bool}
    (h : switchWord fuel s w = .done r) (hn : shownNumber s.t r.payload = some (isHex, v)) :
    ∃ before, r.printed = before ++ [' '] ++ printDec v := by
  unfold switchWord at h
  unfold shownNumber at hn
  generalize hk : (s.t &&& 0xf#32).toNat = k at h hn
  simp only [printHex_eq, ite_self] at h
  split at h
  case h_1 => cases hn
  case h_2 | h_3 =>
    obtain ⟨before, htags⟩ := printTags_eq s.p (and_0x1f_ne_three s.t hk (by decide))
    split_ifs at h
    · cases h
      cases hn
    · cases h
      cases hn
      exact ⟨before, by rw [htags]⟩
  case h_7 =>
    obtain ⟨text, -, h⟩ := Outcome.bind_eq_done h
    obtain ⟨before, htags⟩ := printTags_eq true (show 4 ≠ 3 by decide)
    split_ifs at h
    · cases h
      cases hn
    · cases h
      cases hn
      exact ⟨printTags s.p 12 ++ text ++ before, by simp only [htags, List.append_assoc]⟩
  case h_8 =>
    obtain ⟨text, -, h⟩ := Outcome.bind_eq_done h
    cases h
    split at hn <;> simp_all
  all_goals
    obtain ⟨before, htags⟩ := printTags_eq s.p (and_0x1f_ne_three s.t hk (by decide))
    cases h
    cases hn
    exact ⟨before, by rw [htags]⟩

theorem samePrinters_iff : SamePrinters v ↔ v = 0 := by
  constructor
  · intro h
    by_contra hv
    have hhex := h.2
    rw [Colorforth.printHex_eq, printHex, if_neg hv] at hhex
    exact numeral_ne_nil 16 v.toNat (List.map_eq_nil_iff.mp hhex.symm)
  · rintro rfl
    exact ⟨rfl, rfl⟩

/-- Of a number that is not 0, the HTML shows nothing. -/
theorem numeralOf_suffix_iff {fuel w : ℕ} {s : Exporter} {r : Switch} {isHex : Bool}
    (h : switchWord fuel s w = .done r) (hn : shownNumber s.t r.payload = some (isHex, v)) :
    numeralOf isHex v <:+ r.printed ↔ v = 0 := by
  obtain ⟨before, hprinted⟩ := switchWord_number h hn
  rw [hprinted]
  constructor
  · intro hsuffix
    by_contra hv
    rw [printDec, if_neg hv, List.append_nil] at hsuffix
    obtain ⟨front, hfront⟩ := hsuffix
    have hlast := congrArg List.getLast? hfront
    rw [List.getLast?_append_of_ne_nil _ (numeralOf_ne_nil isHex v), List.getLast?_concat] at hlast
    exact space_notMem_numeralOf isHex v (List.mem_of_getLast? hlast)
  · rintro rfl
    rw [numeralOf_zero]
    exact List.suffix_append _ _

end numbers

/-- The printers agree with the editor's for 0 only; the words that show another number are in the
HTML without it. -/
theorem samePrinters_and_rendered_iff (v : Cell) : (SamePrinters v ↔ v = 0) ∧
    ∀ fuel s w r isHex, switchWord fuel s w = .done r →
      shownNumber s.t r.payload = some (isHex, v) → (numeralOf isHex v <:+ r.printed ↔ v = 0) :=
  ⟨samePrinters_iff, fun _ _ _ _ _ h hn => numeralOf_suffix_iff h hn⟩

/-- `1` is not printed. -/
theorem one_notPrinted : ¬ ∀ v : Cell, v ≠ 0x80000000#32 → SamePrinters v := by
  intro h
  exact absurd (samePrinters_iff.mp (h 1 (by decide))) (by decide)

end Cf2html

end Einherjar.Colorforth
