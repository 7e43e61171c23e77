import Einherjar.Colorforth.CellTexts
import Einherjar.Colorforth.PrintedNumbers

/-! The functions that `totext` prints for the words of a block. -/
namespace Einherjar.Colorforth
open Einherjar.Lib

/-- The function whose name has `hex_` before that of `f`. -/
def hexFunction : BlockFunction → BlockFunction
  | .executeLong => .hexExecuteLong
  | .executeShort => .hexExecuteShort
  | .compileShort => .hexCompileShort
  | .compileLong => .hexCompileLong
  | .commentedNumber => .hexCommentedNumber
  | f => f

/-- The function that `print_tags` writes. -/
def tagFunction (typebits : ℕ) (hexbit : Bool) : BlockFunction :=
  let f := functions.getD typebits .extension
  if hexbit then hexFunction f else f

/-- The tags of words that are printed as letters, but the variable. -/
def nameTags : List ℕ := [1, 3, 4, 7, 9, 10, 11, 13, 14]

namespace ParseCFBlockToText

/-- What is printed for a number in the end. -/
noncomputable def numberText (n word : Cell) : Outcome (List Char) :=
  Outcome.limit fun fuel => printHexOrDec fuel n word

noncomputable def decimalText (n : Cell) : Outcome (List Char) :=
  Outcome.limit fun fuel => printDec fuel n

theorem numberText_eq (n word : Cell) : numberText n word =
    if hexbit word then .done (printHex n)
    else if Printable n then .done (decimal n.toInt) else .outOfFuel := by
  unfold numberText printHexOrDec hexbit
  by_cases hbit : word &&& 0x10#32 ≠ 0
  · simp only [if_pos hbit, decide_eq_true hbit, if_true, Outcome.limit_const]
  · simp only [if_neg hbit, decide_eq_false hbit, limit_printDec]
    rfl

/-- `Prints cells lead toks`: for the words `cells`, the letters `lead` are printed, which belong
to the function begun before, and then the functions `toks`. -/
inductive Prints : List Cell → List Char → List Token → Prop
  | nil : Prints [] [] []
  | extension {word : Cell} {rest : List Cell} {lead : List Char} {toks : List Token}
      (tag : tmpTag word = 0) (next : Prints rest lead toks) :
      Prints (word :: rest) (unpack word ++ lead) toks
  | name {word : Cell} {rest : List Cell} {lead : List Char} {toks : List Token}
      (tag : tmpTag word ∈ nameTags) (next : Prints rest lead toks) :
      Prints (word :: rest) [] ((tagFunction (tmpTag word) false, unpack word ++ lead) :: toks)
  | long {word n : Cell} {rest : List Cell} {text lead : List Char} {toks : List Token}
      (tag : tmpTag word = 2 ∨ tmpTag word = 5) (number : numberText n word = .done text)
      (next : Prints rest lead toks) :
      Prints (word :: n :: rest) []
        ((tagFunction (tmpTag word) (hexbit word), text ++ lead) :: toks)
  | longCut {word : Cell} (tag : tmpTag word = 2 ∨ tmpTag word = 5) :
      Prints [word] [] [(tagFunction (tmpTag word) (hexbit word), [])]
  | short {word : Cell} {rest : List Cell} {text lead : List Char} {toks : List Token}
      (tag : tmpTag word = 6 ∨ tmpTag word = 8 ∨ tmpTag word = 0xf)
      (number : numberText (word.sshiftRight 5) word = .done text) (next : Prints rest lead toks) :
      Prints (word :: rest) [] ((tagFunction (tmpTag word) (hexbit word), text ++ lead) :: toks)
  | valued {word n : Cell} {rest : List Cell} {text lead : List Char} {toks : List Token}
      (tag : tmpTag word = 0xc) (number : decimalText n = .done text)
      (next : Prints rest lead toks) :
      Prints (word :: n :: rest) []
        ((.variable, unpack word) :: (.compileWord, text ++ lead) :: toks)
  | variableCut {word : Cell} (tag : tmpTag word = 0xc) :
      Prints [word] [] [(.variable, unpack word)]

/-- A letter is printed for one of the words. -/
def printsText : List Cell → Bool
  | [] => false
  | word :: rest =>
    if tmpTag word = 2 ∨ tmpTag word = 5 then
      match rest with
      | [] => false
      | _ :: rest => printsText rest
    else if tmpTag word = 6 ∨ tmpTag word = 8 ∨ tmpTag word = 0xf then printsText rest
    else if tmpTag word = 0xc then
      match rest with
      | [] => decide (unpack word ≠ [])
      | _ :: rest => decide (unpack word ≠ []) || printsText rest
    else decide (unpack word ≠ []) || printsText rest

/-- The beginning of a function; another one may end before it. -/
def opening (endWord : Bool) (f : BlockFunction) : List Char :=
  (if endWord then ") ".toList ++ (if f = .define then ['\n'] else []) else []) ++
    functionName f ++ ['(']

/-- The text of functions without the end of the last one. -/
def separated : Bool → List Token → List Char
  | _, [] => []
  | endWord, tok :: toks => opening endWord tok.1 ++ tok.2 ++ separated true toks

/-- Whether the first word belongs to the function begun before. -/
def startsInside : List Cell → Bool
  | [] => false
  | word :: _ => decide (tmpTag word = 0)

section tags

theorem printTags_eq (endWord : Bool) {typebits : ℕ} (hexbit : Bool) (s : ParseCFBlockToText)
    (h : typebits ∈ [2, 5, 6, 8, 0xf] ∨ hexbit = false ∧ typebits < 16) :
    printTags endWord typebits hexbit s =
      s.puts (opening endWord (tagFunction typebits hexbit)) := by
  have hlt : typebits < 16 := by
    have hall : ∀ t ∈ [2, 5, 6, 8, 0xf], t < 16 := by decide
    exact h.elim (hall typebits) And.right
  have hname : (if hexbit then "hex_".toList ++ functionName (functions.getD typebits .extension)
      else functionName (functions.getD typebits .extension)) =
        functionName (tagFunction typebits hexbit) := by
    have hall : ∀ t ∈ [2, 5, 6, 8, 0xf],
        "hex_".toList ++ functionName (functions.getD t .extension) =
          functionName (tagFunction t true) := by decide +kernel
    cases hexbit with
    | false => rfl
    | true => exact hall typebits (h.resolve_right (by simp))
  have hdefine : tagFunction typebits hexbit = .define ↔ typebits = 3 := by
    clear hname h
    revert hexbit
    interval_cases typebits <;> decide
  unfold printTags opening
  simp only [hdefine]
  rw [← hname]
  cases endWord <;> cases hexbit <;> by_cases h3 : typebits = 3 <;> simp [puts, h3]

end tags

section words

variable {cells rest : List Cell} {lead : List Char} {toks : List Token}

theorem limit_printText (word : Cell) (s : ParseCFBlockToText) :
    (Outcome.limit fun fuel => printText fuel (word.toNat &&& 0xfffffff0) s) =
      .done ⟨s.out ++ unpack word, s.hasOutput || decide (unpack word ≠ [])⟩ := by
  have hmono : Monotone fun fuel => Converter.printText fuel (word.toNat &&& 0xfffffff0) :=
    Outcome.letterLoop_mono _ _ _
  have htext : (Outcome.limit fun fuel => Converter.printText fuel (word.toNat &&& 0xfffffff0)) =
      .done (unpack word) :=
    (Outcome.limit_eq_done_iff hmono).mpr ⟨8, Converter.printText_cell word (by decide)⟩
  have hname : word.toNat &&& 0xfffffff0 ≠ 0 ↔ unpack word ≠ [] := by
    rw [and_name_mask _ word.isLt, Ne, Ne, unpack_eq_nil_iff]
    omega
  unfold printText
  rw [Outcome.limit_bind hmono fun _ _ _ _ => le_rfl, htext, Outcome.done_bind,
    Outcome.limit_const]
  simp only [hname]

theorem printText_mono (word : ℕ) (s : ParseCFBlockToText) :
    Monotone fun fuel => printText fuel word s := fun _ _ hab =>
  Outcome.bind_mono (Outcome.letterLoop_mono _ _ _ hab) fun _ => le_rfl

attribute [local simp] printWords

theorem printWords_mono (cells : List Cell) (endWord : Bool) (s : ParseCFBlockToText) :
    Monotone fun fuel => printWords fuel cells endWord s := by
  intro m n hmn
  induction hlen : cells.length using Nat.strong_induction_on generalizing cells endWord s with
  | _ len ih =>
    cases cells with
    | nil => exact le_rfl
    | cons word rest =>
      have hrest : ∀ e s, printWords m rest e s ≤ printWords n rest e s := fun e s =>
        ih rest.length (by rw [← hlen]; exact Nat.lt_succ_self _) rest e s rfl
      simp only [printWords]
      split_ifs
      · exact Outcome.bind_mono (printText_mono _ _ hmn) fun s => hrest true s
      · cases rest with
        | nil => exact le_rfl
        | cons another rest =>
          refine Outcome.bind_mono (printHexOrDec_mono _ _ hmn) fun text => ?_
          exact ih rest.length (by rw [← hlen]; simp) rest _ _ rfl
      · exact Outcome.bind_mono (printHexOrDec_mono _ _ hmn) fun text => hrest _ _
      · refine Outcome.bind_mono (printText_mono _ _ hmn) fun s => ?_
        cases rest with
        | nil => exact le_rfl
        | cons value rest =>
          refine Outcome.bind_mono (printDec_mono _ hmn) fun text => ?_
          exact ih rest.length (by rw [← hlen]; simp) rest _ _ rfl
      · exact Outcome.bind_mono (printText_mono _ _ hmn) fun s => hrest true s

theorem nameTags_kind {t : ℕ} (h : t ∈ nameTags) : t < 16 ∧ ¬ t = 0 ∧ ¬ (t = 2 ∨ t = 5) ∧
    ¬ (t = 6 ∨ t = 8 ∨ t = 0xf) ∧ ¬ t = 0xc := by
  revert t
  decide

/-- What `printWords` comes to. -/
noncomputable def printed (cells : List Cell) (endWord : Bool) (s : ParseCFBlockToText) :
    Outcome (Bool × ParseCFBlockToText) :=
  Outcome.limit fun fuel => printWords fuel cells endWord s

variable {word n : Cell} (endWord : Bool) (s : ParseCFBlockToText)

theorem printed_extension (htag : tmpTag word = 0) :
    printed (word :: rest) endWord s =
      printed rest true ⟨s.out ++ unpack word, s.hasOutput || decide (unpack word ≠ [])⟩ := by
  unfold printed
  simp only [printWords, htag, if_true]
  rw [Outcome.limit_bind (printText_mono _ _) fun s => printWords_mono rest true s,
    limit_printText, Outcome.done_bind]

theorem printed_name (htag : tmpTag word ∈ nameTags) :
    printed (word :: rest) endWord s =
      printed rest true ⟨s.out ++ opening endWord (tagFunction (tmpTag word) false) ++ unpack word,
        s.hasOutput || decide (unpack word ≠ [])⟩ := by
  obtain ⟨hlt, h0, hlong, hshort, hvar⟩ := nameTags_kind htag
  unfold printed
  simp only [printWords, if_neg h0, if_neg hlong, if_neg hshort, if_neg hvar,
    printTags_eq endWord false s (.inr ⟨rfl, hlt⟩)]
  rw [Outcome.limit_bind (printText_mono _ _) fun s => printWords_mono rest true s,
    limit_printText, Outcome.done_bind]
  rfl

theorem printed_long (htag : tmpTag word = 2 ∨ tmpTag word = 5) :
    printed (word :: n :: rest) endWord s =
      (numberText n word).bind fun text => printed rest true
        (s.puts (opening endWord (tagFunction (tmpTag word) (hexbit word)) ++ text)) := by
  have h0 : ¬ tmpTag word = 0 := by omega
  have hmem : tmpTag word ∈ [2, 5, 6, 8, 0xf] := by rcases htag with h | h <;> rw [h] <;> decide
  unfold printed numberText
  simp only [printWords, if_neg h0, if_pos htag, printTags_eq endWord _ s (.inl hmem)]
  rw [Outcome.limit_bind (printHexOrDec_mono _ _) fun text => printWords_mono rest true _]
  simp only [puts, List.append_assoc]

theorem printed_longCut (htag : tmpTag word = 2 ∨ tmpTag word = 5) :
    printed [word] endWord s =
      .done (endWord, s.puts (opening endWord (tagFunction (tmpTag word) (hexbit word)))) := by
  have h0 : ¬ tmpTag word = 0 := by omega
  have hmem : tmpTag word ∈ [2, 5, 6, 8, 0xf] := by rcases htag with h | h <;> rw [h] <;> decide
  unfold printed
  simp only [printWords, if_neg h0, if_pos htag, printTags_eq endWord _ s (.inl hmem),
    Outcome.limit_const]

theorem printed_short (htag : tmpTag word = 6 ∨ tmpTag word = 8 ∨ tmpTag word = 0xf) :
    printed (word :: rest) endWord s =
      (numberText (word.sshiftRight 5) word).bind fun text => printed rest true
        (s.puts (opening endWord (tagFunction (tmpTag word) (hexbit word)) ++ text)) := by
  have h0 : ¬ tmpTag word = 0 := by omega
  have hlong : ¬ (tmpTag word = 2 ∨ tmpTag word = 5) := by omega
  have hmem : tmpTag word ∈ [2, 5, 6, 8, 0xf] := by
    rcases htag with h | h | h <;> rw [h] <;> decide
  unfold printed numberText
  simp only [printWords, if_neg h0, if_neg hlong, if_pos htag,
    printTags_eq endWord _ s (.inl hmem)]
  rw [Outcome.limit_bind (printHexOrDec_mono _ _) fun text => printWords_mono rest true _]
  simp only [puts, List.append_assoc]

theorem variable_tag (htag : tmpTag word = 0xc) : ¬ tmpTag word = 0 ∧
    ¬ (tmpTag word = 2 ∨ tmpTag word = 5) ∧
      ¬ (tmpTag word = 6 ∨ tmpTag word = 8 ∨ tmpTag word = 0xf) := by omega

theorem tagFunction_variable : tagFunction 0xc false = .variable := by decide

theorem tagFunction_value : tagFunction 4 false = .compileWord := by decide

theorem printed_valued (htag : tmpTag word = 0xc) :
    printed (word :: n :: rest) endWord s =
      (decimalText n).bind fun text => printed rest true
        ⟨s.out ++ opening endWord .variable ++ unpack word ++ opening true .compileWord ++ text,
          s.hasOutput || decide (unpack word ≠ [])⟩ := by
  obtain ⟨h0, hlong, hshort⟩ := variable_tag htag
  unfold printed decimalText
  simp only [printWords, if_neg h0, if_neg hlong, if_neg hshort, if_pos htag]
  have hmono : ∀ s : ParseCFBlockToText, Monotone fun fuel => (printDec fuel n).bind fun text =>
      printWords fuel rest true ((s.printTags true 4 false).puts text) := fun s _ _ hab =>
    Outcome.bind_mono (printDec_mono n hab) fun text => printWords_mono rest true _ hab
  rw [Outcome.limit_bind (printText_mono _ _) hmono, limit_printText, Outcome.done_bind,
    Outcome.limit_bind (printDec_mono n) fun text => printWords_mono rest true _]
  simp only [htag, printTags_eq endWord false s (.inr ⟨rfl, show 0xc < 16 by decide⟩),
    printTags_eq true false _ (.inr ⟨rfl, show 4 < 16 by decide⟩), tagFunction_variable,
    tagFunction_value, puts, List.append_assoc]

theorem printed_variableCut (htag : tmpTag word = 0xc) :
    printed [word] endWord s =
      .done (endWord, ⟨s.out ++ opening endWord .variable ++ unpack word,
        s.hasOutput || decide (unpack word ≠ [])⟩) := by
  obtain ⟨h0, hlong, hshort⟩ := variable_tag htag
  unfold printed
  simp only [printWords, if_neg h0, if_neg hlong, if_neg hshort, if_pos htag]
  rw [Outcome.limit_bind (printText_mono _ _) fun _ _ _ _ => le_rfl, limit_printText,
    Outcome.done_bind, Outcome.limit_const]
  simp only [htag, printTags_eq endWord false s (.inr ⟨rfl, show 0xc < 16 by decide⟩),
    tagFunction_variable, puts]

/-- The letters of a word are printed unless it is a number. -/
theorem printsText_name (htag : ¬ (tmpTag word = 2 ∨ tmpTag word = 5) ∧
      ¬ (tmpTag word = 6 ∨ tmpTag word = 8 ∨ tmpTag word = 0xf) ∧ ¬ tmpTag word = 0xc) :
    printsText (word :: rest) = (decide (unpack word ≠ []) || printsText rest) := by
  cases rest <;> simp [printsText, htag.1, htag.2.1, htag.2.2]

theorem printsText_long (htag : tmpTag word = 2 ∨ tmpTag word = 5) :
    printsText (word :: n :: rest) = printsText rest := by
  rw [printsText, if_pos htag]

theorem printsText_short (htag : tmpTag word = 6 ∨ tmpTag word = 8 ∨ tmpTag word = 0xf) :
    printsText (word :: rest) = printsText rest := by
  have hlong : ¬ (tmpTag word = 2 ∨ tmpTag word = 5) := by omega
  cases rest <;> simp [printsText, hlong, htag]

theorem printsText_valued (htag : tmpTag word = 0xc) :
    printsText (word :: n :: rest) = (decide (unpack word ≠ []) || printsText rest) := by
  obtain ⟨-, hlong, hshort⟩ := variable_tag htag
  rw [printsText, if_neg hlong, if_neg hshort, if_pos htag]

/-- What is printed for the words. -/
theorem printed_eq (h : Prints cells lead toks) : ∃ flag,
    (endWord = true ∨ 2 ≤ cells.length → flag = true) ∧
      printed cells endWord s = .done (flag,
        ⟨s.out ++ lead ++ separated (endWord || startsInside cells) toks,
          s.hasOutput || printsText cells⟩) := by
  induction h generalizing endWord s with
  | nil =>
    refine ⟨endWord, by simp, ?_⟩
    unfold printed
    simp [printWords, separated, printsText]
  | @extension word rest lead toks tag next ih =>
    obtain ⟨flag, hflag, heq⟩ :=
      ih true ⟨s.out ++ unpack word, s.hasOutput || decide (unpack word ≠ [])⟩
    have htags : ¬ (tmpTag word = 2 ∨ tmpTag word = 5) ∧
        ¬ (tmpTag word = 6 ∨ tmpTag word = 8 ∨ tmpTag word = 0xf) ∧ ¬ tmpTag word = 0xc := by omega
    refine ⟨flag, fun _ => hflag (.inl rfl), ?_⟩
    rw [printed_extension endWord s tag, heq, printsText_name htags]
    simp [startsInside, tag, Bool.or_assoc]
  | @name word rest lead toks tag next ih =>
    obtain ⟨-, h0, htags⟩ := nameTags_kind tag
    obtain ⟨flag, hflag, heq⟩ := ih true
      ⟨s.out ++ opening endWord (tagFunction (tmpTag word) false) ++ unpack word,
        s.hasOutput || decide (unpack word ≠ [])⟩
    refine ⟨flag, fun _ => hflag (.inl rfl), ?_⟩
    rw [printed_name endWord s tag, heq, printsText_name htags]
    simp [startsInside, h0, separated, Bool.or_assoc]
  | @long word n rest text lead toks tag number next ih =>
    have h0 : ¬ tmpTag word = 0 := by omega
    obtain ⟨flag, hflag, heq⟩ := ih true
      (s.puts (opening endWord (tagFunction (tmpTag word) (hexbit word)) ++ text))
    refine ⟨flag, fun _ => hflag (.inl rfl), ?_⟩
    rw [printed_long endWord s tag, number, Outcome.done_bind, heq, printsText_long tag]
    simp [startsInside, h0, separated, puts]
  | @longCut word tag =>
    have h0 : ¬ tmpTag word = 0 := by omega
    refine ⟨endWord, by simp, ?_⟩
    rw [printed_longCut endWord s tag]
    simp [startsInside, h0, separated, puts, printsText, tag]
  | @short word rest text lead toks tag number next ih =>
    have h0 : ¬ tmpTag word = 0 := by omega
    obtain ⟨flag, hflag, heq⟩ := ih true
      (s.puts (opening endWord (tagFunction (tmpTag word) (hexbit word)) ++ text))
    refine ⟨flag, fun _ => hflag (.inl rfl), ?_⟩
    rw [printed_short endWord s tag, number, Outcome.done_bind, heq, printsText_short tag]
    simp [startsInside, h0, separated, puts]
  | @valued word n rest text lead toks tag number next ih =>
    obtain ⟨h0, -⟩ := variable_tag tag
    obtain ⟨flag, hflag, heq⟩ := ih true
      ⟨s.out ++ opening endWord .variable ++ unpack word ++ opening true .compileWord ++ text,
        s.hasOutput || decide (unpack word ≠ [])⟩
    refine ⟨flag, fun _ => hflag (.inl rfl), ?_⟩
    rw [printed_valued endWord s tag, number, Outcome.done_bind, heq, printsText_valued tag]
    simp [startsInside, h0, separated, Bool.or_assoc]
  | @variableCut word tag =>
    refine ⟨endWord, by simp, ?_⟩
    rw [printed_variableCut endWord s tag]
    simp [startsInside, separated, printsText, tag]

/-- Every end of the loop has printed functions. -/
theorem exists_prints {fuel : ℕ} {r : Bool × ParseCFBlockToText}
    (h : printWords fuel cells endWord s = .done r) : ∃ lead toks, Prints cells lead toks := by
  induction hlen : cells.length using Nat.strong_induction_on generalizing cells endWord s with
  | _ len ih =>
    cases cells with
    | nil => exact ⟨[], [], .nil⟩
    | cons word rest =>
      have hrest : ∀ e s, printWords fuel rest e s = .done r → ∃ lead toks, Prints rest lead toks :=
        fun e s h => ih rest.length (by rw [← hlen]; exact Nat.lt_succ_self _) e s h rfl
      have hlt : tmpTag word < 16 := by
        rw [tmpTag, toNat_color]
        exact Nat.mod_lt _ (by decide)
      simp only [printWords] at h
      by_cases h0 : tmpTag word = 0
      · rw [if_pos h0] at h
        obtain ⟨t, -, ht⟩ := Outcome.bind_eq_done h
        obtain ⟨lead, toks, hprints⟩ := hrest _ _ ht
        exact ⟨_, _, .extension h0 hprints⟩
      rw [if_neg h0] at h
      by_cases hlong : tmpTag word = 2 ∨ tmpTag word = 5
      · rw [if_pos hlong] at h
        cases rest with
        | nil => exact ⟨_, _, .longCut hlong⟩
        | cons n rest =>
          obtain ⟨text, htext, ht⟩ := Outcome.bind_eq_done h
          obtain ⟨lead, toks, hprints⟩ := ih rest.length (by rw [← hlen]; simp) _ _ ht rfl
          have hnumber : numberText n word = .done text :=
            (Outcome.limit_eq_done_iff (printHexOrDec_mono n word)).mpr ⟨fuel, htext⟩
          exact ⟨_, _, .long hlong hnumber hprints⟩
      rw [if_neg hlong] at h
      by_cases hshort : tmpTag word = 6 ∨ tmpTag word = 8 ∨ tmpTag word = 0xf
      · rw [if_pos hshort] at h
        obtain ⟨text, htext, ht⟩ := Outcome.bind_eq_done h
        obtain ⟨lead, toks, hprints⟩ := hrest _ _ ht
        have hnumber : numberText (word.sshiftRight 5) word = .done text :=
          (Outcome.limit_eq_done_iff (printHexOrDec_mono _ word)).mpr ⟨fuel, htext⟩
        exact ⟨_, _, .short hshort hnumber hprints⟩
      rw [if_neg hshort] at h
      by_cases hvar : tmpTag word = 0xc
      · rw [if_pos hvar] at h
        obtain ⟨t, -, ht⟩ := Outcome.bind_eq_done h
        cases rest with
        | nil => exact ⟨_, _, .variableCut hvar⟩
        | cons n rest =>
          obtain ⟨text, htext, ht⟩ := Outcome.bind_eq_done ht
          obtain ⟨lead, toks, hprints⟩ := ih rest.length (by rw [← hlen]; simp) _ _ ht rfl
          have hnumber : decimalText n = .done text :=
            (Outcome.limit_eq_done_iff (printDec_mono n)).mpr ⟨fuel, htext⟩
          exact ⟨_, _, .valued hvar hnumber hprints⟩
      rw [if_neg hvar] at h
      have hname : tmpTag word ∈ nameTags := by
        generalize tmpTag word = t at *
        interval_cases t <;> first | decide | omega
      obtain ⟨t, -, ht⟩ := Outcome.bind_eq_done h
      obtain ⟨lead, toks, hprints⟩ := hrest _ _ ht
      exact ⟨_, _, .name hname hprints⟩

end words

end ParseCFBlockToText

end Einherjar.Colorforth
