import Einherjar.Colorforth.NameEncoding
import Einherjar.Colorforth.TypedNames

/-! Names stored in a block, and which names reach which built-in words, typed at the prompt and
stored. -/
namespace Einherjar.Colorforth
open Einherjar.Io Einherjar.Lib

/-- Dispatching cells in order. -/
def dispatchCells (fuel : ℕ) (run : Cell → Forth → Outcome Forth) (cells : List Cell)
    (s : Forth) : Outcome Forth :=
  Outcome.forEach (dispatchWord fuel run) cells s

def CellsExecute (cells : List Cell) (b : Builtin) : Prop :=
  ∀ fuel run s, dispatchCells fuel run cells s = execute fuel run (dictionaryEntry b) s

def CellsIgnored (cells : List Cell) : Prop :=
  ∀ fuel run s, dispatchCells fuel run cells s = .done s

variable {w : List Char}

/-- The cells of a name start with the cell of its first group; the others are ignored. -/
theorem dispatchCells_extensions (gs : List (List Char)) (tag fuel : ℕ)
    (run : Cell → Forth → Outcome Forth) (s : Forth) :
    dispatchCells fuel run (groupCells tag true gs) s = .done s := by
  induction gs generalizing s with
  | nil => rfl
  | cons g gs ih =>
    have hcolor : (nameCell g 0 &&& 0xf#32).toNat = 0 := color_nameCell (by decide)
    have hhead : dispatchWord fuel run (nameCell g 0) s = .done s := by
      unfold dispatchWord
      rw [hcolor]
      rfl
    unfold dispatchCells at ih ⊢
    rw [groupCells, if_pos rfl, Outcome.forEach, hhead, Outcome.done_bind, ih]

/-- A stored name reaches the built-in word that its first group spells. -/
theorem dispatchCells_of_head {head : List Char} {gs : List (List Char)} {b : Builtin}
    (hgroups : groupsFrom [] w = head :: gs) (hhead : head = spelling b) :
    CellsExecute (wordCells 1 w) b := by
  intro fuel run s
  have hcolor : (nameCell head 1 &&& 0xf#32).toNat = 1 := color_nameCell (by decide)
  have hlookup : lookupWord (nameCell head 1) .forthDictionary = some (dictionaryEntry b) :=
    lookupWord_of_name (by rw [name_nameCell (by decide), hhead])
  have hrest := dispatchCells_extensions gs 1 fuel run
  unfold dispatchCells at hrest
  rw [wordCells, hgroups, groupCells, if_neg Bool.false_ne_true, dispatchCells, Outcome.forEach,
    dispatchWord_of_lookup hcolor hlookup, funext hrest, Outcome.bind_done]

theorem cellsIgnored_of_head {head : List Char} {gs : List (List Char)}
    (hgroups : groupsFrom [] w = head :: gs) (hgroup : IsGroup head)
    (hhead : ∀ b, head ≠ spelling b) : CellsIgnored (wordCells 1 w) := by
  intro fuel run s
  have hcolor : (nameCell head 1 &&& 0xf#32).toNat = 1 := color_nameCell (by decide)
  have hlookup : lookupWord (nameCell head 1) .forthDictionary = none := by
    apply lookupWord_eq_none
    intro b heq
    rw [name_nameCell (by decide)] at heq
    exact hhead b (nameCell_inj hgroup.letters hgroup.fits (isWord_spelling b).letters
      (fits_spelling b) heq)
  rw [wordCells, hgroups, groupCells, if_neg Bool.false_ne_true, dispatchCells, Outcome.forEach,
    dispatchWord_of_lookup_none hcolor hlookup, Outcome.done_bind]
  exact dispatchCells_extensions gs 1 fuel run s

theorem cellsExecute_unique {cells : List Cell} {b b' : Builtin} (h : CellsExecute cells b)
    (h' : CellsExecute cells b') : b = b' := by
  obtain ⟨t, ht, hip⟩ := execute_calm b []
  obtain ⟨t', ht', hip'⟩ := execute_calm b' []
  rw [← h, h', ht'] at ht
  cases ht
  exact Option.some.inj (hip.symm.trans hip')

theorem not_cellsExecute_of_ignored {cells : List Cell} (h : CellsIgnored cells) (b : Builtin) :
    ¬ CellsExecute cells b := by
  intro hexec
  obtain ⟨t, ht, hip⟩ := execute_calm b []
  rw [← hexec, h] at ht
  cases ht
  cases hip

/-- The name is that of the built-in word, or goes on with a character that does not fit in what
that name leaves of its cell. -/
def StoredAs (w : List Char) (b : Builtin) : Prop :=
  w = spelling b ∨ ∃ c rest, w = spelling b ++ c :: rest ∧
    ¬ Fits 28 (codeBits (spelling b ++ [c]))

theorem storedAs_iff_head {head : List Char} {gs : List (List Char)} (hw : IsWord w)
    (hgroups : groupsFrom [] w = head :: gs) (b : Builtin) : StoredAs w b ↔ head = spelling b := by
  obtain ⟨c, v, rfl⟩ := List.exists_cons_of_ne_nil hw.nonempty
  have hc := hw.letters c List.mem_cons_self
  obtain ⟨head', tail, gs', hgroups', hsplit, hfits, hnext⟩ :=
    exists_head_group (List.cons_ne_nil c []) (fits_single hc) v
  rw [groupsFrom_nil_cons hc, hgroups'] at hgroups
  obtain ⟨rfl, -⟩ := List.cons.inj hgroups
  change c :: v = head' ++ tail at hsplit
  rw [hsplit]
  constructor
  · intro h
    refine maximal_prefix_unique (w := head' ++ tail) (List.prefix_append ..) ?_ hfits
      (fits_spelling b) (fun c rest heq => hnext c rest (List.append_cancel_left heq)) ?_
    · rcases h with h | ⟨c, rest, h, -⟩
      · exact h ▸ List.prefix_rfl
      · exact h ▸ List.prefix_append ..
    · intro c' rest' heq
      rcases h with h | ⟨c, rest, h, hnot⟩
      · rw [h] at heq
        simp at heq
      · rw [h] at heq
        obtain ⟨hcc, -⟩ := List.cons.inj (List.append_cancel_left heq)
        rwa [← hcc]
  · rintro rfl
    cases tail with
    | nil => exact .inl (List.append_nil _)
    | cons c tail => exact .inr ⟨c, tail, rfl, hnext c tail rfl⟩

theorem cellsIgnored_of_not_storedAs (hw : IsWord w) (h : ∀ b, ¬ StoredAs w b) :
    CellsIgnored (wordCells 1 w) := by
  obtain ⟨head, gs, hgroups, hgroup, -⟩ := exists_groups hw
  exact cellsIgnored_of_head hgroups (hgroup head List.mem_cons_self) fun b hb =>
    h b ((storedAs_iff_head hw hgroups b).mpr hb)

theorem cellsExecute_iff (hw : IsWord w) (b : Builtin) :
    CellsExecute (wordCells 1 w) b ↔ StoredAs w b := by
  obtain ⟨head, gs, hgroups, hgroup, -⟩ := exists_groups hw
  rw [storedAs_iff_head hw hgroups]
  constructor
  · intro h
    by_cases hany : ∃ b', head = spelling b'
    · obtain ⟨b', hb'⟩ := hany
      rwa [cellsExecute_unique h (dispatchCells_of_head hgroups hb')]
    · exact absurd h (not_cellsExecute_of_ignored
        (cellsIgnored_of_head hgroups (hgroup head List.mem_cons_self)
          fun b' hb' => hany ⟨b', hb'⟩) b)
  · exact dispatchCells_of_head hgroups

/-- Which names execute a built-in word. At the prompt the code of the name has to take no more
than the 32 bits of the shifts; stored names may have any length. -/
theorem names_reach_builtins (w : List Char) (hw : IsWord w) :
    ((codeBits w).length ≤ 32 → isNumber w = false → ∀ codeAddress,
      (∀ b, PromptExecutes codeAddress w b ↔ TypedAs w b) ∧
        ((∀ b, ¬ TypedAs w b) → PromptRejects codeAddress w)) ∧
    ∃ cells, (∀ fuel, 2 * w.length + 1 < fuel →
        wordToLongArray fuel false .execute w = .done (cells, false)) ∧
      (∀ b, CellsExecute cells b ↔ StoredAs w b) ∧
        ((∀ b, ¬ StoredAs w b) → CellsIgnored cells) := by
  constructor
  · intro hlen hnum codeAddress
    exact ⟨promptExecutes_iff hw hlen hnum, promptRejects_of_not_typedAs hw hlen hnum⟩
  · refine ⟨wordCells 1 w, fun fuel hfuel => ?_, cellsExecute_iff hw,
      cellsIgnored_of_not_storedAs hw⟩
    have hpack := packWord_eq (show 1 < 16 by decide) hw.letters hfuel
    change (packWord fuel 1 w).bind _ = _
    rw [hpack]
    rfl

/-- Typed, loadsr executes loads; stored, macrov executes macro. -/
theorem loadsr_typed_macrov_stored :
    (¬ ∀ codeAddress w, IsWord w → isNumber w = false →
      ∀ b, PromptExecutes codeAddress w b ↔ w = spelling b) ∧
    ¬ ∀ w, IsWord w → ∀ fuel cells,
      wordToLongArray fuel false .execute w = .done (cells, false) →
        ∀ b, CellsExecute cells b ↔ w = spelling b := by
  constructor
  · intro h
    have hiff : PromptExecutes 0 ['l', 'o', 'a', 'd', 's', 'r'] .loads ↔
        TypedAs ['l', 'o', 'a', 'd', 's', 'r'] .loads :=
      promptExecutes_iff (by decide) (by decide) (by decide) .loads
    have hname := (h 0 _ (by decide) (by decide) .loads).mp (hiff.mpr (.inr ⟨rfl, rfl⟩))
    exact absurd hname (by decide)
  · intro h
    have hiff := cellsExecute_iff (w := ['m', 'a', 'c', 'r', 'o', 'v']) (by decide) .macroWord
    have hstored : StoredAs ['m', 'a', 'c', 'r', 'o', 'v'] .macroWord :=
      .inr ⟨'v', [], rfl, by decide⟩
    have hcells : wordToLongArray 14 false .execute ['m', 'a', 'c', 'r', 'o', 'v'] =
        .done (wordCells 1 ['m', 'a', 'c', 'r', 'o', 'v'], false) := by decide
    have hname := (h _ (by decide) 14 _ hcells .macroWord).mp (hiff.mpr hstored)
    exact absurd hname (by decide)

theorem loads_reaches_loads :
    IsWord (spelling .loads) ∧
      (∀ codeAddress, PromptExecutes codeAddress (spelling .loads) .loads) ∧
      ∃ cells, (∀ fuel, 11 < fuel →
        wordToLongArray fuel false .execute (spelling .loads) = .done (cells, false)) ∧
        CellsExecute cells .loads := by
  obtain ⟨htyped, cells, hcells, hstored, -⟩ := names_reach_builtins (spelling .loads) (by decide)
  exact ⟨by decide, fun codeAddress => ((htyped (by decide) (by decide) codeAddress).1 .loads).mpr
    (.inl rfl), cells, hcells, (hstored .loads).mpr (.inl rfl)⟩

end Einherjar.Colorforth
