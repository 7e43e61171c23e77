import Einherjar.Colorforth.Display
import Einherjar.Colorforth.NameGroups

/-! The passes of the editor over cells that the converter makes, and the names that it joins
from their head and extensions. -/
namespace Einherjar.Colorforth
open Einherjar.Io Einherjar.Lib

/-- The memory holds the cells from the position on. -/
def Holds (blocks : ℕ → Cell) : ℕ → List Cell → Prop
  | _, [] => True
  | p, c :: cs => blocks p = c ∧ Holds blocks (p + 1) cs

theorem holds_append {blocks : ℕ → Cell} {p : ℕ} {cs ds : List Cell} :
    Holds blocks p (cs ++ ds) ↔ Holds blocks p cs ∧ Holds blocks (p + cs.length) ds := by
  induction cs generalizing p with
  | nil => simp [Holds]
  | cons c cs ih =>
    rw [List.cons_append, Holds, Holds, ih, and_assoc, List.length_cons,
      show p + (cs.length + 1) = p + 1 + cs.length by omega]

section passes

/-- The passes over cells that own no payload. -/
def cellPasses (blocks : ℕ → Cell) : ℕ → List Cell → List Pass
  | _, [] => []
  | p, c :: cs => ⟨p, (displayWord blocks p c).1⟩ :: cellPasses blocks (p + 1) cs

variable {blocks : ℕ → Cell} {limit p : ℕ}

theorem position_cellPasses (cs : List Cell) :
    (cellPasses blocks p cs).map (·.position) = List.range' p cs.length := by
  induction cs generalizing p with
  | nil => rfl
  | cons c cs ih => rw [cellPasses, List.map_cons, ih, List.length_cons, List.range'_succ]

theorem displayFrom_plain {cs : List Cell} (hholds : Holds blocks p cs)
    (hplain : ∀ c ∈ cs, ¬ ownsPayload c) (hlimit : p + cs.length ≤ limit) :
    displayFrom blocks limit p =
      cellPasses blocks p cs ++ displayFrom blocks limit (p + cs.length) := by
  induction cs generalizing p with
  | nil => rfl
  | cons c cs ih =>
    obtain ⟨hhead, htail⟩ := hholds
    rw [List.length_cons] at hlimit
    rw [displayFrom_of_lt blocks (by omega), hhead, if_neg (hplain c List.mem_cons_self),
      ih htail (fun d hd => hplain d (List.mem_cons_of_mem _ hd)) (by omega), cellPasses,
      List.length_cons, show p + 1 + cs.length = p + (cs.length + 1) by omega]
    rfl

theorem displayFrom_payload {c payload : Cell} (hholds : Holds blocks p [c, payload])
    (hpay : ownsPayload c) (hlimit : p + 2 ≤ limit) :
    displayFrom blocks limit p =
      [⟨p, (displayWord blocks p c).1⟩] ++ displayFrom blocks limit (p + 2) := by
  rw [displayFrom_of_lt blocks (by omega), hholds.1, if_pos hpay]
  rfl

end passes

section names

theorem printName_nameCell {g : List Char} (hg : IsGroup g) {tag : ℕ} (htag : tag < 16) :
    printName (nameCell g tag) = display (g ++ [' ']) := by
  rw [printName, unpack_nameCell hg.letters hg.fits htag]

theorem ownsPayload_nameCell {g : List Char} {tag : ℕ} (htag : tag < 16) :
    ownsPayload (nameCell g tag) ↔ tag = 2 ∨ tag = 5 ∨ tag = 12 := by
  unfold ownsPayload
  rw [color_nameCell htag]

theorem displayWord_head {g : List Char} (hg : IsGroup g) {tag : ℕ}
    (htag : tag ∈ [1, 3, 4, 7, 9, 10, 11]) :
    ∃ foreground, ∀ blocks i, (displayWord blocks i (nameCell g tag)).1 =
      attributes foreground :: display (g ++ [' ']) := by
  have hlt : tag < 16 := by
    have hall : ∀ t ∈ [1, 3, 4, 7, 9, 10, 11], t < 16 := by decide
    exact hall _ htag
  have hcolor : (nameCell g tag &&& 0xf#32).toNat = tag := color_nameCell hlt
  unfold displayWord
  rw [hcolor, printName_nameCell hg hlt]
  simp only [List.mem_cons, List.not_mem_nil, or_false] at htag
  rcases htag with rfl | rfl | rfl | rfl | rfl | rfl | rfl
  all_goals exact ⟨_, fun _ _ => rfl⟩

theorem displayWord_extension {g : List Char} (hg : IsGroup g) (blocks : ℕ → Cell) (i : ℕ) :
    (displayWord blocks i (nameCell g 0)).1 =
      [.updatePosition (-1) 0, .updateCursor] ++ display (g ++ [' ']) := by
  have hcolor : (nameCell g 0 &&& 0xf#32).toNat = 0 := color_nameCell (by decide)
  unfold displayWord
  rw [hcolor, printName_nameCell hg (by decide)]
  rfl

theorem printable_blank : Printable [' '] := by decide

theorem IsGroup.printable {g : List Char} (hg : IsGroup g) : Printable (g ++ [' ']) := by
  have hcode : ∀ c ∈ code.tail, Plain (BitVec.ofNat 8 c.toNat) := by decide
  exact printable_append.mpr ⟨fun c hc => hcode c (hg.letters c hc), printable_blank⟩

/-- Behind the blank after each text that is extended, the cursor is not in the first column. The
text before the extensions ends at `k`. -/
def ExtendsFrom : ℕ → List (List Char) → Prop
  | _, [] => True
  | k, g :: gs => (k + 1) % vgaColumns ≠ 0 ∧ ExtendsFrom (k + g.length) gs

instance decidableExtendsFrom : ∀ k gs, Decidable (ExtendsFrom k gs)
  | _, [] => isTrue trivial
  | k, g :: gs =>
    have : Decidable (ExtendsFrom (k + g.length) gs) := decidableExtendsFrom _ gs
    inferInstanceAs (Decidable (_ ∧ _))

/-- The extension cells of a name that is displayed from `k` on are joined to its head. -/
def JoinsFrom (k : ℕ) (w : List Char) : Prop :=
  ExtendsFrom (k + ((groupsFrom [] w).headD []).length) (groupsFrom [] w).tail

instance (k : ℕ) (w : List Char) : Decidable (JoinsFrom k w) :=
  inferInstanceAs (Decidable (ExtendsFrom _ _))

/-- Extensions are joined to the text before them: they replace the blank after it, if the cursor
comes back to it. -/
theorem rowsAfter_extensions {gs : List (List Char)} (hgs : ∀ g ∈ gs, IsGroup g)
    (blocks : ℕ → Cell) (tag p : ℕ) (before : List Char) :
    rowsAfter (' ' :: before, [])
        ((cellPasses blocks p (groupCells tag true gs)).flatMap (·.calls)) =
      if ExtendsFrom before.length gs then some (writeText (before, []) (gs.flatten ++ [' ']))
      else none := by
  induction gs generalizing p before with
  | nil => rfl
  | cons g gs ih =>
    rw [groupCells, if_pos rfl, cellPasses, List.flatMap_cons,
      displayWord_extension (hgs g List.mem_cons_self), rowsAfter_append, rowsAfter_append,
      rowsAfter_back]
    by_cases hcolumn : (before.length + 1) % vgaColumns ≠ 0
    · have hrest := ih (fun x hx => hgs x (List.mem_cons_of_mem _ hx)) (p + 1)
        (g.reverse ++ before)
      have hshown : writeText (before, [' ']) (g ++ [' ']) =
          (' ' :: (g.reverse ++ before), []) := by
        simp [writeText]
      have hlength : (g.reverse ++ before).length = before.length + g.length := by
        simp [Nat.add_comm]
      rw [if_pos hcolumn, Option.bind_some,
        rowsAfter_display _ (hgs g List.mem_cons_self).printable, hshown, Option.bind_some, hrest,
        hlength]
      simp [ExtendsFrom, hcolumn, writeText]
    · rw [if_neg hcolumn, if_neg fun h => hcolumn h.1]
      rfl

/-- The whole name is displayed, from its head and its extensions, if these are joined. -/
theorem rowsAfter_name {w : List Char} (hw : IsWord w) {tag : ℕ}
    (htag : tag ∈ [1, 3, 4, 7, 9, 10, 11]) (blocks : ℕ → Cell) (p : ℕ) (before : List Char) :
    rowsAfter (before, []) ((cellPasses blocks p (wordCells tag w)).flatMap (·.calls)) =
      if JoinsFrom before.length w then some (writeText (before, []) (w ++ [' '])) else none := by
  obtain ⟨g, gs, hcases, hgroups, hflat⟩ := exists_groups hw
  have hg := hgroups g List.mem_cons_self
  obtain ⟨foreground, hhead⟩ := displayWord_head hg htag
  have hrows : rowsAfter (before, []) (attributes foreground :: display (g ++ [' '])) =
      some (' ' :: (g.reverse ++ before), []) := by
    rw [rowsAfter_cons]
    change rowsAfter (before, []) (display (g ++ [' '])) = _
    rw [rowsAfter_display _ hg.printable]
    simp [writeText]
  have hjoins : JoinsFrom before.length w ↔ ExtendsFrom (g.reverse ++ before).length gs := by
    simp [JoinsFrom, hcases, Nat.add_comm]
  have hshown : writeText (g.reverse ++ before, []) (gs.flatten ++ [' ']) =
      writeText (before, []) (w ++ [' ']) := by
    rw [← hflat]
    simp [writeText]
  rw [wordCells, hcases, groupCells, if_neg Bool.false_ne_true, cellPasses, List.flatMap_cons,
    hhead, rowsAfter_append, hrows, Option.bind_some,
    rowsAfter_extensions fun x hx => hgroups x (List.mem_cons_of_mem _ hx), hshown]
  exact if_congr hjoins.symm rfl rfl

theorem plain_wordCells {w : List Char} {tag : ℕ} (htag : tag ∈ [1, 3, 4, 7, 9, 10, 11]) :
    ∀ c ∈ wordCells tag w, ¬ ownsPayload c := by
  have hext : ∀ gs : List (List Char), ∀ c ∈ groupCells tag true gs, ¬ ownsPayload c := by
    intro gs
    induction gs with
    | nil => simp [groupCells]
    | cons g gs ih =>
      intro c hc
      rw [groupCells, if_pos rfl] at hc
      rcases List.mem_cons.mp hc with rfl | hc
      · rw [ownsPayload_nameCell (by decide)]
        decide
      · exact ih c hc
  unfold wordCells
  cases groupsFrom [] w with
  | nil => simp [groupCells]
  | cons g gs =>
    intro c hc
    rw [groupCells, if_neg Bool.false_ne_true] at hc
    rcases List.mem_cons.mp hc with rfl | hc
    · have hall : ∀ t ∈ [1, 3, 4, 7, 9, 10, 11], t < 16 ∧ ¬ (t = 2 ∨ t = 5 ∨ t = 12) := by decide
      rw [ownsPayload_nameCell (hall _ htag).1]
      exact (hall _ htag).2
    · exact hext gs c hc

end names

end Einherjar.Colorforth
