import Einherjar.Colorforth.BlockBody
import Einherjar.Colorforth.BlockWalk
import Einherjar.Colorforth.ValueDisplay
import Einherjar.Io.ScreenCalls

/-! From the text of a block to the editor's screen: which block bodies the editor shows as they
were written. -/
namespace Einherjar.Colorforth
open Einherjar.Io Einherjar.Lib

/-- The calls of the passes at positions from `a` to `b`, exclusive. -/
def callsIn (passes : List Pass) (a b : ℕ) : List VgaCall :=
  (passes.filter fun pass => a ≤ pass.position ∧ pass.position < b).flatMap (·.calls)

namespace Item

/-- The calls lead from the rows before to the rows after, and the parameter of the function can be
read on them: the whole name, the decimal numeral of a decimal number or of the value of a
variable. -/
def Shows (calls : List VgaCall) (before after : Rows) (item : Item) : Prop :=
  rowsAfter before calls = some after ∧
    match item with
    | name _ w .. => after = writeText before (w ++ [' '])
    | long f _ v .. =>
      fivebitFunction f = none → after = writeText before (decimal v ++ [' '])
    | short f _ v .. =>
      fivebitFunction f = none → after = writeText before (decimal v ++ [' '])
    | valued w _ v .. => after = writeText before (w ++ [' '] ++ (decimal v ++ [' ']))

/-- The text of the item on the screen, with the blank behind it. -/
def text : Item → List Char
  | name _ w .. => w ++ [' ']
  | long f _ v .. => shownLong f v ++ [' ']
  | short f _ v .. => shownShort f v ++ [' ']
  | valued w _ v .. => w ++ [' '] ++ (decimal v ++ [' '])

/-- When the editor shows a name or a variable that starts at position `k` of the rows. A name: its
extension cells are joined to the head. A variable: its name takes less than the 28 bits of the cell
and its value is a signed 32-bit number, or the name takes all of them, so that the value is shown
in hexadecimal, and the value has one digit. -/
def Sound (k : ℕ) : Item → Prop
  | name _ w .. => JoinsFrom k w
  | valued w _ v .. =>
    (Fits 27 (codeBits w) ∧ -2 ^ 31 < v ∧ v < 2 ^ 31) ∨
      (Fits 28 (codeBits w) ∧ ¬ Fits 27 (codeBits w) ∧ 0 ≤ v ∧ v ≤ 9)
  | _ => True

end Item

/-- All items of a body whose first one starts at position `k` of the rows are shown. -/
def BodySound : ℕ → List Item → Prop
  | _, [] => True
  | k, item :: body => item.Sound k ∧ BodySound (k + item.text.length) body

/-- The positions of the head and extension cells of a body that stands at `p`. -/
def headPositions : ℕ → List Item → List ℕ
  | _, [] => []
  | p, item :: body => List.range' p item.heads ++ headPositions (p + item.cells.length) body

def BodyShown (passes : List Pass) : Rows → ℕ → List Item → Prop
  | _, _, [] => True
  | rows, p, item :: body =>
    ∃ after, item.Shows (callsIn passes p (p + item.cells.length)) rows after ∧
      BodyShown passes after (p + item.cells.length) body

/-- A walk over a body that stands at `p` passes exactly its head and extension cells, and
shows the parameter of every function, on rows that hold the text of what was before. -/
structure Survives (passes : List Pass) (rows : Rows) (p : ℕ) (body : List Item) : Prop where
  positions : (passes.map (·.position)).filter (· < p + (bodyCells body).length) =
    headPositions p body
  shown : BodyShown passes rows p body

section bodies

variable {blocks : ℕ → Cell} {limit p : ℕ}

theorem callsIn_append (xs ys : List Pass) (a b : ℕ) :
    callsIn (xs ++ ys) a b = callsIn xs a b ++ callsIn ys a b := by
  unfold callsIn
  rw [List.filter_append, List.flatMap_append]

theorem callsIn_of_inside {xs : List Pass} {a b : ℕ}
    (h : ∀ x ∈ xs, a ≤ x.position ∧ x.position < b) : callsIn xs a b = xs.flatMap (·.calls) := by
  unfold callsIn
  rw [List.filter_eq_self.mpr fun x hx => decide_eq_true (h x hx)]

theorem callsIn_of_outside {xs : List Pass} {a b : ℕ}
    (h : ∀ x ∈ xs, ¬ (a ≤ x.position ∧ x.position < b)) : callsIn xs a b = [] := by
  unfold callsIn
  rw [List.filter_eq_nil_iff.mpr fun x hx => by simpa using h x hx]
  rfl

/-- Passes before the body do not matter for what it shows. -/
theorem bodyShown_append {xs ys : List Pass} {q : ℕ} (h : ∀ x ∈ xs, x.position < q) (rows : Rows)
    (body : List Item) : BodyShown (xs ++ ys) rows q body ↔ BodyShown ys rows q body := by
  induction body generalizing q rows with
  | nil => exact Iff.rfl
  | cons item body ih =>
    have hout : callsIn xs q (q + item.cells.length) = [] :=
      callsIn_of_outside fun x hx hin => absurd (h x hx) (Nat.not_lt_of_le hin.1)
    have hrest := fun after => @ih (q + item.cells.length)
      (fun x hx => (h x hx).trans_le (Nat.le_add_right ..)) after
    simp only [BodyShown, callsIn_append, hout, List.nil_append, hrest]

theorem Item.heads_le (item : Item) : item.heads ≤ item.cells.length := by
  cases item with
  | name => exact le_rfl
  | long => exact Nat.le_succ 1
  | short => exact le_rfl
  | valued w => simp [Item.heads, Item.cells]

/-- A walk that passes the head and extension cells of the first item goes on with the others. -/
theorem survives_cons_iff {xs ys : List Pass} (rows : Rows) (item : Item) (body : List Item)
    (hxs : xs.map (·.position) = List.range' p item.heads)
    (hys : ∀ y ∈ ys, p + item.cells.length ≤ y.position) :
    Survives (xs ++ ys) rows p (item :: body) ↔
      ∃ after, item.Shows (xs.flatMap (·.calls)) rows after ∧
        Survives ys after (p + item.cells.length) body := by
  have hheads := item.heads_le
  have hinside : ∀ x ∈ xs, p ≤ x.position ∧ x.position < p + item.cells.length := by
    intro x hx
    have hmem : x.position ∈ List.range' p item.heads := by
      rw [← hxs]
      exact List.mem_map_of_mem hx
    rw [List.mem_range'_1] at hmem
    omega
  have hcalls : callsIn (xs ++ ys) p (p + item.cells.length) = xs.flatMap (·.calls) := by
    rw [callsIn_append, callsIn_of_inside hinside, callsIn_of_outside, List.append_nil]
    exact fun y hy hin => absurd (hys y hy) (Nat.not_le_of_lt hin.2)
  have hlen : (bodyCells (item :: body)).length =
      item.cells.length + (bodyCells body).length := by
    unfold bodyCells
    rw [List.flatMap_cons, List.length_append]
  have hpositions :
      ((xs ++ ys).map (·.position)).filter (· < p + (bodyCells (item :: body)).length) =
        List.range' p item.heads ++ (ys.map (·.position)).filter
          (· < p + item.cells.length + (bodyCells body).length) := by
    rw [List.map_append, List.filter_append, hxs, hlen, ← Nat.add_assoc, List.filter_eq_self.mpr]
    intro i hi
    rw [List.mem_range'_1] at hi
    exact decide_eq_true (by omega)
  have hshown : ∀ after, BodyShown (xs ++ ys) after (p + item.cells.length) body ↔
      BodyShown ys after (p + item.cells.length) body :=
    fun after => bodyShown_append (fun x hx => (hinside x hx).2) after body
  constructor
  · intro h
    have hpos := h.positions
    rw [hpositions, headPositions] at hpos
    obtain ⟨after, hitem, hbody⟩ := h.shown
    exact ⟨after, hcalls ▸ hitem, List.append_cancel_left hpos, (hshown after).mp hbody⟩
  · intro h
    obtain ⟨after, hitem, hpos, hbody⟩ := h
    refine ⟨?_, ?_⟩
    · rw [hpositions, hpos, headPositions]
    · rw [BodyShown, hcalls]
      exact ⟨after, hitem, (hshown after).mpr hbody⟩

/-- A variable whose name goes on in extension cells. -/
def Item.Split : Item → Prop
  | valued w .. => ¬ Fits 28 (codeBits w)
  | _ => False

/-- The walk over one item: it passes the head and extension cells, and writes the text of the item
behind what was before. -/
theorem walk_item (item : Item) (hsplit : ¬ item.Split) (hholds : Holds blocks p item.cells)
    (hlimit : p + item.cells.length ≤ limit) :
    ∃ xs, displayFrom blocks limit p = xs ++ displayFrom blocks limit (p + item.cells.length) ∧
      xs.map (·.position) = List.range' p item.heads ∧
      ∀ before after, item.Shows (xs.flatMap (·.calls)) (before, []) after ↔
        item.Sound before.length ∧ after = writeText (before, []) item.text := by
  cases item with
  | name f w hf hw =>
    have htag := tag_nameFunction hf
    refine ⟨_, displayFrom_plain hholds (plain_wordCells htag) hlimit, position_cellPasses _,
      fun before after => ?_⟩
    rw [Item.Shows, Item.cells, rowsAfter_name hw htag]
    simp only [Item.Sound, Item.text]
    split_ifs with hjoins
    · simp [hjoins, eq_comm (b := after)]
    · simp [hjoins]
  | long f param v hf hv hrange =>
    refine ⟨_, displayFrom_payload hholds (ownsPayload_long hf) hlimit, rfl, fun before after => ?_⟩
    have hshown := rowsAfter_long hf hrange hholds.2.1 (before, [])
    rw [List.flatMap_singleton, Item.Shows, hshown]
    simp only [Item.Sound, Item.text, true_and, Option.some_inj, eq_comm (b := after)]
    refine and_iff_left_of_imp fun h hdec => ?_
    rw [h, shownLong, hdec]
    rfl
  | short f param v hf hv hrange =>
    refine ⟨_, displayFrom_plain hholds ?_ hlimit, position_cellPasses _, fun before after => ?_⟩
    · intro c hc
      rw [List.mem_singleton.mp hc]
      exact ownsPayload_short hf v
    · have hshown := rowsAfter_short hf hrange blocks p (before, [])
      rw [Item.cells, cellPasses, cellPasses, List.flatMap_singleton, Item.Shows, hshown]
      simp only [Item.Sound, Item.text, true_and, Option.some_inj, eq_comm (b := after)]
      refine and_iff_left_of_imp fun h hdec => ?_
      rw [h, shownShort, hdec]
      rfl
  | valued w param v hw hv =>
    have hfits : Fits 28 (codeBits w) := not_not.mp hsplit
    have hcells : (Item.valued w param v hw hv).cells = [nameCell w 12, BitVec.ofInt 32 v] := by
      rw [Item.cells, wordCells_of_fits hw hfits]
      rfl
    have hheads : (Item.valued w param v hw hv).heads = 1 := by
      rw [Item.heads, wordCells_of_fits hw hfits]
      rfl
    rw [hcells] at hholds hlimit ⊢
    rw [hheads]
    refine ⟨_, displayFrom_payload hholds ((ownsPayload_nameCell (by decide)).mpr (by decide))
      hlimit, rfl, fun before after => ?_⟩
    rw [List.flatMap_singleton]
    simp only [Item.Shows, Item.Sound, Item.text]
    refine and_congr_left fun hafter => ?_
    rw [hafter]
    by_cases hfull : Fits 27 (codeBits w)
    · rw [rowsAfter_variable_dec hw hfull hholds.2.1]
      simp [hfull]
    · rw [rowsAfter_variable_hex hw hfits hfull hholds.2.1]
      simp [hfull, hfits]

/-- The first extension cell is taken for the value of the variable. -/
theorem not_survives_of_split (item : Item) (hsplit : item.Split) (body : List Item)
    (hholds : Holds blocks p item.cells) (hlimit : p + item.cells.length ≤ limit) :
    ∀ rows, ¬ Survives (displayFrom blocks limit p) rows p (item :: body) := by
  cases item with
  | valued w param v hw hv =>
    obtain ⟨head, second, gs, hgroups⟩ := exists_second_group hw hsplit
    have hcells : wordCells 12 w =
        nameCell head 12 :: nameCell second 0 :: groupCells 12 true gs := by
      rw [wordCells, hgroups]
      rfl
    intro rows h
    have hpos := h.positions
    have hpay : ownsPayload (blocks p) := by
      rw [Item.cells, hcells] at hholds
      rw [hholds.1]
      exact (ownsPayload_nameCell (by decide)).mpr (by decide)
    have hlen : 2 ≤ (wordCells 12 w).length := by
      rw [hcells]
      simp
    have hp : p < limit := by
      rw [Item.cells, List.length_append] at hlimit
      omega
    have hmem : p + 1 ∈ headPositions p (Item.valued w param v hw hv :: body) := by
      refine List.mem_append_left _ (List.mem_range'_1.mpr ?_)
      rw [Item.heads]
      omega
    rw [← hpos, displayFrom_of_lt blocks hp, if_pos hpay, List.map_cons] at hmem
    rcases List.mem_cons.mp (List.mem_of_mem_filter hmem) with heq | hrest
    · exact absurd heq (Nat.succ_ne_self p)
    · obtain ⟨x, hx, hxp⟩ := List.mem_map.mp hrest
      have := (displayFrom_position blocks limit (p + 2) x hx).1
      omega
  | name => exact fun _ => hsplit.elim
  | long => exact fun _ => hsplit.elim
  | short => exact fun _ => hsplit.elim

theorem Item.not_split_of_sound {item : Item} {k : ℕ} (h : item.Sound k) : ¬ item.Split := by
  cases item with
  | valued w =>
    rcases h with ⟨hfits, -⟩ | ⟨hfits, -⟩
    · exact not_not.mpr (hfits.mono (by decide))
    · exact not_not.mpr hfits
  | name => exact id
  | long => exact id
  | short => exact id

theorem survives_displayFrom_iff (body : List Item) (hholds : Holds blocks p (bodyCells body))
    (hlimit : p + (bodyCells body).length ≤ limit) (before : List Char) :
    Survives (displayFrom blocks limit p) (before, []) p body ↔ BodySound before.length body := by
  induction body generalizing p before with
  | nil =>
    refine iff_of_true ⟨?_, trivial⟩ trivial
    rw [List.filter_eq_nil_iff.mpr]
    · rfl
    · intro i hi
      obtain ⟨x, hx, rfl⟩ := List.mem_map.mp hi
      have := (displayFrom_position blocks limit p x hx).1
      simpa [bodyCells] using this
  | cons item body ih =>
    have hcells : bodyCells (item :: body) = item.cells ++ bodyCells body := rfl
    rw [hcells] at hholds
    rw [hcells, List.length_append] at hlimit
    obtain ⟨hhead, htail⟩ := holds_append.mp hholds
    by_cases hsplit : item.Split
    · exact iff_of_false (not_survives_of_split item hsplit body hhead (by omega) _)
        fun h => Item.not_split_of_sound h.1 hsplit
    · have hfit : p + item.cells.length ≤ limit := by omega
      obtain ⟨xs, hwalk, hxs, hshows⟩ := walk_item item hsplit hhead hfit
      have hlength : before.length + item.text.length = (item.text.reverse ++ before).length := by
        simp [Nat.add_comm]
      rw [hwalk, survives_cons_iff _ item body hxs fun y hy =>
        (displayFrom_position blocks limit _ y hy).1, BodySound, hlength,
        ← ih htail (by omega) (item.text.reverse ++ before)]
      simp only [hshows, writeText_last, and_assoc, exists_and_left, exists_eq_left]

/-- The calls for a body whose items are all shown write their texts one after another. -/
theorem rowsAfter_body (body : List Item) (hholds : Holds blocks p (bodyCells body))
    (hlimit : p + (bodyCells body).length ≤ limit) (before : List Char)
    (hsound : BodySound before.length body) :
    rowsAfter (before, [])
        (callsIn (displayFrom blocks limit p) p (p + (bodyCells body).length)) =
      some (writeText (before, []) (body.flatMap Item.text)) := by
  induction body generalizing p before with
  | nil =>
    have hnone : callsIn (displayFrom blocks limit p) p (p + (bodyCells []).length) = [] :=
      callsIn_of_outside fun x _ hin => absurd hin.2 (Nat.not_lt_of_le hin.1)
    rw [hnone]
    rfl
  | cons item body ih =>
    have hcells : bodyCells (item :: body) = item.cells ++ bodyCells body := rfl
    rw [hcells] at hholds
    rw [hcells, List.length_append] at hlimit ⊢
    obtain ⟨hhead, htail⟩ := holds_append.mp hholds
    obtain ⟨hitem, hbody⟩ := hsound
    obtain ⟨xs, hwalk, hxs, hshows⟩ :=
      walk_item item (Item.not_split_of_sound hitem) hhead (show _ ≤ limit by omega)
    have hheads := item.heads_le
    have hinside : ∀ x ∈ xs, p ≤ x.position ∧
        x.position < p + (item.cells.length + (bodyCells body).length) := by
      intro x hx
      have hmem : x.position ∈ List.range' p item.heads := by
        rw [← hxs]
        exact List.mem_map_of_mem hx
      rw [List.mem_range'_1] at hmem
      omega
    have hrest : callsIn (displayFrom blocks limit (p + item.cells.length)) p
        (p + (item.cells.length + (bodyCells body).length)) =
          callsIn (displayFrom blocks limit (p + item.cells.length)) (p + item.cells.length)
            (p + item.cells.length + (bodyCells body).length) := by
      unfold callsIn
      rw [Nat.add_assoc]
      congr 1
      refine List.filter_congr fun x hx => ?_
      have hle := (displayFrom_position blocks limit _ x hx).1
      have hp : p ≤ x.position := by omega
      simp only [hle, hp]
    have hshown := ((hshows before _).mpr ⟨hitem, rfl⟩).1
    have hlength : before.length + item.text.length = (item.text.reverse ++ before).length := by
      simp [Nat.add_comm]
    rw [hlength] at hbody
    rw [hwalk, callsIn_append, callsIn_of_inside hinside, hrest, rowsAfter_append, hshown,
      Option.bind_some, writeText_last, ih htail (by omega) _ hbody, List.flatMap_cons,
      writeText_append, writeText_last before]

end bodies

/-- The trip of a block from text to the screen. The converter encodes every body; the editor
shows it from the first row on, where its cells stand in a block, exactly when it shows each of its
names and variables. -/
theorem body_survives_iff (body : List Item) :
    Encodes (bodyTokens body) (bodyCells body) ∧
      ∀ (image : BlockImage) (n : Cell), n.toNat < image.totalBlocks →
        (bodyCells body).length ≤ 256 → Holds image.cells (256 * n.toNat) (bodyCells body) →
          (Survives (displayBlock image.cells n) ([], []) (256 * n.toNat) body ↔
            BodySound 0 body) := by
  refine ⟨encodes_body body, fun image n hn hlen hholds => ?_⟩
  rw [displayBlock_eq image.cells (hn.trans image.small)]
  exact survives_displayFrom_iff body hholds (by omega) []

/-- The screen after the cells of a body whose items are all shown: the last rows of their texts. -/
theorem screen_showsBody (body : List Item) (image : BlockImage) (n : Cell)
    (hn : n.toNat < image.totalBlocks) (hlen : (bodyCells body).length ≤ 256)
    (hholds : Holds image.cells (256 * n.toNat) (bodyCells body)) (hsound : BodySound 0 body)
    (s : Screen) (cs : List DriverCall)
    (hcs : cs.map (·.call) = callsIn (displayBlock image.cells n) (256 * n.toNat)
      (256 * n.toNat + (bodyCells body).length)) :
    ShowsTail (rowsPage (writeText ([], []) (body.flatMap Item.text)))
      (cs.foldl Screen.call s.vgaClear) := by
  refine screen_showsRows s cs ?_
  rw [hcs, displayBlock_eq image.cells (hn.trans image.small)]
  exact rowsAfter_body body hholds (by omega) [] hsound

/-- A variable whose name takes the whole cell, with the value 10. -/
def ontario : Item :=
  .valued ['o', 'n', 't', 'a', 'r', 'i', 'o'] ['1', '0'] 10 (by decide) (by decide)

def ontarioBlock : BlockImage := oneBlock fun i => (bodyCells [ontario]).getD i 0

/-- The value of the variable ontario is displayed as a. -/
theorem ontario_not_survives :
    ¬ ∀ (body : List Item) (image : BlockImage) (n : Cell), n.toNat < image.totalBlocks →
      (bodyCells body).length ≤ 256 → Holds image.cells (256 * n.toNat) (bodyCells body) →
        Survives (displayBlock image.cells n) ([], []) (256 * n.toNat) body := by
  intro h
  have hholds : Holds ontarioBlock.cells (256 * (0 : Cell).toNat) (bodyCells [ontario]) :=
    ⟨by decide, by decide, trivial⟩
  have hsurvives := h [ontario] ontarioBlock 0 (by decide) (by decide) hholds
  rw [displayBlock_eq _ (by decide)] at hsurvives
  have hsound := ((survives_displayFrom_iff [ontario] hholds (by decide) []).mp hsurvives).1
  revert hsound
  simp only [ontario, Item.Sound]
  decide

end Einherjar.Colorforth
