import Einherjar.Io.ScreenTail
import Einherjar.Io.Vga
import Einherjar.Lib.Run

/-! What the calls of the driver do to the screen, and the calls that keep the cursor on it and
display inside the page. -/
namespace Einherjar.Io
open Einherjar.Lib

/-- A call of the driver, with the byte that it displays if it reads one outside its table. -/
structure DriverCall where
  call : VgaCall
  unknown : BitVec 8

namespace DriverCall

/-- The byte passed to `vga_display_character`. -/
def displayed (c : DriverCall) : Option (BitVec 8) :=
  match c.call with
  | .displayCharacter character => some (BitVec.ofNat 8 character.toNat)
  | .displayUnknown => some c.unknown
  | _ => none

end DriverCall

def Screen.call (s : Screen) (c : DriverCall) : Screen :=
  match c.call with
  | .clear => s.vgaClear
  | .updateCursor => s.vgaUpdateCursor
  | .setPosition x y => s.vgaSetPosition x y
  | .updatePosition x y => s.vgaUpdatePosition x y
  | .setAttributes attributes => s.vgaSetAttributes attributes
  | .displayCharacter character => s.vgaDisplayCharacter (BitVec.ofNat 8 character.toNat)
  | .displayUnknown => s.vgaDisplayCharacter c.unknown
  | .eraseVideo address => s.store address 0

/-- The cursor is on the screen. -/
structure OnScreen (s : Screen) : Prop where
  column : s.positionX.toNat ≤ vgaColumnsMaxIndex
  line : s.positionY.toNat ≤ vgaLinesMaxIndex

/-- A byte that is displayed is stored inside the page, as is everything that scrolls with it. -/
def DrawsInPage (s : Screen) (c : DriverCall) (s' : Screen) : Prop :=
  c.displayed.isSome = true → StoresInPage s s'

/-- No tabulation is displayed in column 76, and no word is joined to the one before it from the
first column of the last three lines. -/
def StaysInside (s : Screen) (c : DriverCall) : Prop :=
  (c.displayed = some kbdTabulation → s.positionX ≠ 76) ∧
    (c.call = .updatePosition (-1) 0 → 0 < s.positionX.toNat ∨ s.positionY.toNat ≤ 21)

/-- The calls, whatever is read outside a table, display inside the page and lead from `P` to
`Q`. -/
def Draws (P : Screen → Prop) (calls : List VgaCall) (Q : Screen → Prop) : Prop :=
  ∀ cs : List DriverCall, cs.map (·.call) = calls →
    Triple Screen.call StaysInside DrawsInPage P cs Q

namespace Draws

variable {P Q I : Screen → Prop} {calls calls' : List VgaCall}

theorem single {call : VgaCall}
    (h : ∀ (s : Screen) (unknown : BitVec 8), P s → StaysInside s ⟨call, unknown⟩ →
      DrawsInPage s ⟨call, unknown⟩ (s.call ⟨call, unknown⟩) ∧ Q (s.call ⟨call, unknown⟩)) :
    Draws P [call] Q := by
  intro cs hcs
  obtain ⟨c, rfl, rfl⟩ := List.map_eq_singleton_iff.mp hcs
  exact .single fun s hs hg => h s c.unknown hs hg

theorem nil : Draws P [] P := by
  intro cs hcs
  rw [List.map_eq_nil_iff.mp hcs]
  exact .nil

theorem append (h : Draws P calls I) (h' : Draws I calls' Q) : Draws P (calls ++ calls') Q := by
  intro cs hcs
  obtain ⟨as, bs, rfl, has, hbs⟩ := List.map_eq_append_iff.mp hcs
  exact (h as has).append (h' bs hbs)

theorem cons {call : VgaCall} (h : Draws P [call] I) (h' : Draws I calls Q) :
    Draws P (call :: calls) Q := h.append h'

theorem of_forall (h : ∀ call ∈ calls, Draws I [call] I) : Draws I calls I := by
  intro cs hcs
  refine .of_forall fun c hc => h c.call ?_ [c] rfl
  rw [← hcs]
  exact List.mem_map_of_mem hc

end Draws

section display

variable {s : Screen} {character : BitVec 8}

theorem OnScreen.column_lt (h : OnScreen s) : s.positionX.toNat < vgaColumns :=
  Nat.lt_succ_of_le h.column

theorem OnScreen.updateCursor (h : OnScreen s) : OnScreen s.vgaUpdateCursor := ⟨h.column, h.line⟩

/-- A cursor below the last line comes back to it. -/
theorem onScreen_scrollToLastLine (hx : s.positionX.toNat ≤ vgaColumnsMaxIndex) :
    OnScreen s.scrollToLastLine := by
  unfold Screen.scrollToLastLine
  by_cases hbelow : vgaLinesMaxIndex < s.positionY.toNat
  · obtain ⟨hframeX, hframeY, -⟩ :=
      Screen.scrollUp_frame (s.positionY - BitVec.ofNat 8 vgaLinesMaxIndex) s
    rw [if_pos hbelow]
    refine ⟨by rwa [hframeX], ?_⟩
    rw [hframeY]
    unfold vgaLinesMaxIndex
    bv_omega
  · rw [if_neg hbelow]
    exact ⟨hx, Nat.le_of_not_lt hbelow⟩

theorem OnScreen.stepBack (h : OnScreen s) : OnScreen s.stepBack := by
  have hx := h.column
  have hy := h.line
  unfold Screen.stepBack
  split_ifs with hcolumn hline
  · exact ⟨by change (s.positionX - 1).toNat ≤ _; bv_omega, hy⟩
  · exact ⟨Nat.le_refl _, by change (s.positionY - 1).toNat ≤ _; bv_omega⟩
  · exact h

theorem Screen.advance_column_le (s : Screen) :
    s.advance.positionX.toNat ≤ vgaColumnsMaxIndex := by
  unfold Screen.advance
  dsimp only
  split_ifs with h
  · exact Nat.zero_le _
  · exact Nat.le_of_not_lt h

/-- A character can be stored at the cursor. -/
def Ready (s : Screen) : Prop := InPage s.videoAddress ∧ InPage (s.videoAddress + 1)

theorem OnScreen.ready (h : OnScreen s) : Ready s :=
  Screen.cellAddress_inPage h.line h.column_lt

theorem Ready.storeSymbol (h : Ready s) (character : BitVec 8) :
    StoresInPage s (s.storeSymbol character) :=
  (StoresInPage.store h.1 character).trans (.store h.2 _)

theorem Ready.displayCharacter (h : Ready s) (hc : Plain character) :
    StoresInPage s (s.vgaDisplayCharacter character) ∧
      OnScreen (s.vgaDisplayCharacter character) := by
  have hscroll := onScreen_scrollToLastLine (s.storeSymbol character).advance_column_le
  have hmove := StoresInPage.of_eq (Screen.advance_stores (s.storeSymbol character))
  unfold Screen.vgaDisplayCharacter
  rw [if_neg hc.1, if_neg hc.2.1, if_neg hc.2.2]
  exact ⟨(((h.storeSymbol character).trans hmove).trans
    (Screen.scrollToLastLine_storesInPage _)).updateCursor, hscroll.updateCursor⟩

theorem Screen.stepBack_stores (s : Screen) : s.stepBack.stores = s.stores := by
  unfold Screen.stepBack
  split_ifs <;> rfl

theorem OnScreen.tabulation (h : OnScreen s) (h76 : s.positionX ≠ 76) :
    OnScreen (if s.positionX.toNat + 4 > vgaColumns then s
      else { s with positionX := s.positionX + 4 }) := by
  split_ifs with hfull
  · exact h
  · refine ⟨?_, h.line⟩
    change (s.positionX + 4).toNat ≤ _
    unfold vgaColumns at hfull
    unfold vgaColumnsMaxIndex
    bv_omega

/-- A displayed byte keeps the cursor on the screen, but for a tabulation in column 76. -/
theorem OnScreen.displayCharacter (h : OnScreen s)
    (htab : character = kbdTabulation → s.positionX ≠ 76) :
    StoresInPage s (s.vgaDisplayCharacter character) ∧
      OnScreen (s.vgaDisplayCharacter character) := by
  by_cases hplain : Plain character
  · exact h.ready.displayCharacter hplain
  unfold Screen.vgaDisplayCharacter
  by_cases hnl : character = kbdCrNl
  · rw [if_pos hnl]
    exact ⟨s.newLine_storesInPage.updateCursor,
      (onScreen_scrollToLastLine (Nat.zero_le _)).updateCursor⟩
  by_cases hback : character = kbdBackspace
  · have hmove := StoresInPage.of_eq s.stepBack_stores
    have hcursor : OnScreen (s.stepBack.storeSymbol 0x20) := ⟨h.stepBack.column, h.stepBack.line⟩
    rw [if_neg hnl, if_pos hback]
    exact ⟨(hmove.trans (h.stepBack.ready.storeSymbol _)).updateCursor, hcursor.updateCursor⟩
  have htabulation : character = kbdTabulation := by
    by_contra hne
    exact hplain ⟨hnl, hback, hne⟩
  have hstores : StoresInPage s (if s.positionX.toNat + 4 > vgaColumns then s
      else { s with positionX := s.positionX + 4 }) := by
    split_ifs
    · exact .refl s
    · exact .of_eq rfl
  rw [if_neg hnl, if_neg hback, if_pos htabulation]
  exact ⟨hstores.updateCursor, (h.tabulation (htab htabulation)).updateCursor⟩

end display

/-- Calls that keep the cursor on the screen: those that do not move it relatively, and do not
set it outside. -/
def Tame : VgaCall → Prop
  | .setPosition x y => x.toNat ≤ vgaColumnsMaxIndex ∧ y.toNat ≤ vgaLinesMaxIndex
  | .updatePosition _ _ => False
  | _ => True

theorem Tame.draws {call : VgaCall} (h : Tame call) : Draws OnScreen [call] OnScreen := by
  refine .single fun s unknown hs hg => ?_
  cases call with
  | clear =>
    obtain ⟨hx, hy⟩ := clear_position s
    exact ⟨nofun, by change (s.vgaClear).positionX.toNat ≤ _; rw [hx]; exact Nat.zero_le _,
      by change (s.vgaClear).positionY.toNat ≤ _; rw [hy]; exact Nat.zero_le _⟩
  | updateCursor => exact ⟨nofun, hs.updateCursor⟩
  | setPosition x y => exact ⟨nofun, h.1, h.2⟩
  | updatePosition x y => exact h.elim
  | setAttributes attributes => exact ⟨nofun, hs.column, hs.line⟩
  | displayCharacter character =>
    obtain ⟨hstores, hcursor⟩ := hs.displayCharacter fun hc => hg.1 (congrArg some hc)
    exact ⟨fun _ => hstores, hcursor⟩
  | displayUnknown =>
    obtain ⟨hstores, hcursor⟩ := hs.displayCharacter fun hc => hg.1 (congrArg some hc)
    exact ⟨fun _ => hstores, hcursor⟩
  | eraseVideo address => exact ⟨nofun, hs.column, hs.line⟩

theorem Draws.of_tame {calls : List VgaCall} (h : ∀ call ∈ calls, Tame call) :
    Draws OnScreen calls OnScreen := .of_forall fun call hcall => (h call hcall).draws

/-- Joining a word to the one before it: one column back, and the first character. -/
theorem draws_join {character : Char} (hc : Plain (BitVec.ofNat 8 character.toNat)) :
    Draws OnScreen [.updatePosition (-1) 0, .updateCursor, .displayCharacter character]
      OnScreen := by
  have hback : Draws OnScreen [.updatePosition (-1) 0] Ready := by
    refine .single fun s unknown hs hg => ⟨nofun, ?_⟩
    have hx := hs.column
    have hy := hs.line
    unfold vgaColumnsMaxIndex at hx
    unfold vgaLinesMaxIndex at hy
    have hjoin := hg.2 rfl
    have hy' : (s.positionY + 0).toNat = s.positionY.toNat := by simp
    have hx' : (s.positionX + (-1)).toNat = s.positionX.toNat - 1 ∨
        (s.positionX + (-1)).toNat = 255 ∧ s.positionX.toNat = 0 := by bv_omega
    change InPage (cellAddress (s.positionY + 0).toNat (s.positionX + (-1)).toNat) ∧
      InPage (cellAddress (s.positionY + 0).toNat (s.positionX + (-1)).toNat + 1)
    unfold InPage cellAddress screenPageLimit screenPageSize vgaColumns
    omega
  have hcursor : Draws Ready [.updateCursor] Ready :=
    .single fun s unknown hs _ => ⟨nofun, hs⟩
  have hdisplay : Draws Ready [.displayCharacter character] OnScreen := by
    refine .single fun s unknown hs _ => ?_
    obtain ⟨hstores, honscreen⟩ := hs.displayCharacter hc
    exact ⟨fun _ => hstores, honscreen⟩
  exact hback.cons (hcursor.cons hdisplay)

section rows

/-- The page with the text of the rows on it. -/
def rowsPage (rows : Rows) : Page (BitVec 8) where
  cell r c :=
    if c < vgaColumns then
      ((rows.1.reverse ++ rows.2)[vgaColumns * r + c]?).elim 0 fun x => BitVec.ofNat 8 x.toNat
    else 0
  row := rows.1.length / vgaColumns
  column := rows.1.length % vgaColumns

theorem rowsPage_cell (rows : Rows) (r c : ℕ) :
    (rowsPage rows).cell r c =
      if c < vgaColumns then
        ((rows.1.reverse ++ rows.2)[vgaColumns * r + c]?).elim 0 fun x => BitVec.ofNat 8 x.toNat
      else 0 := rfl

theorem rowsPage_row (rows : Rows) : (rowsPage rows).row = rows.1.length / vgaColumns := rfl

theorem rowsPage_column (rows : Rows) : (rowsPage rows).column = rows.1.length % vgaColumns := rfl

/-- The screen shows the rows, and the text behind the cursor does not reach the next row. -/
structure ShowsRows (rows : Rows) (s : Screen) : Prop where
  agree : Agree (rowsPage rows) s
  sameRow : rows.1.length % vgaColumns + rows.2.length ≤ vgaColumns

variable {rows rows' : Rows} {s : Screen}

theorem open_rowsPage (h : rows.1.length % vgaColumns + rows.2.length ≤ vgaColumns) :
    (rowsPage rows).Open vgaColumns 0 := by
  refine ⟨Nat.mod_lt _ (by decide), fun r c hr => ?_⟩
  have hout : (rows.1.reverse ++ rows.2).length ≤ vgaColumns * r + c := by
    rw [rowsPage_row] at hr
    rw [List.length_append, List.length_reverse]
    unfold vgaColumns at *
    omega
  rw [rowsPage_cell, List.getElem?_eq_none hout]
  exact ite_self _

/-- A character takes the place of the one at the cursor. -/
theorem getElem?_writeText (rows : Rows) (c : Char) (k : ℕ) :
    ((writeText rows [c]).1.reverse ++ (writeText rows [c]).2)[k]? =
      if k = rows.1.length then some c else (rows.1.reverse ++ rows.2)[k]? := by
  have hafter : (writeText rows [c]).1.reverse ++ (writeText rows [c]).2 =
      rows.1.reverse ++ c :: rows.2.tail := by
    simp [writeText]
  rw [hafter]
  by_cases hlt : k < rows.1.length
  · rw [if_neg (Nat.ne_of_lt hlt), List.getElem?_append_left (by simpa),
      List.getElem?_append_left (by simpa)]
  · obtain ⟨d, rfl⟩ := Nat.exists_eq_add_of_le (Nat.le_of_not_lt hlt)
    rw [List.getElem?_append_right (by simp), List.getElem?_append_right (by simp),
      List.length_reverse, Nat.add_sub_cancel_left]
    cases d with
    | zero => rw [if_pos (Nat.add_zero _), List.getElem?_cons_zero]
    | succ d => rw [if_neg (by omega), List.getElem?_cons_succ, List.getElem?_tail]

theorem rowsPage_writeText (rows : Rows) (c : Char) :
    rowsPage (writeText rows [c]) =
      (rowsPage rows).put vgaColumns (BitVec.ofNat 8 c.toNat) := by
  have hlength := writeText_length rows [c]
  have hlt := Nat.mod_lt rows.1.length (show 0 < vgaColumns by decide)
  rw [List.length_singleton] at hlength
  have hcell : (rowsPage (writeText rows [c])).cell =
      ((rowsPage rows).put vgaColumns (BitVec.ofNat 8 c.toNat)).cell := by
    funext r k
    rw [Page.put_cell, rowsPage_cell, rowsPage_cell, getElem?_writeText, rowsPage_row,
      rowsPage_column]
    by_cases hk : k < vgaColumns
    · have hcursor : vgaColumns * r + k = rows.1.length ↔
          r = rows.1.length / vgaColumns ∧ k = rows.1.length % vgaColumns := by
        unfold vgaColumns at *
        omega
      simp only [if_pos hk, hcursor]
      split_ifs <;> rfl
    · rw [if_neg hk, if_neg hk, if_neg (by omega)]
  by_cases hnext : (rowsPage rows).column + 1 < vgaColumns
  · obtain ⟨hrow, hcolumn⟩ := Page.put_of_lt hnext (BitVec.ofNat 8 c.toNat)
    rw [rowsPage_row] at hrow
    rw [rowsPage_column] at hnext hcolumn
    refine Page.ext hcell ?_ ?_
    · rw [hrow, rowsPage_row, hlength]
      unfold vgaColumns at *
      omega
    · rw [hcolumn, rowsPage_column, hlength]
      unfold vgaColumns at *
      omega
  · obtain ⟨hrow, hcolumn⟩ := Page.put_of_ge hnext (BitVec.ofNat 8 c.toNat)
    rw [rowsPage_row] at hrow
    rw [rowsPage_column] at hnext
    refine Page.ext hcell ?_ ?_
    · rw [hrow, rowsPage_row, hlength]
      unfold vgaColumns at *
      omega
    · rw [hcolumn, rowsPage_column, hlength]
      unfold vgaColumns at *
      omega

theorem ShowsRows.write (h : ShowsRows rows s) {c : Char} (hc : Plain (BitVec.ofNat 8 c.toNat)) :
    ShowsRows (writeText rows [c]) (s.vgaDisplayCharacter (BitVec.ofNat 8 c.toNat)) := by
  constructor
  case agree =>
    have hagree := h.agree.displayCharacter ⟨hc.2.1, hc.2.2⟩
    rw [layOut, if_neg hc.1] at hagree
    rw [rowsPage_writeText]
    exact hagree
  case sameRow =>
    have hrow := h.sameRow
    have hlt := Nat.mod_lt rows.1.length (show 0 < vgaColumns by decide)
    rw [writeText_length, List.length_singleton]
    change _ + (rows.2.drop 1).length ≤ _
    rw [List.length_drop]
    unfold vgaColumns at *
    omega

/-- In its row the cursor goes back over a character, which stays on the page. -/
theorem ShowsRows.back {c : Char} {before after : List Char}
    (h : ShowsRows (c :: before, after) s) (hcolumn : (before.length + 1) % vgaColumns ≠ 0) :
    ShowsRows (before, c :: after) (s.vgaUpdatePosition (-1) 0) := by
  have hx := h.agree.shows.positionX
  have hy := h.agree.shows.positionY
  have hlt := h.agree.positionX_lt
  have hrow := h.sameRow
  simp only [rowsPage_row, rowsPage_column, List.length_cons] at hx hy hrow
  have hsame : (before.length + 1) / vgaColumns = before.length / vgaColumns := by
    unfold vgaColumns at *
    omega
  have hrow' : before.length % vgaColumns + (c :: after).length ≤ vgaColumns := by
    rw [List.length_cons]
    unfold vgaColumns at *
    omega
  have htext : (c :: before).reverse ++ after = before.reverse ++ c :: after := by simp
  refine ⟨⟨open_rowsPage hrow', ?_, ?_, fun r hr k hk => ?_⟩, hrow'⟩
  · change (s.positionY + 0#8).toNat + _ = _
    simp only [BitVec.add_zero, rowsPage_row]
    omega
  · change (s.positionX + (-1)).toNat = before.length % vgaColumns
    unfold vgaColumns at *
    bv_omega
  · have hcells := h.agree.shows.cells r hr k hk
    rw [rowsPage_cell, rowsPage_row, htext, List.length_cons, hsame] at hcells
    exact hcells

theorem ShowsRows.call (h : ShowsRows rows s) (c : DriverCall)
    (hcall : rowsCall rows c.call = some rows') : ShowsRows rows' (s.call c) := by
  obtain ⟨call, unknown⟩ := c
  cases call with
  | displayCharacter x =>
    obtain ⟨hx, rfl⟩ := Option.ite_some_none_eq_some.mp hcall
    exact h.write (hx x List.mem_cons_self)
  | updatePosition x y =>
    obtain ⟨before, after⟩ := rows
    cases before with
    | nil => cases hcall
    | cons c before =>
      obtain ⟨⟨rfl, rfl, hcolumn⟩, rfl⟩ := Option.ite_some_none_eq_some.mp hcall
      exact h.back hcolumn
  | updateCursor =>
    obtain rfl := Option.some.inj hcall
    exact ⟨h.agree.updateCursor, h.sameRow⟩
  | setAttributes attributes =>
    obtain rfl := Option.some.inj hcall
    have hshows := h.agree.shows
    exact ⟨⟨h.agree.isOpen, hshows.positionY, hshows.positionX, hshows.cells⟩, h.sameRow⟩
  | clear => cases hcall
  | setPosition x y => cases hcall
  | displayUnknown => cases hcall
  | eraseVideo address => cases hcall

theorem ShowsRows.calls (cs : List DriverCall) (h : ShowsRows rows s)
    (hcalls : rowsAfter rows (cs.map (·.call)) = some rows') :
    ShowsRows rows' (cs.foldl Screen.call s) := by
  induction cs generalizing rows s with
  | nil =>
    obtain rfl := Option.some.inj hcalls
    exact h
  | cons c cs ih =>
    rw [List.map_cons, rowsAfter_cons] at hcalls
    obtain ⟨next, hcall, hrest⟩ := Option.bind_eq_some_iff.mp hcalls
    exact ih (h.call c hcall) hrest

theorem showsRows_clear (s : Screen) : ShowsRows ([], []) s.vgaClear := by
  have hpage : rowsPage ([], []) = Page.empty 0 := by
    refine Page.ext ?_ rfl rfl
    funext r c
    exact ite_self _
  exact ⟨hpage ▸ agree_clear s, Nat.zero_le _⟩

/-- After `vga_clear`, the screen shows the last rows of the text that the calls leave. -/
theorem screen_showsRows (s : Screen) (cs : List DriverCall)
    (h : rowsAfter ([], []) (cs.map (·.call)) = some rows) :
    ShowsTail (rowsPage rows) (cs.foldl Screen.call s.vgaClear) :=
  ((showsRows_clear s).calls cs h).agree.shows

end rows

end Einherjar.Io
