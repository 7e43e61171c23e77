import Einherjar.Io.Screen
import Mathlib.Data.List.Basic

/-! The screen shows the tail of what is printed: the driver, which scrolls the video page in
place, against a page without a last row. -/
namespace Einherjar.Io
open Einherjar.Lib

/-- The layout of a character on the page without a last row. -/
def layOut (p : Page (BitVec 8)) (character : BitVec 8) : Page (BitVec 8) :=
  if character = kbdCrNl then p.newLine else p.put vgaColumns character

/-- The rows of the page from `top` on are those of the screen, as well as the cursor. -/
structure ShowsFrom (top : ℕ) (p : Page (BitVec 8)) (s : Screen) : Prop where
  positionY : s.positionY.toNat + top = p.row
  positionX : s.positionX.toNat = p.column
  cells : ∀ r ≤ vgaLinesMaxIndex, ∀ c < vgaColumns,
    s.video (cellAddress r c) = p.cell (top + r) c

/-- The screen shows the last 25 rows up to the cursor. -/
def ShowsTail (p : Page (BitVec 8)) (s : Screen) : Prop :=
  ShowsFrom (p.row - vgaLinesMaxIndex) p s

/-- All stores since an earlier state hit the page. -/
def StoresInPage (s s' : Screen) : Prop :=
  ∃ stores, s'.stores = stores ++ s.stores ∧ ∀ a ∈ stores, InPage a

namespace StoresInPage

variable {s s' s'' : Screen}

theorem refl (s : Screen) : StoresInPage s s := ⟨[], rfl, by simp⟩

theorem trans (h : StoresInPage s s') (h' : StoresInPage s' s'') : StoresInPage s s'' := by
  obtain ⟨stores, hs, hin⟩ := h
  obtain ⟨stores', hs', hin'⟩ := h'
  refine ⟨stores' ++ stores, by rw [hs', hs, List.append_assoc], fun a ha => ?_⟩
  rcases List.mem_append.mp ha with ha | ha
  · exact hin' a ha
  · exact hin a ha

theorem of_eq (h : s'.stores = s.stores) : StoresInPage s s' := ⟨[], h, by simp⟩

theorem updateCursor (h : StoresInPage s s') : StoresInPage s s'.vgaUpdateCursor := h

theorem store {address : ℕ} (h : InPage address) (byte : BitVec 8) :
    StoresInPage s (s.store address byte) :=
  ⟨[address], rfl, by simpa using h⟩

end StoresInPage

namespace Screen

variable {s : Screen}

@[simp] theorem updateCursor_video : s.vgaUpdateCursor.video = s.video := rfl
@[simp] theorem updateCursor_positionX : s.vgaUpdateCursor.positionX = s.positionX := rfl
@[simp] theorem updateCursor_positionY : s.vgaUpdateCursor.positionY = s.positionY := rfl
@[simp] theorem updateCursor_stores : s.vgaUpdateCursor.stores = s.stores := rfl
@[simp] theorem setPosition_video (x y : BitVec 8) : (s.vgaSetPosition x y).video = s.video := rfl

theorem store_video_of_ne {a b : ℕ} (byte : BitVec 8) (h : b ≠ a) :
    (s.store a byte).video b = s.video b := Function.update_of_ne h _ _

theorem cellAddress_inPage {r c : ℕ} (hr : r ≤ vgaLinesMaxIndex) (hc : c < vgaColumns) :
    InPage (cellAddress r c) ∧ InPage (cellAddress r c + 1) := by
  unfold InPage cellAddress screenPageLimit screenPageSize
  unfold vgaLinesMaxIndex vgaColumns at *
  omega

theorem cellAddress_inj {r c r' c' : ℕ} (hc : c < vgaColumns) (hc' : c' < vgaColumns) :
    cellAddress r c = cellAddress r' c' ↔ r = r' ∧ c = c' := by
  unfold cellAddress
  unfold vgaColumns at *
  omega

theorem cellAddress_ne_succ (r c r' c' : ℕ) : cellAddress r c ≠ cellAddress r' c' + 1 := by
  unfold cellAddress vgaColumns
  omega

/-- The byte `d` addresses on, or 0 behind the page. -/
theorem scrolledByte_eq (nbLines : BitVec 8) (a : ℕ) :
    s.scrolledByte nbLines a =
      if a + nbLines.toNat * vgaColumns * 2 < screenPageLimit
      then s.video (a + nbLines.toNat * vgaColumns * 2) else 0 := rfl

/-- The loop of `vga_scroll_up` from an address on. No byte is read after it has been written,
since the loop goes upwards and reads ahead. -/
theorem scrollBytes_video (nbLines : BitVec 8) (start n : ℕ) (s : Screen) (a : ℕ) :
    (s.scrollBytes nbLines (List.range' start n)).video a =
      if start ≤ a ∧ a < start + n then s.scrolledByte nbLines a else s.video a := by
  induction n generalizing start s with
  | zero => rw [if_neg (by omega)]; rfl
  | succ n ih =>
    rw [List.range'_succ, scrollBytes, List.foldl_cons, ← scrollBytes, ih]
    by_cases ha : a = start
    · subst ha
      rw [if_neg (by omega), if_pos (by omega)]
      exact Function.update_self ..
    · by_cases hin : start + 1 ≤ a ∧ a < start + 1 + n
      · rw [if_pos hin, if_pos (by omega), scrolledByte_eq (s := s.store ..),
          store_video_of_ne _ (by omega)]
        rfl
      · rw [if_neg hin, if_neg (by omega), store_video_of_ne _ ha]

theorem scrollBytes_frame (nbLines : BitVec 8) (addresses : List ℕ) (s : Screen) :
    (s.scrollBytes nbLines addresses).positionX = s.positionX ∧
      (s.scrollBytes nbLines addresses).positionY = s.positionY ∧
      (s.scrollBytes nbLines addresses).stores = addresses.reverse ++ s.stores := by
  induction addresses generalizing s with
  | nil => exact ⟨rfl, rfl, rfl⟩
  | cons a addresses ih =>
    obtain ⟨hx, hy, hstores⟩ := ih (s.store a (s.scrolledByte nbLines a))
    refine ⟨hx, hy, hstores.trans ?_⟩
    rw [List.reverse_cons, List.append_assoc]
    rfl

theorem scrollUp_eq (nbLines : BitVec 8) (s : Screen) :
    s.vgaScrollUp nbLines =
      { s.scrollBytes nbLines (List.range' screenStart screenPageSize) with
        positionY := (s.scrollBytes nbLines (List.range' screenStart screenPageSize)).positionY -
          nbLines }.vgaUpdateCursor := rfl

theorem scrollUp_video (nbLines : BitVec 8) (s : Screen) (a : ℕ) :
    (s.vgaScrollUp nbLines).video a =
      if InPage a then s.scrolledByte nbLines a else s.video a := by
  rw [scrollUp_eq, updateCursor_video, scrollBytes_video]
  rfl

theorem scrollUp_frame (nbLines : BitVec 8) (s : Screen) :
    (s.vgaScrollUp nbLines).positionX = s.positionX ∧
      (s.vgaScrollUp nbLines).positionY = s.positionY - nbLines ∧
      (s.vgaScrollUp nbLines).stores =
        (List.range' screenStart screenPageSize).reverse ++ s.stores := by
  obtain ⟨hx, hy, hstores⟩ :=
    scrollBytes_frame nbLines (List.range' screenStart screenPageSize) s
  rw [scrollUp_eq, updateCursor_positionX, updateCursor_positionY, updateCursor_stores, hx, hy,
    hstores]
  exact ⟨rfl, rfl, rfl⟩

theorem scrollUp_storesInPage (nbLines : BitVec 8) (s : Screen) :
    StoresInPage s (s.vgaScrollUp nbLines) := by
  refine ⟨_, (scrollUp_frame nbLines s).2.2, fun a ha => ?_⟩
  exact List.mem_range'_1.mp (List.mem_reverse.mp ha)

theorem advance_stores (s : Screen) : s.advance.stores = s.stores := by
  unfold advance
  dsimp only
  split_ifs <;> rfl

theorem scrollToLastLine_storesInPage (s : Screen) : StoresInPage s s.scrollToLastLine := by
  unfold scrollToLastLine
  split_ifs
  · exact scrollUp_storesInPage _ s
  · exact .refl s

/-- The effect of a new line, up to the cursor registers. -/
theorem newLine_storesInPage (s : Screen) :
    StoresInPage s { s with positionX := 0, positionY := s.positionY + 1 }.scrollToLastLine :=
  (StoresInPage.of_eq rfl).trans (scrollToLastLine_storesInPage _)

/-- A character stored in a cell of the page is the only change of the characters. -/
theorem storeSymbol_video {s : Screen} (character : BitVec 8)
    (hx : s.positionX.toNat < vgaColumns) {r c : ℕ} (hc : c < vgaColumns) :
    (s.storeSymbol character).video (cellAddress r c) =
      if r = s.positionY.toNat ∧ c = s.positionX.toNat then character
      else s.video (cellAddress r c) := by
  have hne : cellAddress r c ≠ s.videoAddress + 1 := cellAddress_ne_succ r c _ _
  rw [storeSymbol, store_video_of_ne _ hne]
  simp only [store, videoAddress, Function.update_apply, cellAddress_inj hc hx]

theorem storeSymbol_storesInPage (character : BitVec 8) (hy : s.positionY.toNat ≤ vgaLinesMaxIndex)
    (hx : s.positionX.toNat < vgaColumns) : StoresInPage s (s.storeSymbol character) := by
  obtain ⟨hin, hin'⟩ := cellAddress_inPage hy hx
  exact (StoresInPage.store hin character).trans (.store hin' _)

end Screen

section scroll

variable {p : Page (BitVec 8)} {s : Screen} {top : ℕ}

/-- A cursor below the last line: the screen scrolls by one line. -/
theorem ShowsFrom.scrollUp (h : ShowsFrom top p s) (hblank : ∀ c, p.cell p.row c = 0)
    (hy : s.positionY.toNat = vgaLinesMaxIndex + 1) :
    ShowsFrom (top + 1) p (s.vgaScrollUp 1) := by
  obtain ⟨hframeX, hframeY, -⟩ := Screen.scrollUp_frame 1 s
  have hrow := h.positionY
  have hone : (1 : BitVec 8).toNat = 1 := rfl
  refine ⟨?_, (congrArg BitVec.toNat hframeX).trans h.positionX, fun r hr c hc => ?_⟩
  · rw [hframeY, BitVec.toNat_sub, hone]
    unfold vgaLinesMaxIndex at hy
    omega
  · have hnext :
        cellAddress r c + (1 : BitVec 8).toNat * vgaColumns * 2 = cellAddress (r + 1) c := by
      rw [hone]
      unfold cellAddress vgaColumns
      omega
    have hscroll := Screen.scrollUp_video 1 s (cellAddress r c)
    rw [if_pos (Screen.cellAddress_inPage hr hc).1, Screen.scrolledByte_eq, hnext] at hscroll
    rw [hscroll, show top + 1 + r = top + (r + 1) by omega]
    by_cases hlast : r = vgaLinesMaxIndex
    · have hout : ¬ cellAddress (r + 1) c < screenPageLimit := by
        rw [hlast]
        unfold cellAddress screenPageLimit screenPageSize vgaLinesMaxIndex vgaColumns
        omega
      rw [if_neg hout, show top + (r + 1) = p.row by omega, hblank]
    · rw [if_pos (Screen.cellAddress_inPage (by omega) hc).1.2]
      exact h.cells (r + 1) (by omega) c hc

/-- The cursor may have left the last line for the one below it. -/
theorem ShowsFrom.scrollToLastLine (h : ShowsFrom top p s)
    (hblank : vgaLinesMaxIndex < s.positionY.toNat → ∀ c, p.cell p.row c = 0)
    (hy : s.positionY.toNat ≤ vgaLinesMaxIndex + 1)
    (htop : top = 0 ∨ vgaLinesMaxIndex ≤ s.positionY.toNat) :
    ShowsTail p s.scrollToLastLine := by
  have hrow := h.positionY
  unfold ShowsTail
  unfold Screen.scrollToLastLine
  by_cases hbelow : vgaLinesMaxIndex < s.positionY.toNat
  · have hlast : s.positionY.toNat = vgaLinesMaxIndex + 1 := by omega
    have hby : s.positionY - BitVec.ofNat 8 vgaLinesMaxIndex = 1 := by
      apply BitVec.eq_of_toNat_eq
      rw [BitVec.toNat_sub, hlast]
      rfl
    rw [if_pos hbelow, hby, show p.row - vgaLinesMaxIndex = top + 1 by omega]
    exact h.scrollUp (hblank hbelow) hlast
  · rw [if_neg hbelow, show p.row - vgaLinesMaxIndex = top by omega]
    exact h

end scroll

section characters

variable {p : Page (BitVec 8)} {s : Screen} {character : BitVec 8}

/-- What the screen and the page have in common between two characters. -/
structure Agree (p : Page (BitVec 8)) (s : Screen) : Prop where
  isOpen : p.Open vgaColumns 0
  shows : ShowsTail p s

theorem Agree.positionX_lt (h : Agree p s) : s.positionX.toNat < vgaColumns := by
  rw [h.shows.positionX]
  exact h.isOpen.column_lt

theorem Agree.positionY_le (h : Agree p s) : s.positionY.toNat ≤ vgaLinesMaxIndex := by
  have := h.shows.positionY
  omega

/-- Nothing is above the screen, or the cursor is in its last line. -/
theorem Agree.top_eq (h : Agree p s) :
    p.row - vgaLinesMaxIndex = 0 ∨ s.positionY.toNat = vgaLinesMaxIndex := by
  have := h.shows.positionY
  omega

theorem toNat_add_one {x : BitVec 8} {k : ℕ} (hx : x.toNat ≤ k) (hk : k < 255) :
    (x + 1).toNat = x.toNat + 1 := by
  rw [BitVec.toNat_add, show (1 : BitVec 8).toNat = 1 from rfl]
  omega

theorem Agree.newLine (h : Agree p s) :
    Agree p.newLine { s with positionX := 0, positionY := s.positionY + 1 }.scrollToLastLine := by
  have hy := toNat_add_one h.positionY_le (by decide)
  have hshows := h.shows
  have hstep : ShowsFrom (p.row - vgaLinesMaxIndex) p.newLine
      { s with positionX := 0, positionY := s.positionY + 1 } := by
    refine ⟨?_, rfl, hshows.cells⟩
    have := hshows.positionY
    change (s.positionY + 1).toNat + _ = p.row + 1
    omega
  have hblank : ∀ c, p.newLine.cell p.newLine.row c = 0 :=
    fun c => h.isOpen.blank_below _ c (Nat.lt_succ_self _)
  refine ⟨h.isOpen.newLine, hstep.scrollToLastLine (fun _ => hblank) ?_ ?_⟩
  · change (s.positionY + 1).toNat ≤ _
    have := h.positionY_le
    omega
  · change _ ∨ _ ≤ (s.positionY + 1).toNat
    have := h.top_eq
    omega

/-- The cells after an ordinary character, before the screen scrolls. -/
theorem Agree.storeSymbol_cells (h : Agree p s) (character : BitVec 8) {r c : ℕ}
    (hr : r ≤ vgaLinesMaxIndex) (hc : c < vgaColumns) :
    (s.storeSymbol character).video (cellAddress r c) =
      (p.put vgaColumns character).cell (p.row - vgaLinesMaxIndex + r) c := by
  have hy := h.shows.positionY
  have hx := h.shows.positionX
  rw [Screen.storeSymbol_video character h.positionX_lt hc, Page.put_cell, h.shows.cells r hr c hc,
    hx]
  have hiff : r = s.positionY.toNat ↔ p.row - vgaLinesMaxIndex + r = p.row := by omega
  simp only [hiff]

theorem Agree.put (h : Agree p s) (character : BitVec 8) :
    Agree (p.put vgaColumns character) (s.storeSymbol character).advance.scrollToLastLine := by
  have hopen := h.isOpen.put character
  refine ⟨hopen, ?_⟩
  have hx := toNat_add_one (Nat.le_of_lt h.positionX_lt) (by decide)
  have hy := toNat_add_one h.positionY_le (by decide)
  have hcells := fun r hr c hc => h.storeSymbol_cells character (r := r) (c := c) hr hc
  have hrow := h.shows.positionY
  have hcolumn := h.shows.positionX
  have hle := h.positionY_le
  have htop := h.top_eq
  by_cases hwrap : p.column + 1 < vgaColumns
  · have hadvance : (s.storeSymbol character).advance =
        { s.storeSymbol character with positionX := s.positionX + 1 } := by
      refine if_neg ?_
      change ¬ vgaColumnsMaxIndex < (s.positionX + 1).toNat
      unfold vgaColumnsMaxIndex
      unfold vgaColumns at hwrap
      omega
    obtain ⟨hrow', hcolumn'⟩ := Page.put_of_lt hwrap character
    have hstep : ShowsFrom (p.row - vgaLinesMaxIndex) (p.put vgaColumns character)
        (s.storeSymbol character).advance := by
      rw [hadvance]
      refine ⟨hrow'.symm ▸ hrow, ?_, hcells⟩
      change (s.positionX + 1).toNat = _
      omega
    refine hstep.scrollToLastLine (fun hbelow => ?_) ?_ ?_
    · rw [hadvance] at hbelow
      change _ < s.positionY.toNat at hbelow
      omega
    · rw [hadvance]
      change s.positionY.toNat ≤ _
      omega
    · rw [hadvance]
      change _ ∨ _ ≤ s.positionY.toNat
      omega
  · have hadvance : (s.storeSymbol character).advance =
        { s.storeSymbol character with positionX := 0, positionY := s.positionY + 1 } := by
      refine if_pos ?_
      change vgaColumnsMaxIndex < (s.positionX + 1).toNat
      unfold vgaColumnsMaxIndex
      unfold vgaColumns at hwrap
      omega
    obtain ⟨hrow', hcolumn'⟩ := Page.put_of_ge hwrap character
    have hstep : ShowsFrom (p.row - vgaLinesMaxIndex) (p.put vgaColumns character)
        (s.storeSymbol character).advance := by
      rw [hadvance]
      refine ⟨?_, hcolumn'.symm, hcells⟩
      change (s.positionY + 1).toNat + _ = _
      omega
    refine hstep.scrollToLastLine (fun _ => h.isOpen.blank_row hwrap character) ?_ ?_
    · rw [hadvance]
      change (s.positionY + 1).toNat ≤ _
      omega
    · rw [hadvance]
      change _ ∨ _ ≤ (s.positionY + 1).toNat
      omega

/-- Neither a backspace nor a tabulation. -/
def Printed (character : BitVec 8) : Prop := character ≠ kbdBackspace ∧ character ≠ kbdTabulation

instance (character : BitVec 8) : Decidable (Printed character) := by
  unfold Printed
  infer_instance

theorem ShowsFrom.updateCursor {top : ℕ} (h : ShowsFrom top p s) :
    ShowsFrom top p s.vgaUpdateCursor := ⟨h.positionY, h.positionX, h.cells⟩

theorem Agree.updateCursor (h : Agree p s) : Agree p s.vgaUpdateCursor :=
  ⟨h.isOpen, h.shows.updateCursor⟩

theorem Agree.displayCharacter (h : Agree p s) (hc : Printed character) :
    Agree (layOut p character) (s.vgaDisplayCharacter character) := by
  unfold layOut Screen.vgaDisplayCharacter
  by_cases hnl : character = kbdCrNl
  · rw [if_pos hnl, if_pos hnl]
    exact h.newLine.updateCursor
  · rw [if_neg hnl, if_neg hnl, if_neg hc.1, if_neg hc.2]
    exact (h.put character).updateCursor

theorem Agree.storesInPage (h : Agree p s) (hc : Printed character) :
    StoresInPage s (s.vgaDisplayCharacter character) := by
  unfold Screen.vgaDisplayCharacter
  by_cases hnl : character = kbdCrNl
  · rw [if_pos hnl]
    exact s.newLine_storesInPage.updateCursor
  · have hstore := Screen.storeSymbol_storesInPage character h.positionY_le h.positionX_lt
    have hmove := StoresInPage.of_eq (Screen.advance_stores (s.storeSymbol character))
    rw [if_neg hnl, if_neg hc.1, if_neg hc.2]
    exact ((hstore.trans hmove).trans (Screen.scrollToLastLine_storesInPage _)).updateCursor

end characters

section clear

/-- The loop of `vga_clear` sets the characters it comes to. -/
theorem clearCells_video (n : ℕ) (s : Screen) {r c : ℕ}
    (hn : vgaColumns * r + c < n) :
    (s.clearCells (List.range n)).video (cellAddress r c) = 0 := by
  induction n with
  | zero => omega
  | succ n ih =>
    have hstep : s.clearCells (List.range (n + 1)) =
        ((s.clearCells (List.range n)).store (screenStart + 2 * n) 0).store
          (screenStart + 2 * n + 1) fgWhite := by
      rw [Screen.clearCells, List.range_succ, List.foldl_append, ← Screen.clearCells]
      rfl
    have hodd : cellAddress r c ≠ screenStart + 2 * n + 1 := by
      unfold cellAddress vgaColumns
      omega
    rw [hstep, Screen.store_video_of_ne _ hodd]
    by_cases hlast : vgaColumns * r + c = n
    · have haddress : cellAddress r c = screenStart + 2 * n := by
        unfold cellAddress
        unfold vgaColumns at *
        omega
      rw [haddress]
      exact Function.update_self ..
    · have hne : cellAddress r c ≠ screenStart + 2 * n := by
        unfold cellAddress
        unfold vgaColumns at *
        omega
      rw [Screen.store_video_of_ne _ hne]
      exact ih (by omega)

theorem clear_eq (s : Screen) : s.vgaClear =
    ((s.clearCells (List.range (screenPageSize / 2 + 1))).vgaSetPosition 0 0).vgaUpdateCursor := rfl

theorem clear_video (s : Screen) {r c : ℕ} (hr : r ≤ vgaLinesMaxIndex) (hc : c < vgaColumns) :
    s.vgaClear.video (cellAddress r c) = 0 := by
  rw [clear_eq, Screen.updateCursor_video, Screen.setPosition_video]
  refine clearCells_video (screenPageSize / 2 + 1) s ?_
  unfold screenPageSize
  unfold vgaLinesMaxIndex vgaColumns at *
  omega

theorem clear_position (s : Screen) : s.vgaClear.positionX = 0 ∧ s.vgaClear.positionY = 0 := by
  rw [clear_eq, Screen.updateCursor_positionX, Screen.updateCursor_positionY]
  exact ⟨rfl, rfl⟩

theorem agree_clear (s : Screen) : Agree (Page.empty 0) s.vgaClear := by
  obtain ⟨hx, hy⟩ := clear_position s
  refine ⟨Page.open_empty (by decide), ?_, ?_, fun _ hr _ hc => clear_video s hr hc⟩
  · rw [hy]
    rfl
  · rw [hx]
    rfl

end clear

/-- After `vga_clear`, the screen shows the last rows of what is printed, and nothing outside the
page is written. -/
theorem screen_showsTail (s : Screen) (text : List (BitVec 8)) (h : ∀ c ∈ text, Printed c) :
    let screen := text.foldl Screen.vgaDisplayCharacter s.vgaClear
    ShowsTail (text.foldl layOut (Page.empty 0)) screen ∧ StoresInPage s.vgaClear screen := by
  have hrun : ∀ (p : Page (BitVec 8)) (t : Screen), Agree p t →
      Agree (text.foldl layOut p) (text.foldl Screen.vgaDisplayCharacter t) ∧
        StoresInPage t (text.foldl Screen.vgaDisplayCharacter t) := by
    induction text with
    | nil => exact fun p t hagree => ⟨hagree, .refl t⟩
    | cons c text ih =>
      intro p t hagree
      have hc := h c List.mem_cons_self
      have hrest :=
        ih (fun x hx => h x (List.mem_cons_of_mem _ hx)) _ _ (hagree.displayCharacter hc)
      exact ⟨hrest.1, (hagree.storesInPage hc).trans hrest.2⟩
  obtain ⟨hagree, hstores⟩ := hrun _ _ (agree_clear s)
  exact ⟨hagree.shows, hstores⟩

theorem screen_showsTail_twoLines :
    let text : List (BitVec 8) := [0x6f, 0x6b, 0x0a]
    (∀ c ∈ text, Printed c) ∧
      ShowsTail (text.foldl layOut (Page.empty 0))
        (text.foldl Screen.vgaDisplayCharacter zeroedScreen.vgaClear) :=
  ⟨by decide, (screen_showsTail zeroedScreen _ (by decide)).1⟩

end Einherjar.Io
