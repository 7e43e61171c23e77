import Einherjar.Colorforth.Editor
import Einherjar.Io.ScreenCalls

/-! What the editor draws: every key keeps the cursor on the screen and draws inside the video
page, unless a cursor key leads over the edge, a tabulation ends in column 80, a word is
joined to the one before it from the start of one of the last lines, or a store beside an array has
changed the variables. -/
namespace Einherjar.Colorforth
open Einherjar.Io Einherjar.Lib

/-- Calls of the interpreter and the editor that keep the cursor on the screen. -/
def Keeps (s t : Forth) : Prop :=
  ∃ calls, t.calls = s.calls ++ calls ∧ Draws OnScreen calls OnScreen

namespace Keeps

variable {s t u : Forth} {calls : List VgaCall}

theorem of_calls_eq (h : t.calls = s.calls) : Keeps s t :=
  ⟨[], by rw [h, List.append_nil], .nil⟩

theorem refl (s : Forth) : Keeps s s := of_calls_eq rfl

theorem trans (h : Keeps s t) (h' : Keeps t u) : Keeps s u := by
  obtain ⟨calls, ht, hd⟩ := h
  obtain ⟨calls', hu, hd'⟩ := h'
  exact ⟨calls ++ calls', by rw [hu, ht, List.append_assoc], hd.append hd'⟩

theorem call (s : Forth) (h : Draws OnScreen calls OnScreen) : Keeps s (s.call calls) :=
  ⟨calls, rfl, h⟩

theorem call_tame (s : Forth) (h : ∀ c ∈ calls, Tame c) : Keeps s (s.call calls) :=
  call s (.of_tame h)

end Keeps

section tame

theorem tame_display (text : List Char) : ∀ c ∈ display text, Tame c := by
  intro c hc
  obtain ⟨character, -, rfl⟩ := List.mem_map.mp hc
  trivial

theorem tame_eraseText (first last : ℕ) : ∀ c ∈ eraseText first last, Tame c := by
  intro c hc
  obtain ⟨k, -, rfl⟩ := List.mem_map.mp hc
  trivial

theorem tame_displayHex (k : ℤ) : Tame (displayHex k) := by
  unfold displayHex
  split_ifs <;> trivial

theorem tame_printHexLoop (n : ℕ) (i : BitVec 32) (f : Bool) :
    ∀ c ∈ printHexLoop n i f, Tame c := by
  induction n generalizing i f with
  | zero => exact nofun
  | succ n ih =>
    rw [printHexLoop]
    split_ifs with hzero hf
    · exact List.forall_mem_cons.mpr ⟨trivial, ih _ _⟩
    · exact ih _ _
    · exact List.forall_mem_cons.mpr ⟨tame_displayHex _, ih _ _⟩

theorem tame_printHex (i : BitVec 32) : ∀ c ∈ printHex i, Tame c := by
  unfold printHex
  split_ifs
  · exact tame_display ['0']
  · exact tame_printHexLoop 8 i false

theorem tame_printDecLoop (n j : ℕ) (i : ℤ) (f : Bool) : ∀ c ∈ printDecLoop n j i f, Tame c := by
  induction n generalizing j i f with
  | zero => exact nofun
  | succ n ih =>
    rw [printDecLoop]
    dsimp only
    split_ifs with hj hk hf
    · exact nofun
    · exact List.forall_mem_cons.mpr ⟨trivial, ih _ _ _⟩
    · exact ih _ _ _
    · exact List.forall_mem_cons.mpr ⟨tame_displayHex _, ih _ _ _⟩

theorem tame_printDec (i : Cell) : ∀ c ∈ printDec i, Tame c := by
  unfold printDec
  split_ifs
  · exact tame_display ['0']
  · exact List.forall_mem_cons.mpr ⟨trivial, tame_printDecLoop _ _ _ _⟩
  · exact tame_printDecLoop _ _ _ _

theorem tame_printNumber (word : Cell) (isHex : Bool) : ∀ c ∈ printNumber word isHex, Tame c := by
  unfold printNumber
  refine List.forall_mem_append.mpr ⟨?_, tame_display [' ']⟩
  split_ifs
  · exact tame_printHex _
  · exact tame_printDec _

theorem tame_printPayload (word payload : Cell) : ∀ c ∈ printPayload word payload, Tame c := by
  unfold printPayload
  refine List.forall_mem_append.mpr ⟨?_, tame_display [' ']⟩
  split_ifs
  · exact tame_printHex _
  · exact tame_printDec _

end tame

section blocks

/-- What is unpacked has characters of the code table, or the NUL of an index outside it. -/
theorem mem_unpackLoop {fuel : ℕ} {coded : BitVec 32} {c : Char} (h : c ∈ unpackLoop fuel coded) :
    c = '\x00' ∨ c ∈ code := by
  have hgetD : ∀ k, code.getD k '\x00' = '\x00' ∨ code.getD k '\x00' ∈ code := by
    intro k
    by_cases hk : k < code.length
    · rw [List.getD_eq_getElem _ _ hk]
      exact .inr (List.getElem_mem hk)
    · exact .inl (List.getD_eq_default _ _ (Nat.le_of_not_lt hk))
  induction fuel generalizing coded with
  | zero => cases h
  | succ fuel ih =>
    rw [unpackLoop] at h
    dsimp only at h
    split_ifs at h
    · cases h
    all_goals
      rcases List.mem_cons.mp h with rfl | h
      · exact hgetD _
      · exact ih h

theorem plain_of_mem_unpack {word : Cell} {c : Char} (h : c ∈ unpack word ++ [' ']) :
    Plain (BitVec.ofNat 8 c.toNat) := by
  have hcode : ∀ c ∈ code, Plain (BitVec.ofNat 8 c.toNat) := by decide
  rcases List.mem_append.mp h with h | h
  · rcases mem_unpackLoop h with rfl | h
    · decide
    · exact hcode c h
  · rw [List.mem_singleton.mp h]
    decide

/-- A word extension: the cursor goes back, and the name is displayed. -/
theorem draws_extension (word : Cell) :
    Draws OnScreen ([.updatePosition (-1) 0, .updateCursor] ++ printName word) OnScreen := by
  obtain ⟨c, text, htext⟩ := List.exists_cons_of_ne_nil (l := unpack word ++ [' ']) (by simp)
  have hmem : c ∈ unpack word ++ [' '] := htext ▸ List.mem_cons_self
  have hplain := plain_of_mem_unpack hmem
  rw [printName, htext]
  exact (draws_join hplain).append (.of_tame (tame_display text))

theorem tame_attributes {foreground : BitVec 8} {calls : List VgaCall} (h : ∀ c ∈ calls, Tame c) :
    ∀ c ∈ attributes foreground :: calls, Tame c := List.forall_mem_cons.mpr ⟨trivial, h⟩

theorem draws_displayWord (blocks : ℕ → Cell) (i : ℕ) (word : Cell) :
    Draws OnScreen (displayWord blocks i word).1 OnScreen := by
  have hname := tame_display (unpack word ++ [' '])
  have hpayload := tame_printPayload word (blocks (i + 1))
  unfold displayWord
  split
  case h_1 => exact draws_extension word
  case h_7 =>
    split_ifs
    · exact .of_tame (tame_attributes (tame_printNumber word _))
    · exact .of_tame (tame_attributes (tame_printNumber word _))
  case h_9 =>
    split_ifs
    · exact .of_tame (tame_attributes (tame_printNumber word _))
    · exact .of_tame (tame_attributes (tame_printNumber word _))
  case h_13 =>
    refine .of_tame (List.forall_mem_append.mpr ⟨tame_attributes hname, ?_⟩)
    exact tame_attributes hpayload
  case h_14 => exact .of_tame (tame_display ['\n'])
  case h_15 => exact .of_tame (tame_attributes (tame_printNumber word _))
  case h_16 => exact .nil
  all_goals
    first
    | exact .of_tame (tame_attributes hname)
    | exact .of_tame (tame_attributes hpayload)

theorem draws_displayBlock (blocks : ℕ → Cell) (n : Cell) :
    Draws OnScreen ((displayBlock blocks n).flatMap (·.calls)) OnScreen := by
  have hloop : ∀ limit fuel i,
      Draws OnScreen ((displayLoop blocks limit fuel i).flatMap (·.calls)) OnScreen := by
    intro limit fuel
    induction fuel with
    | zero => exact fun i => .nil
    | succ fuel ih =>
      intro i
      rw [displayLoop]
      split_ifs
      · rw [List.flatMap_cons]
        exact (draws_displayWord blocks i _).append (ih _)
      · exact .nil
  exact hloop _ _ _

theorem keeps_dotS (s : Forth) : Keeps s (dotS s) := by
  refine .call_tame s ?_
  simp only [List.forall_mem_append, eraseStack]
  refine ⟨⟨⟨⟨⟨tame_eraseText _ _, ?_⟩, ?_⟩, tame_display _⟩, ?_⟩, tame_display _⟩
  · exact List.forall_mem_cons.mpr ⟨⟨by decide, by decide⟩, by simp [Tame]⟩
  · exact List.forall_mem_cons.mpr ⟨⟨by decide, by decide⟩, by simp [Tame]⟩
  · intro c hc
    obtain ⟨i, -, hc⟩ := List.mem_flatMap.mp hc
    exact tame_display _ c hc

theorem keeps_displayCommandPrompt (s : Forth) : Keeps s (displayCommandPrompt s) := by
  refine Keeps.trans (.call_tame s ?_) (keeps_dotS _)
  refine List.forall_mem_append.mpr ⟨?_, tame_display _⟩
  exact List.forall_mem_cons.mpr ⟨⟨by decide, by decide⟩, tame_attributes nofun⟩

theorem tame_statusBar (n : Cell) : ∀ c ∈ statusBarUpdateBlockNumber n, Tame c := by
  refine List.forall_mem_append.mpr ⟨List.forall_mem_append.mpr ⟨?_, tame_display _⟩, ?_⟩
  · exact List.forall_mem_cons.mpr ⟨⟨by decide, by decide⟩, tame_attributes nofun⟩
  · exact List.forall_mem_cons.mpr ⟨⟨by decide, by decide⟩, by simp [Tame]⟩

theorem draws_clear_displayBlock (blocks : ℕ → Cell) (n : Cell) :
    Draws OnScreen (.clear :: (displayBlock blocks n).flatMap (·.calls)) OnScreen := by
  have hclear : Draws OnScreen [.clear] OnScreen := .of_tame (by simp [Tame])
  exact hclear.cons (draws_displayBlock blocks n)

theorem keeps_showBlock (image : BlockImage) (n : Cell) (s : Forth) :
    Keeps s (showBlock image n s) := by
  have hblock := Keeps.call s (draws_clear_displayBlock image.cells n)
  exact (hblock.trans (keeps_displayCommandPrompt _)).trans (.call_tame _ (tame_statusBar n))

end blocks

section commands

variable {run : Cell → Forth → Outcome Forth} {fuel : ℕ} {s t : Forth}

theorem keeps_loadsLoop (hrun : ∀ n s t, run n s = .done t → Keeps s t) {i j : Cell}
    (h : loadsLoop run j fuel i s = .done t) : Keeps s t := by
  induction fuel generalizing i s with
  | zero => cases h
  | succ fuel ih =>
    rw [loadsLoop] at h
    split_ifs at h
    · obtain ⟨u, hu, hrest⟩ := Outcome.bind_eq_done h
      have hload : Keeps (s.push i).drop u := hrun _ _ _ hu
      exact Keeps.trans hload (ih hrest)
    · cases h
      exact .refl _

theorem keeps_runBuiltin (hrun : ∀ n s t, run n s = .done t → Keeps s t) {b : Builtin}
    (h : runBuiltin b fuel run s = .done t) : Keeps s t := by
  cases b with
  | load =>
    have hload : Keeps s.drop t := hrun _ _ _ h
    exact hload
  | loads =>
    have hloop : Keeps s.drop.drop t := keeps_loadsLoop hrun h
    exact hloop
  | dot =>
    cases h
    exact Keeps.call_tame s.drop (tame_display _)
  | divide =>
    change divide s = .done t at h
    unfold divide at h
    split_ifs at h
    cases h
    exact .of_calls_eq rfl
  | _ =>
    cases h
    exact .of_calls_eq rfl

theorem keeps_dispatchWord (hrun : ∀ n s t, run n s = .done t → Keeps s t) {word : Cell}
    (h : dispatchWord fuel run word s = .done t) : Keeps s t := by
  unfold dispatchWord colorWordAction at h
  split at h
  case h_1 =>
    unfold interpretForthWord at h
    split at h
    next foundWord _ =>
      have hbuiltin : Keeps { s with ip := some foundWord.codeAddress } t :=
        keeps_runBuiltin hrun h
      exact hbuiltin
    next =>
      cases h
      exact .refl s
  all_goals
    cases h
    exact .of_calls_eq rfl

theorem keeps_runBlock (blocks : ℕ → Cell) {n : Cell} (h : runBlock blocks fuel n s = .done t) :
    Keeps s t := by
  induction fuel generalizing n s t with
  | zero => cases h
  | succ fuel ih =>
    refine Outcome.forEach_preserves Keeps.refl (fun _ _ _ => Keeps.trans) ?_ h
    exact fun i s t hi => keeps_dispatchWord (fun n s t hn => ih hn) hi

theorem tame_commandPrompt : ∀ c ∈ commandPrompt, Tame c :=
  List.forall_mem_cons.mpr ⟨⟨by decide, by decide⟩, by simp [Tame]⟩

theorem tame_commandPromptErase : ∀ c ∈ commandPromptErase, Tame c :=
  List.forall_mem_append.mpr ⟨tame_eraseText _ _,
    List.forall_mem_cons.mpr ⟨⟨by decide, by decide⟩, by simp [Tame]⟩⟩

theorem tame_wordNotFound : ∀ c ∈ wordNotFound, Tame c :=
  List.forall_mem_append.mpr ⟨List.forall_mem_cons.mpr ⟨⟨by decide, by decide⟩, by simp [Tame]⟩,
    tame_display _⟩

theorem keeps_dispatchCommand (hrun : ∀ n s t, run n s = .done t → Keeps s t) {packed : Cell}
    (h : dispatchCommand fuel run packed s = .done t) : Keeps s t := by
  obtain ⟨u, hu, ht⟩ := Outcome.bind_eq_done h
  cases ht
  exact ((keeps_dispatchWord hrun hu).trans (keeps_dotS u)).trans (.call_tame _ tame_commandPrompt)

theorem keeps_doCmd (hrun : ∀ n s t, run n s = .done t → Keeps s t) {codeAddress : BitVec 32}
    {word : List Char} (h : doCmd codeAddress fuel run word s = .done t) : Keeps s t := by
  have herase := Keeps.call_tame s tame_commandPromptErase
  unfold doCmd at h
  dsimp only at h
  split_ifs at h with hnumber
  · exact herase.trans (keeps_dispatchCommand hrun h)
  · obtain ⟨packed, -, hpacked⟩ := Outcome.bind_eq_done h
    have hmove : Keeps (s.call commandPromptErase)
        ((s.call commandPromptErase).call [.setPosition 0 18]) :=
      .call_tame _ (List.forall_mem_singleton.mpr ⟨by decide, by decide⟩)
    refine (herase.trans hmove).trans ?_
    split at hpacked
    · cases hpacked
      exact (Keeps.call_tame _ tame_wordNotFound).trans (.call_tame _ tame_commandPrompt)
    · exact keeps_dispatchCommand hrun hpacked

end commands

/-- A key, with the calls of the driver that its handling makes. -/
structure KeyPress where
  scancode : BitVec 8
  calls : List DriverCall

/-- The handling of a key, and what becomes of the screen; a store beside an array may change the
cursor as well. -/
def PressStep (around : Surroundings) (st : Editor × Screen) (key : KeyPress)
    (st' : Editor × Screen) : Prop :=
  KeyStep around st.1 key.scancode st'.1 ∧ (StoresInside around st.1 key.scancode →
    st'.1.forth.calls = st.1.forth.calls ++ key.calls.map (·.call) ∧
      st'.2 = key.calls.foldl Screen.call st.2)

/-- The editor has shown block 0, on a screen in any state. -/
def Started (image : BlockImage) (s : Forth) (st : Editor × Screen) : Prop :=
  st.1 = editor image s ∧ ∃ (before : Screen) (shown : List DriverCall),
    (editor image s).forth.calls = s.calls ++ shown.map (·.call) ∧
      st.2 = shown.foldl Screen.call before

/-- What a key displays is stored in the page, and it leaves the cursor on the screen. -/
def DrawsInside (st : Editor × Screen) (key : KeyPress) (st' : Editor × Screen) : Prop :=
  Along DrawsInPage st.2 (trace Screen.call st.2 key.calls) ∧ OnScreen st'.2

/-- The key stores inside the arrays. A cursor key does not lead over the edge of the screen; a
tabulation is not displayed in column 76, nor an extension in the first column of the last three
lines. -/
structure PressInside (around : Surroundings) (st : Editor × Screen) (key : KeyPress) : Prop where
  stores : StoresInside around st.1 key.scancode
  up : key.scancode = keyUp → 0 < st.2.positionY.toNat
  down : key.scancode = keyDown → st.2.positionY.toNat < vgaLinesMaxIndex
  left : key.scancode = keyLeft → 0 < st.2.positionX.toNat
  right : key.scancode = keyRight → st.2.positionX.toNat < vgaColumnsMaxIndex
  calls : Guarded StaysInside st.2 (trace Screen.call st.2 key.calls)

section keys

variable {around : Surroundings} {behind : List (BitVec 8)} {e e' : Editor} {scancode : BitVec 8}

theorem Handled.keeps (h : Handled around behind e scancode e')
    (hkey : cursorMove scancode = none) :
    Keeps e.forth e'.forth := by
  have hrun : ∀ (fuel : ℕ) (n : Cell) (s t : Forth),
      runBlock around.image.cells fuel n s = .done t → Keeps s t :=
    fun _ _ _ _ => keeps_runBlock around.image.cells
  cases h with
  | escape => exact .refl _
  | base => exact keeps_dotS { e.forth with isHex := !e.forth.isHex }
  | openPrompt => exact .call_tame _ tame_commandPrompt
  | colour foreground taken => exact .call_tame _ (tame_attributes nofun)
  | leavePrompt taken =>
    exact .call_tame _ (List.forall_mem_cons.mpr ⟨⟨by decide, by decide⟩, by simp [Tame]⟩)
  | command mode result => exact keeps_doCmd (hrun _) result
  | space mode => exact .call_tame e.forth (tame_display [' '])
  | move key =>
    rw [hkey] at key
    cases key
  | page target => exact keeps_showBlock around.image _ e.forth
  | stay key target => exact .refl _
  | character ordinary => exact .call_tame e.forth (tame_display [_])

/-- A relative move to a position on the screen. -/
theorem draws_move (x y : BitVec 8) :
    Draws (fun s => (s.positionX + x).toNat ≤ vgaColumnsMaxIndex ∧
      (s.positionY + y).toNat ≤ vgaLinesMaxIndex)
      [.updatePosition x y, .updateCursor] OnScreen := by
  have hmove : Draws (fun s => (s.positionX + x).toNat ≤ vgaColumnsMaxIndex ∧
      (s.positionY + y).toNat ≤ vgaLinesMaxIndex) [.updatePosition x y] OnScreen :=
    .single fun s unknown hs _ => ⟨nofun, hs.1, hs.2⟩
  exact hmove.cons (.of_tame (by simp [Tame]))

/-- A cursor key that does not lead over the edge. -/
theorem PressInside.move {s : Screen} {key : KeyPress} (h : PressInside around (e, s) key)
    (hs : OnScreen s) {x y : BitVec 8} (hkey : cursorMove key.scancode = some (x, y)) :
    (s.positionX + x).toNat ≤ vgaColumnsMaxIndex ∧ (s.positionY + y).toNat ≤ vgaLinesMaxIndex := by
  have hx := hs.column
  have hy := hs.line
  have hup := h.up
  have hdown := h.down
  have hleft := h.left
  have hright := h.right
  unfold vgaColumnsMaxIndex at *
  unfold vgaLinesMaxIndex at *
  unfold cursorMove at hkey
  split_ifs at hkey with hk hk hk hk
  all_goals
    cases hkey
    dsimp only at hup hdown hleft hright
  · have := hup hk
    bv_omega
  · have := hdown hk
    bv_omega
  · have := hleft hk
    bv_omega
  · have := hright hk
    bv_omega

theorem PressStep.inside {st st' : Editor × Screen} {key : KeyPress}
    (h : PressStep around st key st') (hs : OnScreen st.2) (hkey : PressInside around st key) :
    DrawsInside st key st' := by
  obtain ⟨hstep, hdriver⟩ := h
  obtain ⟨behind, hhandled⟩ := hstep.handled hkey.stores
  obtain ⟨hcalls, hscreen⟩ := hdriver hkey.stores
  obtain ⟨calls, P, happ, hdraws, hP⟩ : ∃ calls P, st'.1.forth.calls = st.1.forth.calls ++ calls ∧
      Draws P calls OnScreen ∧ P st.2 := by
    cases hmove : cursorMove key.scancode with
    | none =>
      obtain ⟨calls, happ, hdraws⟩ := hhandled.keeps hmove
      exact ⟨calls, OnScreen, happ, hdraws, hs⟩
    | some position =>
      obtain ⟨x, y⟩ := position
      refine ⟨_, _, ?_, draws_move x y, hkey.move hs hmove⟩
      rw [hhandled.eq_moveCursor hmove]
      rfl
  have heq := List.append_cancel_left (hcalls.symm.trans happ)
  obtain ⟨hin, hend⟩ := hdraws key.calls heq st.2 hP hkey.calls
  exact ⟨hin, hscreen ▸ hend⟩

/-- The last thing that the editor does before it waits for a key is to set the cursor. -/
theorem editor_calls (image : BlockImage) (s : Forth) :
    ∃ calls, (editor image s).forth.calls =
      s.calls ++ (calls ++ [.setPosition 0 0, .updateCursor]) := by
  have hclear : Keeps s (s.call [.clear]) := .call_tame s (by simp [Tame])
  have hshown := hclear.trans (.call _ (draws_clear_displayBlock image.cells 0))
  obtain ⟨calls, hprompt, -⟩ := hshown.trans (keeps_displayCommandPrompt _)
  refine ⟨calls ++ ([.setPosition 65 23, attributes fgBrightGreen] ++
    display ("Block: ".toList ++ itoa 0 10 ++ ['\n'])), ?_⟩
  change (displayCommandPrompt _).calls ++ statusBarUpdateBlockNumber 0 = _
  rw [hprompt, statusBarUpdateBlockNumber]
  simp only [List.append_assoc]

/-- A cursor key, with the calls that it makes. -/
def cursorPress (scancode x y : BitVec 8) : KeyPress :=
  ⟨scancode, [⟨.updatePosition x y, 0⟩, ⟨.updateCursor, 0⟩]⟩

/-- The editor and its screen after a relative move. -/
def moved (x y : BitVec 8) (st : Editor × Screen) : Editor × Screen :=
  (moveCursor x y { st.1 with escape := false }, (st.2.vgaUpdatePosition x y).vgaUpdateCursor)

theorem pressStep_move (around : Surroundings) (st : Editor × Screen) {x y : BitVec 8}
    (hkey : cursorMove scancode = some (x, y)) :
    PressStep around st (cursorPress scancode x y) (moved x y st) :=
  ⟨fun _ => ⟨[], 0, handleInput_move hkey [] 0⟩, fun _ => ⟨rfl, rfl⟩⟩

theorem Started.position {image : BlockImage} {s : Forth} {st : Editor × Screen}
    (h : Started image s st) : st.2.positionX = 0 ∧ st.2.positionY = 0 := by
  obtain ⟨-, before, shown, hcalls, hscreen⟩ := h
  obtain ⟨calls, hend⟩ := editor_calls image s
  have hshown := List.append_cancel_left (hcalls.symm.trans hend)
  obtain ⟨cs, last, rfl, -, hlast⟩ := List.map_eq_append_iff.mp hshown
  obtain ⟨c, rest, rfl, hc, hrest⟩ := List.map_eq_cons_iff.mp hlast
  obtain ⟨c', rfl, hc'⟩ := List.map_eq_singleton_iff.mp hrest
  rw [hscreen, List.foldl_append, List.foldl_cons, List.foldl_cons, List.foldl_nil]
  obtain ⟨call, unknown⟩ := c
  obtain ⟨call', unknown'⟩ := c'
  subst hc hc'
  exact ⟨rfl, rfl⟩

end keys

/-- In a run whose keys all stay inside, everything that is displayed is stored in the page, and
every key leaves the cursor on the screen. -/
theorem editor_draws_inside (around : Surroundings) (s : Forth) (start : Editor × Screen)
    (hstart : Started around.image s start) (keys : List (KeyPress × Editor × Screen))
    (hrun : Path (PressStep around) start keys) (hkeys : Guarded (PressInside around) start keys) :
    Along DrawsInside start keys := by
  obtain ⟨hx, hy⟩ := hstart.position
  have honscreen : OnScreen start.2 := by
    refine ⟨?_, ?_⟩
    · rw [hx]
      exact Nat.zero_le _
    · rw [hy]
      exact Nat.zero_le _
  refine hrun.along_of_guarded (I := fun st => OnScreen st.2) ?_ honscreen hkeys
  intro st key st' hs hg hstep
  have hinside := hstep.inside hs hg
  exact ⟨hinside.2, hinside⟩

section ConcreteKeys

/-- The editor and the screen after the calls that show block 0, with zeros for what is read
outside a table. -/
def startOf (image : BlockImage) : Editor × Screen :=
  (editor image colorforthInitialize,
    ((editor image colorforthInitialize).forth.calls.map fun call => ⟨call, 0⟩).foldl Screen.call
      zeroedScreen)

theorem started_startOf (image : BlockImage) :
    Started image colorforthInitialize (startOf image) := by
  refine ⟨rfl, zeroedScreen, (editor image colorforthInitialize).forth.calls.map fun call =>
    ⟨call, 0⟩, ?_, by rw [startOf]⟩
  rw [List.map_map, Function.comp_def, List.map_id']
  exact (List.nil_append _).symm

def shownEmptyBlock : Editor × Screen := startOf emptyBlock.image

theorem started_shownEmptyBlock : Started emptyBlock.image colorforthInitialize shownEmptyBlock :=
  started_startOf emptyBlock.image

theorem path_up : Path (PressStep emptyBlock) shownEmptyBlock
    [(cursorPress keyUp 0 (-1), moved 0 (-1) shownEmptyBlock)] :=
  .cons (pressStep_move emptyBlock _ rfl) (.nil _)

/-- The key up in the first line takes the cursor to line 255. -/
theorem up_leaves_screen : ¬ ∀ (around : Surroundings) (s : Forth) (start : Editor × Screen),
    Started around.image s start → ∀ keys : List (KeyPress × Editor × Screen),
      Path (PressStep around) start keys → Along DrawsInside start keys := by
  intro h
  obtain ⟨⟨-, honscreen⟩, -⟩ :=
    h emptyBlock colorforthInitialize _ started_shownEmptyBlock _ path_up
  have hline := honscreen.line
  change (shownEmptyBlock.2.positionY + (-1)).toNat ≤ 24 at hline
  rw [started_shownEmptyBlock.position.2] at hline
  exact absurd hline (by decide)

theorem editor_draws_inside_down :
    let keys := [(cursorPress keyDown 0 1, moved 0 1 shownEmptyBlock)]
    Path (PressStep emptyBlock) shownEmptyBlock keys ∧
      Guarded (PressInside emptyBlock) shownEmptyBlock keys ∧
        Along DrawsInside shownEmptyBlock keys := by
  have hpath : Path (PressStep emptyBlock) shownEmptyBlock
      [(cursorPress keyDown 0 1, moved 0 1 shownEmptyBlock)] :=
    .cons (pressStep_move emptyBlock _ rfl) (.nil _)
  have hinside : PressInside emptyBlock shownEmptyBlock (cursorPress keyDown 0 1) := by
    refine ⟨storesInside_of_special (show keyDown ∈ specialKeys by decide) (by decide), nofun,
      fun _ => ?_, nofun, nofun, ⟨nofun, nofun⟩, ⟨nofun, nofun⟩, trivial⟩
    rw [started_shownEmptyBlock.position.2]
    decide
  exact ⟨hpath, ⟨hinside, trivial⟩,
    editor_draws_inside emptyBlock _ _ started_shownEmptyBlock _ hpath ⟨hinside, trivial⟩⟩

end ConcreteKeys

end Einherjar.Colorforth
