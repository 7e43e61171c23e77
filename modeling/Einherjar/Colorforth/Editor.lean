import Einherjar.Colorforth.BlockWalk
import Einherjar.Colorforth.Watched

/-! The editor: its variables, what it shows of a block, and the keys. -/
namespace Einherjar.Colorforth
open Einherjar.Io Einherjar.Lib

/-! The keyboard's table. Only the first of its four columns is read. -/

def keyEscape : BitVec 8 := 0x01
def keySpace : BitVec 8 := 0x39
def keyF1 : BitVec 8 := 0x3b
def keyF2 : BitVec 8 := 0x3c
def keyUp : BitVec 8 := 0x48
def keyDown : BitVec 8 := 0x50
def keyLeft : BitVec 8 := 0x4b
def keyRight : BitVec 8 := 0x4d
def keyPageUp : BitVec 8 := 0x49
def keyPageDown : BitVec 8 := 0x51

/-- The characters of a string as bytes. -/
def asciiBytes (text : List Char) : List (BitVec 8) := text.map fun c => BitVec.ofNat 8 c.toNat

def keymap : List (BitVec 8) :=
  [0x0, 0x1B] ++ asciiBytes ['1', '2', '3', '4', '5', '6', '7', '8', '9', '0', '-', '='] ++
    [0x08, 0x09] ++ asciiBytes ['q', 'w', 'e', 'r', 't', 'y', 'u', 'i', 'o', 'p', '[', ']'] ++
    [0x0A, 0xFF] ++ asciiBytes ['a', 's', 'd', 'f', 'g', 'h', 'j', 'k', 'l', ';'] ++
    [0x27, 0x60, 0xFF, 0x5C] ++ asciiBytes ['z', 'x', 'c', 'v', 'b', 'n', 'm'] ++
    [0x2C, 0x2E, 0x2F] ++ List.replicate 44 0xFF

/-- What the editor is given and does not change: the blocks, the address of the code table and
the memory behind the keyboard's table. -/
structure Surroundings where
  image : BlockImage
  codeAddress : BitVec 32
  behindKeymap : BitVec 8 → BitVec 8

/-- An image, with the code table at some address. -/
def surroundingsOf (image : BlockImage) : Surroundings := ⟨image, 0x104000, fun _ => 0xFF⟩

def emptyBlock : Surroundings := surroundingsOf (oneBlock fun _ => 0)

def keyboardGetKeymap (around : Surroundings) (i : BitVec 8) : BitVec 8 :=
  keymap.getD i.toNat (around.behindKeymap i)

/-- `static char word[32]`. -/
structure WordBuffer where
  bytes : List (BitVec 8)
  length_eq : bytes.length = 32

namespace WordBuffer

def zeros : WordBuffer := ⟨List.replicate 32 0, by decide⟩

/-- `word[i] = byte`. A store behind the array changes other memory. -/
def set (w : WordBuffer) (i : BitVec 8) (byte : BitVec 8) : WordBuffer :=
  ⟨w.bytes.set i.toNat byte, by rw [List.length_set, w.length_eq]⟩

/-- The string that starts at `word[0]`. `behind` is what follows the array up to a NUL. -/
def string (w : WordBuffer) (behind : List (BitVec 8)) : List (BitVec 8) :=
  if 0 ∈ w.bytes then w.bytes.takeWhile (· ≠ 0) else w.bytes ++ behind

end WordBuffer

/-- The variables of the editor and those of the interpreter; `escape`, `i` and `word` are static
in `handle_input`. -/
structure Editor where
  forth : Forth
  nbBlock : Cell
  isCommand : Bool
  escape : Bool
  i : BitVec 8
  word : WordBuffer

def charOf (byte : BitVec 8) : Char := Char.ofNat byte.toNat

namespace Editor

def call (e : Editor) (calls : List VgaCall) : Editor := { e with forth := e.forth.call calls }

end Editor

/-! What is shown of a block. -/

def displayCommandPrompt (s : Forth) : Forth :=
  dotS (s.call ([.setPosition 0 21, attributes fgBrightGreen] ++ display "> ".toList))

def statusBarUpdateBlockNumber (n : Cell) : List VgaCall :=
  [.setPosition 65 23, attributes fgBrightGreen] ++
    display ("Block: ".toList ++ itoa n 10 ++ ['\n']) ++ [.setPosition 0 0, .updateCursor]

/-- `display_block`, with the calls before and after the walk over the cells. -/
def showBlock (image : BlockImage) (n : Cell) (s : Forth) : Forth :=
  let s := s.call (.clear :: (displayBlock image.cells n).flatMap (·.calls))
  (displayCommandPrompt s).call (statusBarUpdateBlockNumber n)

/-- `editor` up to its endless loop. -/
def editor (image : BlockImage) (s : Forth) : Editor where
  forth := showBlock image 0 (s.call [.clear])
  nbBlock := 0
  isCommand := false
  escape := false
  i := 0
  word := .zeros

/-! The keys. -/

def fgCyan : BitVec 8 := 3

/-- The switch after an escape: `none` when the key is handled as if there had been no escape. -/
def escapeSwitch (c : BitVec 8) (e : Editor) : Option Editor :=
  if charOf c = 'r' then some (e.call [attributes fgRed])
  else if charOf c = 'y' then some (e.call [attributes fgYellow])
  else if charOf c = 'g' then some (e.call [attributes fgGreen])
  else if charOf c = 'c' then some (e.call [attributes fgCyan])
  else if charOf c = 'm' then some (e.call [attributes fgMagenta])
  else if charOf c = 'w' then some (e.call [attributes fgBrightWhite])
  else if charOf c = 'e' then
    some ({ e with isCommand := false }.call [.setPosition 0 0, .updateCursor])
  else none

/-- `do_cmd(word)` of what is in the buffer. -/
def doWord (around : Surroundings) (behind : List (BitVec 8)) (fuel : ℕ) (e : Editor) :
    Outcome Editor :=
  (doCmd around.codeAddress fuel (runBlock around.image.cells fuel)
    ((e.word.string behind).map charOf) e.forth).bind fun s => .done { e with forth := s }

def moveCursor (x y : BitVec 8) (e : Editor) : Editor :=
  e.call [.updatePosition x y, .updateCursor]

/-- `display_block(nb_block)` after a change of the number. -/
def turnPage (around : Surroundings) (n : Cell) (e : Editor) : Editor :=
  { e with nbBlock := n, forth := showBlock around.image n e.forth }

/-- A character of a word: it is displayed and stored. -/
def typeCharacter (c : BitVec 8) (e : Editor) : Editor :=
  { e.call [.displayCharacter (charOf c)] with word := e.word.set e.i c, i := e.i + 1 }

def keySwitch (around : Surroundings) (behind : List (BitVec 8)) (fuel : ℕ) (e : Editor)
    (scancode : BitVec 8) : Outcome Editor :=
  if scancode = keySpace then
    let e := { e with word := e.word.set e.i 0, i := 0 }
    if e.isCommand then doWord around behind fuel e else .done (e.call [.displayCharacter ' '])
  else if scancode = keyUp then .done (moveCursor 0 (-1) e)
  else if scancode = keyDown then .done (moveCursor 0 1 e)
  else if scancode = keyLeft then .done (moveCursor (-1) 0 e)
  else if scancode = keyRight then .done (moveCursor 1 0 e)
  else if scancode = keyPageUp then
    if e.nbBlock - 1 = -1 then .done e else .done (turnPage around (e.nbBlock - 1) e)
  else if scancode = keyPageDown then
    if (BitVec.ofNat 32 around.image.totalBlocks - 1).slt (e.nbBlock + 1) then .done e
    else .done (turnPage around (e.nbBlock + 1) e)
  else .done (typeCharacter (keyboardGetKeymap around scancode) e)

def handleInput (around : Surroundings) (behind : List (BitVec 8)) (fuel : ℕ) (e : Editor)
    (scancode : BitVec 8) : Outcome Editor :=
  if scancode = keyEscape then .done { e with escape := true }
  else if scancode = keyF1 then
    .done { e with forth := dotS { e.forth with isHex := !e.forth.isHex } }
  else if scancode = keyF2 then .done ({ e with isCommand := true }.call commandPrompt)
  else if e.escape then
    let e := { e with escape := false }
    match escapeSwitch (keyboardGetKeymap around scancode) e with
    | some e => .done e
    | none => keySwitch around behind fuel e scancode
  else keySwitch around behind fuel e scancode

/-! What the handling of a key can do. -/

/-- The keys with a case of their own in one of the switches over scancodes. -/
def specialKeys : List (BitVec 8) :=
  [keyEscape, keyF1, keyF2, keySpace, keyUp, keyDown, keyLeft, keyRight, keyPageUp, keyPageDown]

/-- After an escape, the key is one of the letters that have a case. -/
def TakenByEscape (around : Surroundings) (e : Editor) (scancode : BitVec 8) : Prop :=
  e.escape = true ∧ (escapeSwitch (keyboardGetKeymap around scancode) e).isSome = true

/-- The key reaches the default branch. -/
def Ordinary (around : Surroundings) (e : Editor) (scancode : BitVec 8) : Prop :=
  scancode ∉ specialKeys ∧ ¬ TakenByEscape around e scancode

instance (around : Surroundings) (e : Editor) (scancode : BitVec 8) :
    Decidable (Ordinary around e scancode) := by
  unfold Ordinary TakenByEscape
  infer_instance

/-- The relative move of a cursor key. -/
def cursorMove (scancode : BitVec 8) : Option (BitVec 8 × BitVec 8) :=
  if scancode = keyUp then some (0, -1)
  else if scancode = keyDown then some (0, 1)
  else if scancode = keyLeft then some (-1, 0)
  else if scancode = keyRight then some (1, 0)
  else none

/-- The block that a page key turns to. -/
def pageTarget (around : Surroundings) (e : Editor) (scancode : BitVec 8) : Option Cell :=
  if scancode = keyPageUp then if e.nbBlock - 1 = -1 then none else some (e.nbBlock - 1)
  else if scancode = keyPageDown then
    if (BitVec.ofNat 32 around.image.totalBlocks - 1).slt (e.nbBlock + 1) then none
    else some (e.nbBlock + 1)
  else none

/-- The editor with the buffer closed by a NUL. -/
def Editor.closeWord (e : Editor) : Editor :=
  { e with escape := false, word := e.word.set e.i 0, i := 0 }

/-- The effects of the keys, one for each branch. -/
inductive Handled (around : Surroundings) (behind : List (BitVec 8)) (e : Editor) :
    BitVec 8 → Editor → Prop
  | escape : Handled around behind e keyEscape { e with escape := true }
  | base :
    Handled around behind e keyF1
      { e with forth := dotS { e.forth with isHex := !e.forth.isHex } }
  | openPrompt : Handled around behind e keyF2 ({ e with isCommand := true }.call commandPrompt)
  | colour {scancode : BitVec 8} (foreground : BitVec 8) (taken : TakenByEscape around e scancode) :
    Handled around behind e scancode ({ e with escape := false }.call [attributes foreground])
  | leavePrompt {scancode : BitVec 8} (taken : TakenByEscape around e scancode) :
    Handled around behind e scancode
      ({ e with escape := false, isCommand := false }.call [.setPosition 0 0, .updateCursor])
  | command {fuel : ℕ} {s : Forth} (mode : e.isCommand = true)
      (result : doCmd around.codeAddress fuel (runBlock around.image.cells fuel)
        ((e.closeWord.word.string behind).map charOf) e.forth = .done s) :
    Handled around behind e keySpace { e.closeWord with forth := s }
  | space (mode : e.isCommand = false) :
    Handled around behind e keySpace (e.closeWord.call [.displayCharacter ' '])
  | move {scancode x y : BitVec 8} (key : cursorMove scancode = some (x, y)) :
    Handled around behind e scancode (moveCursor x y { e with escape := false })
  | page {scancode : BitVec 8} {n : Cell} (target : pageTarget around e scancode = some n) :
    Handled around behind e scancode (turnPage around n { e with escape := false })
  | stay {scancode : BitVec 8} (key : scancode = keyPageUp ∨ scancode = keyPageDown)
      (target : pageTarget around e scancode = none) :
    Handled around behind e scancode { e with escape := false }
  | character {scancode : BitVec 8} (ordinary : Ordinary around e scancode) :
    Handled around behind e scancode
      (typeCharacter (keyboardGetKeymap around scancode) { e with escape := false })

/-- The command that the key executes, if it executes one, stays on the stack, for as long as it
runs. -/
def CommandOnStack (around : Surroundings) (e : Editor) (scancode : BitVec 8) : Prop :=
  scancode = keySpace → e.isCommand = true → ∀ behind fuel,
    (Watched.doCmd around.codeAddress fuel (Watched.runBlock around.image.cells fuel)
      ((e.closeWord.word.string behind).map charOf) e.forth).All Event.OnStack

/-- The key stores in `word` and in `stack` only where these have elements. -/
structure StoresInside (around : Surroundings) (e : Editor) (scancode : BitVec 8) : Prop where
  word : scancode = keySpace ∨ Ordinary around e scancode → e.i.toNat < 32
  stack : CommandOnStack around e scancode

/-- The handling of a key returns; what a string that fills the buffer goes on with, and the
time that a command takes, are left open. The variables of the editor, of the driver and of the
interpreter lie around `stack` and `word`: after a store beside one of these, any state may
follow. -/
def KeyStep (around : Surroundings) (e : Editor) (scancode : BitVec 8) (e' : Editor) : Prop :=
  StoresInside around e scancode →
    ∃ behind fuel, handleInput around behind fuel e scancode = .done e'

section inversion

variable {around : Surroundings} {behind : List (BitVec 8)} {fuel : ℕ} {e e' : Editor}
  {scancode : BitVec 8}

/-- The switch after an escape sets a colour or leaves the prompt. -/
theorem escapeSwitch_eq_some {c : BitVec 8} (h : escapeSwitch c e = some e') :
    (∃ foreground, e' = e.call [attributes foreground]) ∨
      e' = { e with isCommand := false }.call [.setPosition 0 0, .updateCursor] := by
  unfold escapeSwitch at h
  split_ifs at h
  all_goals
    obtain rfl := (Option.some.inj h).symm
    first
    | exact .inl ⟨_, rfl⟩
    | exact .inr rfl

/-- Whether the key has a case after an escape depends on its character only. -/
theorem escapeSwitch_isSome {c : BitVec 8} (e e' : Editor) :
    (escapeSwitch c e).isSome = (escapeSwitch c e').isSome := by
  unfold escapeSwitch
  split_ifs <;> rfl

theorem keyboardGetKeymap_eq (around : Surroundings) (h : scancode.toNat < keymap.length) :
    keyboardGetKeymap around scancode = keymap.getD scancode.toNat 0 := by
  rw [keyboardGetKeymap, List.getD_eq_getElem _ _ h, List.getD_eq_getElem _ _ h]

/-- The keys with a case of their own have no letter. -/
theorem not_takenByEscape (hkey : scancode ∈ specialKeys) : ¬ TakenByEscape around e scancode := by
  have hall : ∀ k ∈ specialKeys, k.toNat < keymap.length ∧
      (keymap.getD k.toNat 0 = 0x1B ∨ keymap.getD k.toNat 0 = 0xFF) := by decide +kernel
  obtain ⟨hlt, hc⟩ := hall scancode hkey
  rintro ⟨-, hsome⟩
  rw [keyboardGetKeymap_eq around hlt] at hsome
  rcases hc with hc | hc <;> rw [hc] at hsome <;> cases hsome

/-- The keys of the second switch are handled there, with or without an escape before them. -/
theorem handleInput_eq_keySwitch (hkey : scancode ∈ specialKeys)
    (hne : scancode ≠ keyEscape ∧ scancode ≠ keyF1 ∧ scancode ≠ keyF2) :
    handleInput around behind fuel e scancode =
      keySwitch around behind fuel { e with escape := false } scancode := by
  rw [handleInput, if_neg hne.1, if_neg hne.2.1, if_neg hne.2.2]
  by_cases hescape : e.escape = true
  · have hnone : escapeSwitch (keyboardGetKeymap around scancode) { e with escape := false } =
        none := by
      rw [← Option.not_isSome_iff_eq_none, escapeSwitch_isSome _ e]
      exact fun hsome => not_takenByEscape hkey ⟨hescape, hsome⟩
    rw [if_pos hescape]
    simp only [hnone]
  · rw [if_neg hescape, ← Bool.eq_false_iff.mpr hescape]

theorem TakenByEscape.not_special (h : TakenByEscape around e scancode) :
    scancode ∉ specialKeys := fun hkey => not_takenByEscape hkey h

theorem pageTarget_eq_none (h : scancode ≠ keyPageUp ∧ scancode ≠ keyPageDown) :
    pageTarget around e scancode = none := (if_neg h.1).trans (if_neg h.2)

theorem pageTarget_of_not_special (h : scancode ∉ specialKeys) :
    pageTarget around e scancode = none := by
  refine pageTarget_eq_none ⟨?_, ?_⟩ <;> rintro rfl <;> exact h (by decide)

theorem pageTarget_of_cursorMove {move : BitVec 8 × BitVec 8}
    (h : cursorMove scancode = some move) : pageTarget around e scancode = none := by
  refine pageTarget_eq_none ⟨?_, ?_⟩ <;> rintro rfl <;> cases h

theorem cursorMove_special {move : BitVec 8 × BitVec 8} (h : cursorMove scancode = some move) :
    scancode ∈ specialKeys ∧ scancode ≠ keyF2 ∧ scancode ≠ keySpace := by
  unfold cursorMove at h
  split_ifs at h with hup hdown hleft hright
  all_goals
    subst scancode
    decide

theorem pageTarget_special {n : Cell} (h : pageTarget around e scancode = some n) :
    scancode = keyPageUp ∨ scancode = keyPageDown := by
  by_contra hne
  rw [pageTarget_eq_none (not_or.mp hne)] at h
  cases h

/-- The second switch, in a state without a pending escape. -/
theorem handled_of_keySwitch (hspecial : scancode ≠ keyEscape ∧ scancode ≠ keyF1 ∧ scancode ≠ keyF2)
    (htaken : ¬ TakenByEscape around e scancode)
    (h : keySwitch around behind fuel { e with escape := false } scancode = .done e') :
    Handled around behind e scancode e' := by
  unfold keySwitch at h
  dsimp only at h
  split_ifs at h with hspace hmode hup hdown hleft hright hpageUp hfirst hpageDown hlast
  · subst hspace
    obtain ⟨s, hs, he⟩ := Outcome.bind_eq_done h
    cases he
    exact .command hmode hs
  · subst hspace
    cases h
    exact .space (Bool.eq_false_iff.mpr hmode)
  · cases h
    exact .move (if_pos hup)
  · cases h
    exact .move ((if_neg hup).trans (if_pos hdown))
  · cases h
    exact .move ((if_neg hup).trans ((if_neg hdown).trans (if_pos hleft)))
  · cases h
    exact .move ((if_neg hup).trans ((if_neg hdown).trans ((if_neg hleft).trans (if_pos hright))))
  · cases h
    exact .stay (.inl hpageUp) ((if_pos hpageUp).trans (if_pos hfirst))
  · cases h
    exact .page ((if_pos hpageUp).trans (if_neg hfirst))
  · cases h
    exact .stay (.inr hpageDown) ((if_neg hpageUp).trans ((if_pos hpageDown).trans (if_pos hlast)))
  · cases h
    exact .page ((if_neg hpageUp).trans ((if_pos hpageDown).trans (if_neg hlast)))
  · cases h
    refine .character ⟨?_, htaken⟩
    simp only [specialKeys, List.mem_cons, List.not_mem_nil, or_false, not_or]
    exact ⟨hspecial.1, hspecial.2.1, hspecial.2.2, hspace, hup, hdown, hleft, hright, hpageUp,
      hpageDown⟩

theorem handled_of_handleInput (h : handleInput around behind fuel e scancode = .done e') :
    Handled around behind e scancode e' := by
  unfold handleInput at h
  split_ifs at h with hescape hbase hprompt hpending
  · subst hescape
    cases h
    exact .escape
  · subst hbase
    cases h
    exact .base
  · subst hprompt
    cases h
    exact .openPrompt
  · cases htaken : escapeSwitch (keyboardGetKeymap around scancode) { e with escape := false } with
    | none =>
      simp only [htaken] at h
      refine handled_of_keySwitch ⟨hescape, hbase, hprompt⟩ ?_ h
      rintro ⟨-, hsome⟩
      rw [escapeSwitch_isSome e { e with escape := false }, htaken] at hsome
      cases hsome
    | some next =>
      simp only [htaken] at h
      cases h
      have hsome : TakenByEscape around e scancode := by
        refine ⟨hpending, ?_⟩
        rw [escapeSwitch_isSome e { e with escape := false }, htaken]
        rfl
      rcases escapeSwitch_eq_some htaken with ⟨foreground, rfl⟩ | rfl
      · exact .colour foreground hsome
      · exact .leavePrompt hsome
  · have hclear : e = { e with escape := false } := by
      rw [← Bool.eq_false_iff.mpr hpending]
    rw [hclear] at h
    exact handled_of_keySwitch ⟨hescape, hbase, hprompt⟩ (fun htaken => hpending htaken.1) h

theorem KeyStep.handled (h : KeyStep around e scancode e')
    (hstores : StoresInside around e scancode) : ∃ behind, Handled around behind e scancode e' :=
  let ⟨behind, _, hdone⟩ := h hstores
  ⟨behind, handled_of_handleInput hdone⟩

theorem commandOnStack_of_ne (h : scancode ≠ keySpace) : CommandOnStack around e scancode :=
  fun hspace => absurd hspace h

/-- A key that executes no command and types nothing stores in neither array. -/
theorem storesInside_of_special (hkey : scancode ∈ specialKeys) (hspace : scancode ≠ keySpace) :
    StoresInside around e scancode where
  word h := absurd hkey (h.resolve_left hspace).1
  stack := commandOnStack_of_ne hspace

theorem handleInput_move {x y : BitVec 8} (hkey : cursorMove scancode = some (x, y))
    (behind : List (BitVec 8)) (fuel : ℕ) : handleInput around behind fuel e scancode =
      .done (moveCursor x y { e with escape := false }) := by
  unfold cursorMove at hkey
  split_ifs at hkey with hup hdown hleft hright
  all_goals
    subst scancode
    cases hkey
    rw [handleInput_eq_keySwitch (by decide) (by decide)]
    rfl

theorem Handled.eq_moveCursor {x y : BitVec 8} (h : Handled around behind e scancode e')
    (hkey : cursorMove scancode = some (x, y)) :
    e' = moveCursor x y { e with escape := false } := by
  obtain ⟨hspecial, -⟩ := cursorMove_special hkey
  cases h with
  | move key =>
    rw [key] at hkey
    cases hkey
    rfl
  | page target =>
    rw [pageTarget_of_cursorMove hkey] at target
    cases target
  | stay key target => rcases key with rfl | rfl <;> cases hkey
  | colour foreground taken => exact absurd hspecial taken.not_special
  | leavePrompt taken => exact absurd hspecial taken.not_special
  | character ordinary => exact absurd hspecial ordinary.1
  | _ => cases hkey

end inversion

end Einherjar.Colorforth
