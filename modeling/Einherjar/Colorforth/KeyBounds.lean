import Einherjar.Colorforth.TypedCommands

/-! The accesses of `handle_input` to the keyboard's table and to `word`, and on which sequences of
keys all of them stay inside. -/
namespace Einherjar.Colorforth
open Einherjar.Io Einherjar.Lib

/-- A read of `keymap[i*4]` for a scancode, or a write to `word[i]`. -/
inductive KeyAccess where
  | keymap (i : BitVec 8)
  | word (i : BitVec 8)

/-- The four columns of the keyboard's table, and the 32 bytes of the buffer. -/
def KeyAccess.InBounds : KeyAccess → Prop
  | .keymap i => i.toNat * 4 < Colorforth.keymap.length * 4
  | .word i => i.toNat < 32

/-- The accesses in the second switch of `handle_input`. -/
def switchAccesses (e : Editor) (scancode : BitVec 8) : List KeyAccess :=
  if scancode = keySpace then [.word e.i]
  else if scancode = keyUp ∨ scancode = keyDown ∨ scancode = keyLeft ∨ scancode = keyRight ∨
      scancode = keyPageUp ∨ scancode = keyPageDown then []
  else [.keymap scancode, .keymap scancode, .word e.i]

/-- The accesses of `handle_input(scancode)`, in their order. -/
def inputAccesses (around : Surroundings) (e : Editor) (scancode : BitVec 8) : List KeyAccess :=
  if scancode = keyEscape then []
  else if scancode = keyF1 then []
  else if scancode = keyF2 then []
  else if e.escape then
    .keymap scancode ::
      if (escapeSwitch (keyboardGetKeymap around scancode) e).isSome then []
      else switchAccesses e scancode
  else switchAccesses e scancode

/-- Every access that the key makes is inside its array. -/
def AccessesInside (around : Surroundings) (e : Editor) (scancode : BitVec 8) : Prop :=
  ∀ a ∈ inputAccesses around e scancode, a.InBounds

/-- The key is in the keyboard's table, and if it ends a word or adds a character to it, fewer than
32 characters have been typed since the previous space. -/
def KeyFits (around : Surroundings) (st : Editor × Typed) (scancode : BitVec 8) : Prop :=
  scancode.toNat < 0x62 ∧
    (scancode = keySpace ∨ Ordinary around st.1 scancode → st.2.pending.length < 32)

section accesses

variable {around : Surroundings} {e e' : Editor} {typed : Typed} {scancode : BitVec 8}

theorem length_keymap : keymap.length = 0x62 := by decide

/-- The keys outside the table have no case of their own. -/
theorem not_special_of_ge (h : 0x62 ≤ scancode.toNat) : scancode ∉ specialKeys := by
  have hall : ∀ k ∈ specialKeys, k.toNat < 0x62 := by decide
  intro hkey
  exact absurd (hall scancode hkey) (Nat.not_lt.mpr h)

theorem special_lt (h : scancode ∈ specialKeys) : scancode.toNat < 0x62 := by
  by_contra hge
  exact not_special_of_ge (Nat.le_of_not_lt hge) h

theorem inBounds_keymap_iff {i : BitVec 8} : (KeyAccess.keymap i).InBounds ↔ i.toNat < 0x62 := by
  unfold KeyAccess.InBounds
  rw [length_keymap]
  omega

/-- The cursor keys and the page keys. -/
theorem switchAccesses_cursor (hkey : scancode ∈ specialKeys)
    (hne : scancode ≠ keyEscape ∧ scancode ≠ keyF1 ∧ scancode ≠ keyF2)
    (hspace : scancode ≠ keySpace) : switchAccesses e scancode = [] := by
  rw [switchAccesses, if_neg hspace, if_pos]
  simpa [specialKeys, hne.1, hne.2.1, hne.2.2, hspace] using hkey

theorem inputAccesses_first
    (hne : ¬ (scancode ≠ keyEscape ∧ scancode ≠ keyF1 ∧ scancode ≠ keyF2)) :
    inputAccesses around e scancode = [] := by
  unfold inputAccesses
  split_ifs with hescape hbase hprompt
  · rfl
  · rfl
  · rfl
  all_goals exact absurd ⟨hescape, hbase, hprompt⟩ hne

/-- The accesses of a key that has a case in the second switch. -/
theorem inputAccesses_special (hkey : scancode ∈ specialKeys)
    (hne : scancode ≠ keyEscape ∧ scancode ≠ keyF1 ∧ scancode ≠ keyF2) :
    inputAccesses around e scancode =
      (if e.escape then [.keymap scancode] else []) ++ switchAccesses e scancode := by
  unfold inputAccesses
  rw [if_neg hne.1, if_neg hne.2.1, if_neg hne.2.2]
  by_cases hescape : e.escape = true
  · have hnone : ¬ (escapeSwitch (keyboardGetKeymap around scancode) e).isSome = true :=
      fun hsome => not_takenByEscape hkey ⟨hescape, hsome⟩
    rw [if_pos hescape, if_pos hescape, if_neg hnone]
    rfl
  · rw [if_neg hescape, if_neg hescape, List.nil_append]

theorem inputAccesses_taken (h : TakenByEscape around e scancode) :
    inputAccesses around e scancode = [.keymap scancode] := by
  have hne : ∀ k ∈ specialKeys, scancode ≠ k := fun k hk he => h.not_special (he ▸ hk)
  unfold inputAccesses
  rw [if_neg (hne _ (by decide)), if_neg (hne _ (by decide)), if_neg (hne _ (by decide)),
    if_pos h.1, if_pos h.2]

theorem inputAccesses_ordinary (h : Ordinary around e scancode) :
    inputAccesses around e scancode = (if e.escape then [.keymap scancode] else []) ++
      [.keymap scancode, .keymap scancode, .word e.i] := by
  have hne : ∀ k ∈ specialKeys, scancode ≠ k := fun k hk he => h.1 (he ▸ hk)
  have hswitch : switchAccesses e scancode =
      [.keymap scancode, .keymap scancode, .word e.i] := by
    unfold switchAccesses
    rw [if_neg (hne _ (by decide)), if_neg]
    rintro (he | he | he | he | he | he) <;> exact hne _ (by decide) he
  unfold inputAccesses
  rw [if_neg (hne _ (by decide)), if_neg (hne _ (by decide)), if_neg (hne _ (by decide)), hswitch]
  by_cases hescape : e.escape = true
  · have hnone : ¬ (escapeSwitch (keyboardGetKeymap around scancode) e).isSome = true :=
      fun hsome => h.2 ⟨hescape, hsome⟩
    rw [if_pos hescape, if_pos hescape, if_neg hnone]
    rfl
  · rw [if_neg hescape, if_neg hescape, List.nil_append]

/-- When the accesses of a key are inside. -/
theorem accessesInside_iff : AccessesInside around e scancode ↔ scancode.toNat < 0x62 ∧
    (scancode = keySpace ∨ Ordinary around e scancode → e.i.toNat < 32) := by
  have hkeymap : (KeyAccess.keymap scancode).InBounds ↔ scancode.toNat < 0x62 := inBounds_keymap_iff
  have hword : (KeyAccess.word e.i).InBounds ↔ e.i.toNat < 32 := Iff.rfl
  unfold AccessesInside
  by_cases hkey : scancode ∈ specialKeys
  · have hlt := special_lt hkey
    have hordinary : ¬ Ordinary around e scancode := fun h => h.1 hkey
    by_cases hne : scancode ≠ keyEscape ∧ scancode ≠ keyF1 ∧ scancode ≠ keyF2
    · rw [inputAccesses_special hkey hne]
      by_cases hspace : scancode = keySpace
      · have hwrites : (scancode = keySpace ∨ Ordinary around e scancode) ↔ True :=
          iff_true_intro (.inl hspace)
        rw [switchAccesses, if_pos hspace, hwrites]
        cases e.escape <;> simp [hkeymap, hword, hlt]
      · rw [switchAccesses_cursor hkey hne hspace]
        cases e.escape <;> simp [hkeymap, hlt, hspace, hordinary]
    · rw [inputAccesses_first hne]
      have hspace : scancode ≠ keySpace := by
        rintro rfl
        exact hne (by decide)
      simp [hlt, hspace, hordinary]
  · have hspace : scancode ≠ keySpace := fun he => hkey (he ▸ by decide)
    by_cases htaken : TakenByEscape around e scancode
    · have hordinary : ¬ Ordinary around e scancode := fun h => h.2 htaken
      rw [inputAccesses_taken htaken]
      simp [hkeymap, hspace, hordinary]
    · have hordinary : Ordinary around e scancode := ⟨hkey, htaken⟩
      rw [inputAccesses_ordinary hordinary]
      cases e.escape <;> simp [hkeymap, hword, hordinary]

end accesses

section runs

variable {around : Surroundings} {st st' : Editor × Typed} {scancode : BitVec 8}

theorem Buffered.accessesInside_iff (h : Buffered st) :
    AccessesInside around st.1 scancode ↔ KeyFits around st scancode := by
  rw [Colorforth.accessesInside_iff, h.index]
  rfl

/-- A key that fits keeps the buffer, if its command stays on the stack. -/
theorem Buffered.next (h : Buffered st) (hfits : KeyFits around st scancode)
    (hstack : CommandOnStack around st.1 scancode) (hstep : TypingStep around st scancode st') :
    Buffered st' := by
  refine hstep.buffered ⟨fun hwrites => ?_, hstack⟩ h
  rw [h.index]
  exact hfits.2 hwrites

end runs

/-- The commands of the run stay on the stack. -/
abbrev CommandsOnStack (around : Surroundings) :
    Editor × Typed → List (BitVec 8 × Editor × Typed) → Prop :=
  Guarded fun st scancode => CommandOnStack around st.1 scancode

/-- In a run of keys whose commands stay on the stack, all accesses stay inside their arrays, up to
those of the key that comes next, if and only if every key is in the keyboard's table and no write
to the buffer comes after 32 characters without a space. -/
theorem keys_stayInside_iff (around : Surroundings) (s : Forth)
    (keys : List (BitVec 8 × Editor × Typed))
    (hrun : Path (TypingStep around) (editor around.image s, .none) keys)
    (hstack : CommandsOnStack around (editor around.image s, .none) keys) (scancode : BitVec 8) :
    (Along (fun st k _ => AccessesInside around st.1 k) (editor around.image s, .none) keys ∧
      AccessesInside around (finalState (editor around.image s, .none) keys).1 scancode) ↔
    Guarded (KeyFits around) (editor around.image s, .none) keys ∧
      KeyFits around (finalState (editor around.image s, .none) keys) scancode := by
  have hstart : Buffered (editor around.image s, .none) := buffered_nil rfl
  have hrun := hrun.and_guarded hstack
  have hiff :
      Along (fun st k _ => AccessesInside around st.1 k) (editor around.image s, .none) keys ↔
        Guarded (KeyFits around) (editor around.image s, .none) keys :=
    hrun.along_iff_guarded (I := Buffered)
      (fun st k st' h hfits hstep =>
        ⟨h.next hfits hstep.1 hstep.2, h.accessesInside_iff.mpr hfits⟩)
      (fun st k st' h _ hinside => h.accessesInside_iff.mp hinside) hstart
  rw [hiff]
  refine and_congr_right fun hfits => ?_
  have hlast : Buffered (finalState (editor around.image s, .none) keys) :=
    finalState_of_forall hstart (hrun.invariant_of_guarded (I := Buffered)
      (fun st k st' h hfits hstep => h.next hfits hstep.1 hstep.2) hstart hfits)
  exact hlast.accessesInside_iff

/-- The letter a, twice. -/
theorem keys_stayInside_iff_letters :
    CommandsOnStack emptyBlock (emptyStart, .none) promptThenText ∧
    ((Along (fun st k _ => AccessesInside emptyBlock st.1 k) (emptyStart, .none) promptThenText ∧
      AccessesInside emptyBlock (finalState (emptyStart, .none) promptThenText).1 scancodeA) ↔
    Guarded (KeyFits emptyBlock) (emptyStart, .none) promptThenText ∧
      KeyFits emptyBlock (finalState (emptyStart, .none) promptThenText) scancodeA) := by
  have hstack : CommandsOnStack emptyBlock (emptyStart, .none) promptThenText :=
    ⟨commandOnStack_of_ne (by decide), commandOnStack_of_ne (by decide), trivial⟩
  exact ⟨hstack, keys_stayInside_iff emptyBlock colorforthInitialize promptThenText
    (.cons ⟨fun _ => ⟨[], 0, rfl⟩, rfl⟩ (.cons ⟨fun _ => ⟨[], 0, rfl⟩, rfl⟩ (.nil _))) hstack
    scancodeA⟩

/-- The first scancode behind the keyboard's table. -/
theorem scancode_behind_keymap : ¬ ∀ (around : Surroundings) (s : Forth)
    (keys : List (BitVec 8 × Editor × Typed)),
      Path (TypingStep around) (editor around.image s, .none) keys → (∀ x ∈ keys, x.1 < 0x80) →
        ∀ scancode < 0x80, Along (fun st k _ => AccessesInside around st.1 k)
            (editor around.image s, .none) keys ∧
          AccessesInside around (finalState (editor around.image s, .none) keys).1 scancode := by
  intro h
  obtain ⟨-, hinside⟩ := h emptyBlock colorforthInitialize [] (.nil _) (by simp) 0x62 (by decide)
  exact absurd (accessesInside_iff.mp hinside).1 (by decide)

end Einherjar.Colorforth
