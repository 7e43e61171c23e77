import Einherjar.Colorforth.Editor
import Einherjar.Lib.Run

/-! What the prompt executes: the buffer of `handle_input` against the keys that have been typed
since the prompt was opened. -/
namespace Einherjar.Colorforth
open Einherjar.Io Einherjar.Lib

/-- The characters of the ordinary keys since the later of two events: the previous space, and
the last F2 that opened the prompt; and those from the one to the other, if F2 is the later. -/
structure Typed where
  command : List (BitVec 8)
  before : List (BitVec 8)

namespace Typed

def none : Typed := ⟨[], []⟩

/-- All characters since the previous space. -/
def pending (typed : Typed) : List (BitVec 8) := typed.before ++ typed.command

/-- The effect of a key. F2 opens the prompt unless it is open. -/
def next (around : Surroundings) (e : Editor) (scancode : BitVec 8) (typed : Typed) : Typed :=
  if scancode = keyF2 then if e.isCommand then typed else ⟨[], typed.pending⟩
  else if scancode = keySpace then none
  else if Ordinary around e scancode then
    { typed with command := typed.command ++ [keyboardGetKeymap around scancode] }
  else typed

end Typed

/-- The handling of a key, and what has been typed. -/
def TypingStep (around : Surroundings) (st : Editor × Typed) (scancode : BitVec 8)
    (st' : Editor × Typed) : Prop :=
  KeyStep around st.1 scancode st'.1 ∧ st'.2 = st.2.next around st.1 scancode

/-- A space at the prompt passes to `do_cmd` what has been typed there. -/
def ExecutesTyped (st : Editor × Typed) (scancode : BitVec 8) : Prop :=
  scancode = keySpace → st.1.isCommand = true →
    ∀ behind, (st.1.word.set st.1.i 0).string behind = st.2.command

/-- At a space at the prompt, nothing had been typed before F2 opened it, and what has been typed
since then is a string that fits in the buffer. -/
def TypedAtPrompt (st : Editor × Typed) (scancode : BitVec 8) : Prop :=
  scancode = keySpace → st.1.isCommand = true →
    st.2.before = [] ∧ st.2.command.length < 32 ∧ 0 ∉ st.2.command

/-- The index counts the characters since the previous space, and the buffer begins with them. -/
structure Buffered (st : Editor × Typed) : Prop where
  index : st.1.i.toNat = st.2.pending.length
  characters : st.1.word.bytes.take st.2.pending.length = st.2.pending

section buffer

variable {around : Surroundings} {e e' : Editor} {typed : Typed} {scancode : BitVec 8}

theorem buffered_nil (h : e.i = 0) : Buffered (e, .none) := ⟨congrArg BitVec.toNat h, rfl⟩

/-- The buffer with a byte at the index. -/
theorem WordBuffer.set_eq (w : WordBuffer) {i : BitVec 8} (hi : i.toNat < 32) (c : BitVec 8) :
    (w.set i c).bytes = w.bytes.take i.toNat ++ c :: w.bytes.drop (i.toNat + 1) := by
  change w.bytes.set i.toNat c = _
  rw [List.set_eq_take_append_cons_drop, if_pos (by rwa [w.length_eq])]

theorem WordBuffer.take_set (w : WordBuffer) {i : BitVec 8} (hi : i.toNat < 32) (c : BitVec 8) :
    (w.set i c).bytes.take (i.toNat + 1) = w.bytes.take i.toNat ++ [c] := by
  have hlen : (w.bytes.take i.toNat).length = i.toNat := by
    rw [List.length_take, w.length_eq, Nat.min_eq_left (Nat.le_of_lt hi)]
  rw [w.set_eq hi, List.take_append, hlen, Nat.add_sub_cancel_left, List.take_succ_cons,
    List.take_zero, List.take_of_length_le (by omega)]

/-- The string that a NUL at the index closes. -/
theorem WordBuffer.string_set (w : WordBuffer) {i : BitVec 8} (hi : i.toNat < 32)
    (h : 0 ∉ w.bytes.take i.toNat) (behind : List (BitVec 8)) :
    (w.set i 0).string behind = w.bytes.take i.toNat := by
  have hall : ∀ b ∈ w.bytes.take i.toNat, decide (b ≠ 0) = true := fun b hb =>
    decide_eq_true fun h0 => h (h0 ▸ hb)
  rw [WordBuffer.string, w.set_eq hi, if_pos (by simp), List.takeWhile_append_of_pos hall,
    List.takeWhile_cons_of_neg (by simp), List.append_nil]

theorem WordBuffer.set_of_ge (w : WordBuffer) {i : BitVec 8} (hi : 32 ≤ i.toNat) (c : BitVec 8) :
    (w.set i c).bytes = w.bytes :=
  List.set_eq_of_length_le (w.length_eq.le.trans hi)

theorem Buffered.character (h : Buffered (e, typed)) (hroom : e.i.toNat < 32) (c : BitVec 8) :
    Buffered (typeCharacter c { e with escape := false },
      { typed with command := typed.command ++ [c] }) := by
  have hpending : (⟨typed.command ++ [c], typed.before⟩ : Typed).pending = typed.pending ++ [c] :=
    (List.append_assoc ..).symm
  have hindex : e.i.toNat = typed.pending.length := h.index
  refine ⟨?_, ?_⟩
  · change (e.i + 1).toNat = _
    rw [hpending, List.length_append, List.length_singleton, ← hindex]
    bv_omega
  · change (e.word.set e.i c).bytes.take _ = _
    have htake := e.word.take_set hroom c
    rw [hindex, h.characters] at htake
    rw [hpending, List.length_append, List.length_singleton]
    exact htake

/-- Opening the prompt changes what counts as typed there, and not the buffer. -/
theorem Buffered.open (h : Buffered (e, typed)) (he : e'.i = e.i ∧ e'.word = e.word) :
    Buffered (e', ⟨[], typed.pending⟩) := by
  have hpending : (⟨[], typed.pending⟩ : Typed).pending = typed.pending := List.append_nil _
  refine ⟨?_, ?_⟩
  · rw [hpending, he.1]
    exact h.index
  · rw [hpending, he.2]
    exact h.characters

theorem Buffered.frame (h : Buffered (e, typed)) (he : e'.i = e.i ∧ e'.word = e.word) :
    Buffered (e', typed) :=
  ⟨(congrArg _ he.1).trans h.index, (congrArg _ (congrArg _ he.2)).trans h.characters⟩

end buffer

section steps

variable {around : Surroundings} {e e' : Editor} {typed typed' : Typed} {scancode : BitVec 8}

theorem Typed.next_of_not_ordinary (hprompt : scancode ≠ keyF2) (hspace : scancode ≠ keySpace)
    (h : ¬ Ordinary around e scancode) : typed.next around e scancode = typed := by
  rw [next, if_neg hprompt, if_neg hspace, if_neg h]

/-- A key with a case of its own that is neither F2 nor the space. -/
theorem Typed.next_of_special (hkey : scancode ∈ specialKeys)
    (hne : scancode ≠ keyF2 ∧ scancode ≠ keySpace) : typed.next around e scancode = typed :=
  next_of_not_ordinary hne.1 hne.2 fun h => h.1 hkey

theorem Typed.next_of_taken (h : TakenByEscape around e scancode) :
    typed.next around e scancode = typed := by
  have hspecial := h.not_special
  refine next_of_not_ordinary ?_ ?_ fun ho => ho.2 h
  all_goals
    rintro rfl
    exact hspecial (by decide)

theorem Buffered.step {behind : List (BitVec 8)} (h : Buffered (e, typed))
    (hroom : Ordinary around e scancode → e.i.toNat < 32)
    (hkey : Handled around behind e scancode e') :
    Buffered (e', typed.next around e scancode) := by
  cases hkey with
  | escape =>
    rw [Typed.next_of_special (by decide) (by decide)]
    exact h.frame ⟨rfl, rfl⟩
  | base =>
    rw [Typed.next_of_special (by decide) (by decide)]
    exact h.frame ⟨rfl, rfl⟩
  | openPrompt =>
    rw [Typed.next, if_pos rfl]
    split_ifs
    · exact h.frame ⟨rfl, rfl⟩
    · exact h.open ⟨rfl, rfl⟩
  | colour foreground taken =>
    rw [Typed.next_of_taken taken]
    exact h.frame ⟨rfl, rfl⟩
  | leavePrompt taken =>
    rw [Typed.next_of_taken taken]
    exact h.frame ⟨rfl, rfl⟩
  | command mode result => exact buffered_nil rfl
  | space mode => exact buffered_nil rfl
  | move key =>
    obtain ⟨hspecial, hne⟩ := cursorMove_special key
    rw [Typed.next_of_special hspecial hne]
    exact h.frame ⟨rfl, rfl⟩
  | page target =>
    rcases pageTarget_special target with rfl | rfl
    all_goals
      rw [Typed.next_of_special (by decide) (by decide)]
      exact h.frame ⟨rfl, rfl⟩
  | stay key target =>
    rcases key with rfl | rfl
    all_goals
      rw [Typed.next_of_special (by decide) (by decide)]
      exact h.frame ⟨rfl, rfl⟩
  | character ordinary =>
    have hne : scancode ≠ keyF2 ∧ scancode ≠ keySpace := by
      constructor <;> rintro rfl <;> exact ordinary.1 (by decide)
    rw [Typed.next, if_neg hne.1, if_neg hne.2, if_pos ordinary]
    exact h.character (hroom ordinary) _

/-- What a space at the prompt passes to `do_cmd` while everything pending fits. -/
theorem Buffered.string_of_fits (h : Buffered (e, typed)) (hlen : typed.pending.length < 32)
    (hnul : 0 ∉ typed.pending) (behind : List (BitVec 8)) :
    (e.word.set e.i 0).string behind = typed.pending := by
  have hindex : e.i.toNat = typed.pending.length := h.index
  rw [e.word.string_set (hindex ▸ hlen) (by rwa [hindex, h.characters]), hindex, h.characters]

theorem Buffered.executesTyped (h : Buffered (e, typed)) (hg : TypedAtPrompt (e, typed) scancode) :
    ExecutesTyped (e, typed) scancode := by
  intro hspace hmode behind
  obtain ⟨hbefore, hlen, hnul⟩ := hg hspace hmode
  have hpending : typed.pending = typed.command := by
    change typed.before ++ typed.command = typed.command
    rw [show typed.before = [] from hbefore, List.nil_append]
  have hstring := h.string_of_fits (hpending ▸ hlen) (hpending ▸ hnul) behind
  rwa [hpending] at hstring

/-- A buffer without a NUL does not say where the string ends. -/
theorem Buffered.typedAtPrompt (h : Buffered (e, typed)) (hnul : 0 ∉ typed.pending)
    (hx : ExecutesTyped (e, typed) scancode) :
    TypedAtPrompt (e, typed) scancode := by
  intro hspace hmode
  have hstring := hx hspace hmode
  by_cases hfits : typed.pending.length < 32
  · have hpending : typed.before ++ typed.command = typed.command :=
      (h.string_of_fits hfits hnul []).symm.trans (hstring [])
    have hbefore : typed.before = [] := List.append_left_eq_self.mp hpending
    have hcommand : typed.pending = typed.command := hpending
    exact ⟨hbefore, hcommand ▸ hfits, hcommand ▸ hnul⟩
  · have hindex : e.i.toNat = typed.pending.length := h.index
    have hchars : e.word.bytes.take typed.pending.length = typed.pending := h.characters
    have hbytes := e.word.length_eq
    rw [List.take_of_length_le (by omega)] at hchars
    have hfull : 0 ∉ (e.word.set e.i 0).bytes := by
      rw [e.word.set_of_ge (by omega), hchars]
      exact hnul
    have hopen : ∀ behind, (e.word.set e.i 0).string behind = (e.word.set e.i 0).bytes ++ behind :=
      fun behind => if_neg hfull
    have heq : (e.word.set e.i 0).bytes ++ [0] = (e.word.set e.i 0).bytes ++ [] := by
      rw [← hopen, ← hopen, hstring, hstring]
    simp at heq

end steps

/-- A key that stores inside the arrays keeps the buffer. -/
theorem TypingStep.buffered {around : Surroundings} {st st' : Editor × Typed} {scancode : BitVec 8}
    (hstep : TypingStep around st scancode st') (hstores : StoresInside around st.1 scancode)
    (h : Buffered st) : Buffered st' := by
  obtain ⟨e, typed⟩ := st
  obtain ⟨e', typed'⟩ := st'
  obtain ⟨hkey, rfl⟩ := hstep
  obtain ⟨behind, hhandled⟩ := hkey.handled hstores
  exact h.step (fun ordinary => hstores.word (.inr ordinary)) hhandled

/-- Every key of the run stores inside the arrays. -/
abbrev StoringInside (around : Surroundings) :
    Editor × Typed → List (BitVec 8 × Editor × Typed) → Prop :=
  Guarded fun st scancode => StoresInside around st.1 scancode

theorem typing_buffered {around : Surroundings} {s : Forth}
    {keys : List (BitVec 8 × Editor × Typed)}
    (hrun : Path (TypingStep around) (editor around.image s, .none) keys)
    (hstores : StoringInside around (editor around.image s, .none) keys) :
    Buffered (finalState (editor around.image s, .none) keys) := by
  have hstart : Buffered (editor around.image s, .none) := buffered_nil rfl
  exact finalState_of_forall hstart (hrun.invariant_of_guarded (I := Buffered)
    (fun st scancode st' h hg hstep => hstep.buffered hg h) hstart hstores)

/-- After every run of keys that store inside the arrays, a space at the prompt executes what has
been typed there if nothing had been typed before the prompt was opened and what has been typed is
a string that fits in the buffer; and only then, unless a NUL is pending. -/
theorem prompt_executes_typed (around : Surroundings) (s : Forth)
    (keys : List (BitVec 8 × Editor × Typed))
    (hrun : Path (TypingStep around) (editor around.image s, .none) keys)
    (hstores : StoringInside around (editor around.image s, .none) keys) (scancode : BitVec 8) :
    let st := finalState (editor around.image s, .none) keys
    (TypedAtPrompt st scancode → ExecutesTyped st scancode) ∧
      (0 ∉ st.2.pending → (ExecutesTyped st scancode ↔ TypedAtPrompt st scancode)) := by
  have hbuffered := typing_buffered hrun hstores
  exact ⟨hbuffered.executesTyped,
    fun hnul => ⟨hbuffered.typedAtPrompt hnul, hbuffered.executesTyped⟩⟩

section ConcreteKeys

def emptyStart : Editor := editor emptyBlock.image colorforthInitialize

def scancodeA : BitVec 8 := 0x1e

/-- The letter a is typed in the text, and then the prompt is opened. -/
def textThenPrompt : List (BitVec 8 × Editor × Typed) :=
  let e := typeCharacter 0x61 emptyStart
  [(scancodeA, e, ⟨[0x61], []⟩),
    (keyF2, { e with isCommand := true }.call commandPrompt, ⟨[], [0x61]⟩)]

theorem path_textThenPrompt :
    Path (TypingStep emptyBlock) (emptyStart, .none) textThenPrompt :=
  .cons ⟨fun _ => ⟨[], 0, rfl⟩, rfl⟩ (.cons ⟨fun _ => ⟨[], 0, rfl⟩, rfl⟩ (.nil _))

theorem storingInside_textThenPrompt :
    StoringInside emptyBlock (emptyStart, .none) textThenPrompt :=
  ⟨⟨fun _ => by decide, commandOnStack_of_ne (by decide)⟩,
    storesInside_of_special (by decide) (by decide), trivial⟩

/-- A space executes the letter that was typed in the text. -/
theorem leftover_executed : ¬ ∀ (around : Surroundings) (s : Forth)
    (keys : List (BitVec 8 × Editor × Typed)),
      Path (TypingStep around) (editor around.image s, .none) keys →
        ∀ scancode, ExecutesTyped (finalState (editor around.image s, .none) keys) scancode := by
  intro h
  have hrun := path_textThenPrompt
  have hx := h emptyBlock colorforthInitialize textThenPrompt hrun keySpace
  have hbuffered := typing_buffered hrun storingInside_textThenPrompt
  have htyped := hbuffered.typedAtPrompt (by decide) hx
  exact absurd (htyped rfl rfl).1 (by decide)

/-- The prompt is opened first. -/
def promptThenText : List (BitVec 8 × Editor × Typed) :=
  let e := { emptyStart with isCommand := true }.call commandPrompt
  [(keyF2, e, ⟨[], []⟩), (scancodeA, typeCharacter 0x61 e, ⟨[0x61], []⟩)]

theorem prompt_executes_typed_letter :
    let st := finalState (emptyStart, .none) promptThenText
    Path (TypingStep emptyBlock) (emptyStart, .none) promptThenText ∧
      StoringInside emptyBlock (emptyStart, .none) promptThenText ∧
        TypedAtPrompt st keySpace ∧ ExecutesTyped st keySpace := by
  have hrun : Path (TypingStep emptyBlock) (emptyStart, .none) promptThenText :=
    .cons ⟨fun _ => ⟨[], 0, rfl⟩, rfl⟩ (.cons ⟨fun _ => ⟨[], 0, rfl⟩, rfl⟩ (.nil _))
  have hstores : StoringInside emptyBlock (emptyStart, .none) promptThenText :=
    ⟨storesInside_of_special (by decide) (by decide),
      ⟨fun _ => by decide, commandOnStack_of_ne (by decide)⟩, trivial⟩
  have htyped : TypedAtPrompt (finalState (emptyStart, .none) promptThenText) keySpace :=
    fun _ _ => ⟨rfl, by decide, by decide⟩
  have hprompt := prompt_executes_typed emptyBlock colorforthInitialize promptThenText hrun hstores
    keySpace
  exact ⟨hrun, hstores, htyped, hprompt.1 htyped⟩

end ConcreteKeys

end Einherjar.Colorforth
