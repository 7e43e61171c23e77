import Einherjar.Lib.RingBuffer
import Einherjar.Lib.Run

/-! The console: characters go from the keyboard interrupt to the readers through a ring
buffer. -/
namespace Einherjar.Io
open Einherjar.Lib

def consoleBufferLength : ℕ := 64

def consoleModeCanon : BitVec 8 := 1
def consoleModeEcho : BitVec 8 := 2

/-- `struct console`. The device behind the function `write` is the list of the bytes passed
to it. -/
structure Console where
  buffer : Fin consoleBufferLength → BitVec 8
  bufferRead : Fin consoleBufferLength
  bufferWrite : Fin consoleBufferLength
  mode : BitVec 8
  written : List (BitVec 8)

/-- The state that `console_setup` makes. -/
def consoleSetup : Console where
  buffer _ := 0
  bufferRead := ⟨0, by decide⟩
  bufferWrite := ⟨0, by decide⟩
  mode := consoleModeCanon
  written := []

/-- Increment an index, and set it to 0 when it has reached the length of the buffer. -/
def incrementIndex (i : Fin consoleBufferLength) : Fin consoleBufferLength :=
  if h : i.val + 1 = consoleBufferLength then ⟨0, by decide⟩
  else ⟨i.val + 1, by have := i.isLt; omega⟩

def consoleAddCharacter (cons : Console) (c : BitVec 8) : Console :=
  { cons with
    buffer := Function.update cons.buffer cons.bufferWrite c
    bufferWrite := incrementIndex cons.bufferWrite }

/-- One iteration of the loop in `console_read`: nothing to read, or a character, which goes
to the caller's buffer, and the console after it. -/
def consoleReadIteration (t : Console) : Option (BitVec 8 × Console) :=
  if t.bufferRead = t.bufferWrite then none
  else
    let c := t.buffer t.bufferRead
    let t := { t with bufferRead := incrementIndex t.bufferRead }
    let t := if t.mode &&& consoleModeEcho ≠ 0 then { t with written := t.written ++ [c] } else t
    some (c, t)

/-- Whether `console_read` returns after the character `c`, the `count`-th it has read. -/
def consoleReadDone (t : Console) (count len : ℕ) (c : BitVec 8) : Bool :=
  count = len ∨ c = 0x0a ∧ t.mode &&& consoleModeCanon ≠ 0

/-- The ring buffer inside the console. -/
def Console.ring (t : Console) : Ring consoleBufferLength (BitVec 8) :=
  { cells := t.buffer, read := t.bufferRead, write := t.bufferWrite }

theorem incrementIndex_eq_next (i : Fin consoleBufferLength) : incrementIndex i = Ring.next i := by
  apply Fin.ext
  rw [Ring.next_val]
  unfold incrementIndex
  split_ifs <;> rfl

theorem ring_consoleAddCharacter (t : Console) (c : BitVec 8) :
    (consoleAddCharacter t c).ring = t.ring.push c := by
  unfold consoleAddCharacter Console.ring Ring.push
  rw [incrementIndex_eq_next]

theorem consoleReadIteration_eq_none {t : Console} (h : t.ring.count = 0) :
    consoleReadIteration t = none := if_pos ((Ring.count_eq_zero_iff _).mp h)

theorem consoleReadIteration_eq_some {t : Console} (h : t.ring.count ≠ 0) :
    ∃ t', consoleReadIteration t = some (t.buffer t.bufferRead, t') ∧ t'.ring = t.ring.pop := by
  have hne : t.bufferRead ≠ t.bufferWrite := fun he => h ((Ring.count_eq_zero_iff _).mpr he)
  unfold consoleReadIteration
  rw [if_neg hne]
  refine ⟨_, rfl, ?_⟩
  unfold Console.ring Ring.pop
  split_ifs <;> simp [incrementIndex_eq_next]

/-- The console, with the characters added to it and those delivered to readers so far. -/
structure Terminal where
  console : Console
  added : List (BitVec 8)
  delivered : List (BitVec 8)

/-- A step of the producer or of a reader. -/
inductive ConsoleEvent where
  | add (c : BitVec 8)
  | read
  deriving DecidableEq

def consoleStep (s : Terminal) : ConsoleEvent → Terminal
  | .add c => { s with console := consoleAddCharacter s.console c, added := s.added ++ [c] }
  | .read =>
    match consoleReadIteration s.console with
    | none => s
    | some (c, t) => { s with console := t, delivered := s.delivered ++ [c] }

def freshTerminal : Terminal := { console := consoleSetup, added := [], delivered := [] }

/-- No character is lost, repeated or out of order. -/
def InOrder (s : Terminal) : Prop := s.added = s.delivered ++ s.console.ring.contents

/-- The producer finds at least one cell besides the unused one. -/
def HasRoom (s : Terminal) : ConsoleEvent → Prop
  | .add _ => s.console.ring.count < 63
  | .read => True

theorem consoleStep_inOrder {s : Terminal} {e : ConsoleEvent} (h : InOrder s)
    (hroom : HasRoom s e) : InOrder (consoleStep s e) := by
  unfold InOrder at h ⊢
  cases e with
  | add c =>
    have hcount : s.console.ring.count + 1 < consoleBufferLength := Nat.succ_lt_succ hroom
    simp only [consoleStep, ring_consoleAddCharacter, Ring.contents_push _ c hcount, h,
      List.append_assoc]
  | read =>
    by_cases hempty : s.console.ring.count = 0
    · simp only [consoleStep, consoleReadIteration_eq_none hempty]
      exact h
    · obtain ⟨t, hread, hring⟩ := consoleReadIteration_eq_some hempty
      simp only [consoleStep, hread, hring]
      rw [h, Ring.contents_pop _ hempty, List.append_assoc]
      rfl

/-- An addition without room turns a full buffer into one that looks empty. -/
theorem hasRoom_of_inOrder {s : Terminal} {e : ConsoleEvent} (h : InOrder s)
    (hafter : InOrder (consoleStep s e)) : HasRoom s e := by
  cases e with
  | read => trivial
  | add c =>
    by_contra hfull
    have hlt : s.console.ring.count < 64 := Ring.count_lt _
    have hcount : s.console.ring.count + 1 = consoleBufferLength := by
      unfold HasRoom at hfull
      change s.console.ring.count + 1 = 64
      omega
    unfold InOrder at h hafter
    simp only [consoleStep, ring_consoleAddCharacter, Ring.contents_push_full _ c hcount,
      List.append_nil] at hafter
    have hlen := congrArg List.length hafter
    rw [h] at hlen
    simp at hlen

/-- In every interleaving, the characters come through in order, after each step, exactly when
no character is added to a console with 63 unread ones. -/
theorem console_inOrder_iff (es : List ConsoleEvent) :
    (∀ x ∈ trace consoleStep freshTerminal es, InOrder x.2) ↔
      Guarded HasRoom freshTerminal (trace consoleStep freshTerminal es) := by
  refine Path.forall_states_iff_guarded (fun _ h => h) ?_ ?_ (path_trace ..) rfl
  · rintro s e t h hroom rfl
    exact consoleStep_inOrder h hroom
  · rintro s e t h rfl hafter
    exact hasRoom_of_inOrder h hafter

/-- A backlog of 64 characters is lost as a whole. -/
theorem console_overrun :
    ¬ ∀ es : List ConsoleEvent, ∀ x ∈ trace consoleStep freshTerminal es, InOrder x.2 := by
  intro h
  have hlast := h (List.replicate 64 (.add 0x61)) _ (List.mem_of_getLast? rfl)
  have hlen := congrArg List.length hlast
  revert hlen
  decide +kernel

end Einherjar.Io
