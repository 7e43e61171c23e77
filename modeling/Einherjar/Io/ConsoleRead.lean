import Einherjar.Io.Console

/-! `console_read` statement by statement, with the keyboard interrupt adding characters between
any two of its statements. -/
namespace Einherjar.Io
open Einherjar.Lib

/-- `struct console` as it is in memory. The indices are bytes; the buffer goes on into the memory
behind it. -/
structure ConsoleMemory where
  buffer : ℕ → BitVec 8
  bufferRead : BitVec 8
  bufferWrite : BitVec 8
  mode : BitVec 8
  written : List (BitVec 8)

/-- `console_add_character`, which nothing interrupts. -/
def ConsoleMemory.addCharacter (cons : ConsoleMemory) (c : BitVec 8) : ConsoleMemory :=
  let cons := { cons with
    buffer := Function.update cons.buffer cons.bufferWrite.toNat c
    bufferWrite := cons.bufferWrite + 1 }
  if cons.bufferWrite = 64 then { cons with bufferWrite := 0 } else cons

/-- The next statement of `console_read`, with the character in `c` once it is there. -/
inductive ReadAt where
  | test
  | fetch
  | copy (c : BitVec 8)
  | advance (c : BitVec 8)
  | wrap (c : BitVec 8)
  | echo (c : BitVec 8)
  | check (c : BitVec 8)
  | returned

/-- A call of `console_read` under way. `dst` is the memory from the caller's buffer on, and
`dstBuffer` the offset of the pointer in it; `arrived` are the characters that were unread when
the call began, and those added since. -/
structure ReadState where
  console : ConsoleMemory
  standing : ReadAt
  count : ℕ
  dst : ℕ → BitVec 8
  dstBuffer : ℕ
  arrived : List (BitVec 8)

/-- A statement of `console_read`. Statements on its own variables go with their neighbours. -/
def readStatement (len : ℕ) (s : ReadState) : ReadState :=
  match s.standing with
  | .test =>
    if s.console.bufferRead = s.console.bufferWrite then s else { s with standing := .fetch }
  | .fetch => { s with standing := .copy (s.console.buffer s.console.bufferRead.toNat) }
  | .copy c =>
    { s with
      dst := Function.update s.dst s.dstBuffer (s.console.buffer s.console.bufferRead.toNat)
      dstBuffer := s.dstBuffer + 1
      standing := .advance c }
  | .advance c =>
    { s with
      console := { s.console with bufferRead := s.console.bufferRead + 1 }, standing := .wrap c }
  | .wrap c =>
    { s with
      console := if s.console.bufferRead = 64 then { s.console with bufferRead := 0 }
        else s.console
      standing := .echo c }
  | .echo c =>
    { s with
      count := s.count + 1
      console := if s.console.mode &&& consoleModeEcho ≠ 0 then
          { s.console with written := s.console.written ++ [c] }
        else s.console
      standing := .check c }
  | .check c =>
    if s.count = len ∨ c = 0x0a ∧ s.console.mode &&& consoleModeCanon ≠ 0 then
      { s with standing := .returned }
    else { s with standing := .test }
  | .returned => s

inductive ReadEvent where
  | statement
  | add (c : BitVec 8)

def readEvent (len : ℕ) (s : ReadState) : ReadEvent → ReadState
  | .statement => readStatement len s
  | .add c => { s with console := s.console.addCharacter c, arrived := s.arrived ++ [c] }

/-- The fields in memory are those of the console. -/
structure Represents (m : ConsoleMemory) (t : Console) : Prop where
  buffer : ∀ i : Fin consoleBufferLength, m.buffer i = t.buffer i
  bufferRead : m.bufferRead.toNat = t.bufferRead
  bufferWrite : m.bufferWrite.toNat = t.bufferWrite
  mode : m.mode = t.mode
  written : m.written = t.written

/-- The beginning of `console_read(t, dst, len)`. -/
def readCall (m : ConsoleMemory) (t : Console) (dst : ℕ → BitVec 8) (len : ℕ) : ReadState where
  console := m
  standing := if len = 0 then .returned else .test
  count := 0
  dst := dst
  dstBuffer := 0
  arrived := t.ring.contents

/-- At most 63 characters are unread after an addition: not copied to the caller's buffer. -/
def RoomToAdd (s : ReadState) : ReadEvent → Prop
  | .statement => True
  | .add _ => s.arrived.length - s.dstBuffer < 63

def ReadEvent.added : ReadEvent → List (BitVec 8)
  | .statement => []
  | .add c => [c]

/-- The characters that a run of events adds. -/
def addedBy (es : List ReadEvent) : List (BitVec 8) := es.flatMap ReadEvent.added

/-- The number of characters that a call is to read: `len`, or in canonical mode those up to the
first newline if they are fewer. -/
def charactersRead (mode : BitVec 8) (len : ℕ) (arrived : List (BitVec 8)) : ℕ :=
  if mode &&& consoleModeCanon ≠ 0 then min len (arrived.findIdx (· = 0x0a) + 1) else len

/-- After the character at `k`, the call returns. -/
def EndsWith (mode : BitVec 8) (len : ℕ) (arrived : List (BitVec 8)) (k : ℕ) : Prop :=
  k + 1 = len ∨ arrived[k]? = some 0x0a ∧ mode &&& consoleModeCanon ≠ 0

/-- What the index and the counters are in the iteration for the character at `k`. -/
def Stands (first k : ℕ) (s : ReadState) : Prop :=
  let read := s.console.bufferRead.toNat
  match s.standing with
  | .test => read = (first + k) % 64 ∧ s.dstBuffer = k ∧ s.count = k
  | .fetch => read = (first + k) % 64 ∧ s.dstBuffer = k ∧ s.count = k ∧ k < s.arrived.length
  | .copy c =>
    read = (first + k) % 64 ∧ s.dstBuffer = k ∧ s.count = k ∧ s.arrived[k]? = some c
  | .advance c =>
    read = (first + k) % 64 ∧ s.dstBuffer = k + 1 ∧ s.count = k ∧ s.arrived[k]? = some c
  | .wrap c =>
    read = (first + k) % 64 + 1 ∧ s.dstBuffer = k + 1 ∧ s.count = k ∧ s.arrived[k]? = some c
  | .echo c =>
    read = (first + k + 1) % 64 ∧ s.dstBuffer = k + 1 ∧ s.count = k ∧ s.arrived[k]? = some c
  | .check c =>
    read = (first + k + 1) % 64 ∧ s.dstBuffer = k + 1 ∧ s.count = k + 1 ∧ s.arrived[k]? = some c
  | .returned => read = (first + k + 1) % 64 ∧ s.dstBuffer = k + 1 ∧ s.count = k + 1

/-- A call that began with the console `t` and the memory `dst` is in the iteration for the
character at `k`. -/
structure Serves (t : Console) (dst : ℕ → BitVec 8) (len k : ℕ) (s : ReadState) : Prop where
  mode : s.console.mode = t.mode
  bufferWrite : s.console.bufferWrite.toNat = (t.bufferRead.val + s.arrived.length) % 64
  copied : s.dstBuffer ≤ s.arrived.length
  room : s.arrived.length ≤ s.dstBuffer + 63
  slots : ∀ j c, s.dstBuffer ≤ j → s.arrived[j]? = some c →
    s.console.buffer ((t.bufferRead.val + j) % 64) = c
  stored : ∀ i, s.dst i = (s.arrived.take s.dstBuffer)[i]?.getD (dst i)
  written : s.console.written = t.written ++
    if t.mode &&& consoleModeEcho ≠ 0 then s.arrived.take s.count else []
  before : ∀ i < k, ¬ EndsWith t.mode len s.arrived i
  stands : Stands t.bufferRead k s
  ends : s.standing = .returned → EndsWith t.mode len s.arrived k

section addition

variable {m : ConsoleMemory} {t : Console} {c : BitVec 8}

theorem toNat_succ {i : BitVec 8} (h : i.toNat < 64) : (i + 1).toNat = i.toNat + 1 := by
  rw [BitVec.toNat_add, show (1 : BitVec 8).toNat = 1 from rfl]
  omega

/-- An index after its increment. -/
theorem toNat_wrapped {i : BitVec 8} (h : i.toNat < 64) :
    (if i + 1 = 64 then 0 else i + 1).toNat = (i.toNat + 1) % 64 := by
  have hsucc := toNat_succ h
  split_ifs with hwrap
  · have hlast : i.toNat + 1 = 64 := hsucc.symm.trans (congrArg BitVec.toNat hwrap)
    rw [hlast]
    rfl
  · have hne : i.toNat + 1 ≠ 64 := fun he => hwrap (BitVec.eq_of_toNat_eq (hsucc.trans he))
    rw [hsucc, Nat.mod_eq_of_lt (by omega)]

theorem addCharacter_bufferWrite (h : m.bufferWrite.toNat < 64) :
    (m.addCharacter c).bufferWrite.toNat = (m.bufferWrite.toNat + 1) % 64 := by
  rw [← toNat_wrapped h]
  unfold ConsoleMemory.addCharacter
  dsimp only
  split_ifs <;> rfl

theorem addCharacter_buffer (m : ConsoleMemory) (c : BitVec 8) :
    (m.addCharacter c).buffer = Function.update m.buffer m.bufferWrite.toNat c := by
  unfold ConsoleMemory.addCharacter
  dsimp only
  split_ifs <;> rfl

/-- The other fields. -/
theorem addCharacter_frame (m : ConsoleMemory) (c : BitVec 8) :
    (m.addCharacter c).bufferRead = m.bufferRead ∧ (m.addCharacter c).mode = m.mode ∧
      (m.addCharacter c).written = m.written := by
  unfold ConsoleMemory.addCharacter
  dsimp only
  split_ifs <;> exact ⟨rfl, rfl, rfl⟩

/-- The bytes in memory follow the console. -/
theorem Represents.addCharacter (h : Represents m t) (c : BitVec 8) :
    Represents (m.addCharacter c) (consoleAddCharacter t c) := by
  obtain ⟨hread, hmode, hwritten⟩ := addCharacter_frame m c
  have hlt : m.bufferWrite.toNat < 64 := h.bufferWrite ▸ t.bufferWrite.isLt
  constructor
  case buffer =>
    intro i
    rw [addCharacter_buffer, h.bufferWrite]
    change Function.update m.buffer t.bufferWrite.val c i = Function.update t.buffer _ c i
    by_cases hi : i = t.bufferWrite
    · rw [hi, Function.update_self, Function.update_self]
    · rw [Function.update_of_ne hi, Function.update_of_ne (fun he => hi (Fin.ext he)), h.buffer]
  case bufferRead => rw [hread]; exact h.bufferRead
  case bufferWrite =>
    rw [addCharacter_bufferWrite hlt, h.bufferWrite]
    change _ = (incrementIndex t.bufferWrite).val
    rw [incrementIndex_eq_next]
    rfl
  case mode => rw [hmode]; exact h.mode
  case written => rw [hwritten]; exact h.written

end addition

section steps

variable {t : Console} {dst : ℕ → BitVec 8} {len k first : ℕ} {s : ReadState}

theorem Stands.bounds (h : Stands first k s) :
    k ≤ s.dstBuffer ∧ s.count ≤ s.dstBuffer ∧ (s.standing = .returned → k < s.dstBuffer) := by
  unfold Stands at h
  cases hs : s.standing with
  | test =>
    simp only [hs] at h
    exact ⟨by omega, by omega, by simp⟩
  | returned =>
    simp only [hs] at h
    exact ⟨by omega, by omega, by omega⟩
  | _ =>
    simp only [hs] at h
    exact ⟨by omega, by omega, by simp⟩

theorem getElem?_arrived {α : Type*} {arrived : List α} {i : ℕ} {x : α}
    (h : arrived[i]? = some x) (c : α) : (arrived ++ [c])[i]? = some x := by
  obtain ⟨hi, -⟩ := List.getElem?_eq_some_iff.mp h
  rw [List.getElem?_append_left hi, h]

theorem Stands.append (h : Stands first k s) (c : BitVec 8) :
    Stands first k (readEvent len s (.add c)) := by
  obtain ⟨hread, -, -⟩ := addCharacter_frame s.console c
  unfold Stands readEvent at *
  simp only [hread]
  cases hs : s.standing with
  | test =>
    simp only [hs] at h ⊢
    exact h
  | returned =>
    simp only [hs] at h ⊢
    exact h
  | fetch =>
    simp only [hs] at h ⊢
    rw [List.length_append]
    exact ⟨h.1, h.2.1, h.2.2.1, Nat.lt_add_right _ h.2.2.2⟩
  | _ =>
    simp only [hs] at h ⊢
    exact ⟨h.1, h.2.1, h.2.2.1, getElem?_arrived h.2.2.2 c⟩

theorem EndsWith.append_iff {mode : BitVec 8} {arrived : List (BitVec 8)} {i : ℕ}
    (hi : i < arrived.length) (c : BitVec 8) :
    EndsWith mode len (arrived ++ [c]) i ↔ EndsWith mode len arrived i := by
  unfold EndsWith
  rw [List.getElem?_append_left hi]

/-- The keyboard writes behind the unread characters. -/
theorem Serves.add (h : Serves t dst len k s) {c : BitVec 8} (hroom : RoomToAdd s (.add c)) :
    Serves t dst len k (readEvent len s (.add c)) := by
  obtain ⟨-, hmode, hwritten⟩ := addCharacter_frame s.console c
  obtain ⟨hk, hcount, hreturned⟩ := h.stands.bounds
  have hcopied := h.copied
  have hroom : s.arrived.length - s.dstBuffer < 63 := hroom
  have hwrite := h.bufferWrite
  have hlt : s.console.bufferWrite.toNat < 64 := by omega
  constructor
  case mode => exact hmode.trans h.mode
  case bufferWrite =>
    change (s.console.addCharacter c).bufferWrite.toNat = _
    rw [addCharacter_bufferWrite hlt, hwrite]
    change _ = (_ + (s.arrived ++ [c]).length) % 64
    rw [List.length_append, List.length_singleton]
    omega
  case copied =>
    change s.dstBuffer ≤ (s.arrived ++ [c]).length
    rw [List.length_append]
    omega
  case room =>
    change (s.arrived ++ [c]).length ≤ s.dstBuffer + 63
    rw [List.length_append, List.length_singleton]
    omega
  case slots =>
    intro j x hj hx
    change s.dstBuffer ≤ j at hj
    change (s.arrived ++ [c])[j]? = some x at hx
    change (s.console.addCharacter c).buffer _ = x
    rw [addCharacter_buffer, hwrite]
    by_cases hlast : j = s.arrived.length
    · rw [hlast, Function.update_self]
      rw [hlast, List.getElem?_append_right (Nat.le_refl _), Nat.sub_self] at hx
      exact Option.some.inj hx
    · have hjlt : j < s.arrived.length := by
        obtain ⟨hjlt, -⟩ := List.getElem?_eq_some_iff.mp hx
        rw [List.length_append, List.length_singleton] at hjlt
        omega
      rw [List.getElem?_append_left hjlt] at hx
      rw [Function.update_of_ne (by omega)]
      exact h.slots j x hj hx
  case stored =>
    intro i
    change s.dst i = ((s.arrived ++ [c]).take s.dstBuffer)[i]?.getD (dst i)
    rw [List.take_append_of_le_length hcopied]
    exact h.stored i
  case written =>
    change (s.console.addCharacter c).written = _
    rw [hwritten, h.written]
    change _ = _ ++ if _ then (s.arrived ++ [c]).take s.count else []
    rw [List.take_append_of_le_length (Nat.le_trans hcount hcopied)]
  case before =>
    intro i hi
    change ¬ EndsWith t.mode len (s.arrived ++ [c]) i
    rw [EndsWith.append_iff (by omega)]
    exact h.before i hi
  case stands => exact h.stands.append c
  case ends =>
    intro hs
    change EndsWith t.mode len (s.arrived ++ [c]) k
    have hlt := hreturned hs
    rw [EndsWith.append_iff (by omega)]
    exact h.ends hs

/-- A character that is copied comes from the slot of the first unread one. -/
theorem Serves.slot (h : Serves t dst len k s) {c : BitVec 8}
    (hread : s.console.bufferRead.toNat = (t.bufferRead.val + k) % 64) (hk : s.dstBuffer = k)
    (hc : s.arrived[k]? = some c) : s.console.buffer s.console.bufferRead.toNat = c := by
  rw [hread]
  exact h.slots k c (Nat.le_of_eq hk) hc

/-- The characters up to the one at `k`. -/
theorem take_succ_of_getElem? {α : Type*} {arrived : List α} {c : α} (hc : arrived[k]? = some c) :
    arrived.take (k + 1) = arrived.take k ++ [c] := by
  rw [List.take_add_one, hc]
  rfl

/-- The loop is left as soon as a character is there. -/
theorem Serves.test (h : Serves t dst len k s) (hs : s.standing = .test) :
    Serves t dst len k (readStatement len s) := by
  have hstands := h.stands
  simp only [Stands, hs] at hstands
  obtain ⟨hread, hdst, hcount⟩ := hstands
  simp only [readStatement, hs]
  split_ifs with hempty
  · exact h
  · refine ⟨h.mode, h.bufferWrite, h.copied, h.room, h.slots, h.stored, h.written, h.before,
      ⟨hread, hdst, hcount, ?_⟩, by simp⟩
    have hwrite := h.bufferWrite
    have hcopied := h.copied
    change k < s.arrived.length
    by_contra hlt
    have hall : s.arrived.length = k := by omega
    exact hempty (BitVec.eq_of_toNat_eq (by rw [hread, hwrite, hall]))

theorem Serves.fetch (h : Serves t dst len k s) (hs : s.standing = .fetch) :
    Serves t dst len k (readStatement len s) := by
  have hstands := h.stands
  simp only [Stands, hs] at hstands
  obtain ⟨hread, hdst, hcount, hlt⟩ := hstands
  have hc := List.getElem?_eq_getElem hlt
  simp only [readStatement, hs, h.slot hread hdst hc]
  exact ⟨h.mode, h.bufferWrite, h.copied, h.room, h.slots, h.stored, h.written, h.before,
    ⟨hread, hdst, hcount, hc⟩, by simp⟩

theorem Serves.copy (h : Serves t dst len k s) {c : BitVec 8} (hs : s.standing = .copy c) :
    Serves t dst len k (readStatement len s) := by
  have hstands := h.stands
  simp only [Stands, hs] at hstands
  obtain ⟨hread, hdst, hcount, hc⟩ := hstands
  obtain ⟨hlt, -⟩ := List.getElem?_eq_some_iff.mp hc
  have hroom := h.room
  simp only [readStatement, hs, h.slot hread hdst hc, hdst]
  refine ⟨h.mode, h.bufferWrite, Nat.succ_le_of_lt hlt, ?_, ?_, ?_, h.written, h.before,
    ⟨hread, rfl, hcount, hc⟩, by simp⟩
  · change s.arrived.length ≤ k + 1 + 63
    omega
  · intro j x hj hx
    change k + 1 ≤ j at hj
    exact h.slots j x (by omega) hx
  · intro i
    have hstored := h.stored i
    rw [hdst] at hstored
    change Function.update s.dst k c i = ((s.arrived.take (k + 1))[i]?).getD (dst i)
    have hlen : (s.arrived.take k).length = k := by
      rw [List.length_take, Nat.min_eq_left (Nat.le_of_lt hlt)]
    rw [take_succ_of_getElem? hc]
    by_cases hi : i = k
    · rw [hi, Function.update_self, List.getElem?_append_right (by omega), hlen, Nat.sub_self]
      rfl
    · rw [Function.update_of_ne hi, hstored]
      by_cases hik : i < k
      · rw [List.getElem?_append_left (by omega)]
      · rw [List.getElem?_eq_none (by omega), List.getElem?_eq_none]
        rw [List.length_append, List.length_singleton]
        omega

theorem Serves.advance (h : Serves t dst len k s) {c : BitVec 8} (hs : s.standing = .advance c) :
    Serves t dst len k (readStatement len s) := by
  have hstands := h.stands
  simp only [Stands, hs] at hstands
  obtain ⟨hread, hdst, hcount, hc⟩ := hstands
  simp only [readStatement, hs]
  refine ⟨h.mode, h.bufferWrite, h.copied, h.room, h.slots, h.stored, h.written, h.before,
    ⟨?_, hdst, hcount, hc⟩, by simp⟩
  change (s.console.bufferRead + 1).toNat = _
  rw [toNat_succ (by omega), hread]

theorem Serves.wrap (h : Serves t dst len k s) {c : BitVec 8} (hs : s.standing = .wrap c) :
    Serves t dst len k (readStatement len s) := by
  have hstands := h.stands
  simp only [Stands, hs] at hstands
  obtain ⟨hread, hdst, hcount, hc⟩ := hstands
  simp only [readStatement, hs]
  split_ifs with hwrap
  · refine ⟨h.mode, h.bufferWrite, h.copied, h.room, h.slots, h.stored, h.written, h.before,
      ⟨?_, hdst, hcount, hc⟩, by simp⟩
    have hlast := congrArg BitVec.toNat hwrap
    rw [hread, show (64 : BitVec 8).toNat = 64 from rfl] at hlast
    change 0 = _
    omega
  · refine ⟨h.mode, h.bufferWrite, h.copied, h.room, h.slots, h.stored, h.written, h.before,
      ⟨?_, hdst, hcount, hc⟩, by simp⟩
    have hne : s.console.bufferRead.toNat ≠ 64 := fun he => hwrap (BitVec.eq_of_toNat_eq he)
    change s.console.bufferRead.toNat = _
    omega

theorem Serves.echo (h : Serves t dst len k s) {c : BitVec 8} (hs : s.standing = .echo c) :
    Serves t dst len k (readStatement len s) := by
  have hstands := h.stands
  simp only [Stands, hs] at hstands
  obtain ⟨hread, hdst, hcount, hc⟩ := hstands
  have hwritten := h.written
  rw [hcount] at hwritten
  simp only [readStatement, hs, hcount]
  by_cases hecho : t.mode &&& consoleModeEcho ≠ 0
  · rw [if_pos hecho] at hwritten
    rw [if_pos (h.mode.symm ▸ hecho)]
    refine ⟨h.mode, h.bufferWrite, h.copied, h.room, h.slots, h.stored, ?_, h.before,
      ⟨hread, hdst, rfl, hc⟩, by simp⟩
    change s.console.written ++ [c] = _
    rw [hwritten, if_pos hecho, take_succ_of_getElem? hc, List.append_assoc]
  · rw [if_neg hecho] at hwritten
    rw [if_neg (h.mode.symm ▸ hecho)]
    refine ⟨h.mode, h.bufferWrite, h.copied, h.room, h.slots, h.stored, ?_, h.before,
      ⟨hread, hdst, rfl, hc⟩, by simp⟩
    rw [if_neg hecho]
    exact hwritten

/-- The call returns, or the iteration for the next character begins. -/
theorem Serves.check (h : Serves t dst len k s) {c : BitVec 8} (hs : s.standing = .check c) :
    ∃ k', Serves t dst len k' (readStatement len s) := by
  have hstands := h.stands
  simp only [Stands, hs] at hstands
  obtain ⟨hread, hdst, hcount, hc⟩ := hstands
  have hends : EndsWith t.mode len s.arrived k ↔
      s.count = len ∨ c = 0x0a ∧ s.console.mode &&& consoleModeCanon ≠ 0 := by
    unfold EndsWith
    rw [hcount, hc, h.mode, Option.some.injEq]
  simp only [readStatement, hs]
  split_ifs with hdone
  · exact ⟨k, h.mode, h.bufferWrite, h.copied, h.room, h.slots, h.stored, h.written, h.before,
      ⟨hread, hdst, hcount⟩, fun _ => hends.mpr hdone⟩
  · refine ⟨k + 1, h.mode, h.bufferWrite, h.copied, h.room, h.slots, h.stored, h.written, ?_,
      ⟨hread, hdst, hcount⟩, by simp⟩
    intro i hi
    rcases Nat.lt_succ_iff_lt_or_eq.mp hi with hi | rfl
    · exact h.before i hi
    · exact fun hend => hdone (hends.mp hend)

theorem Serves.event (h : Serves t dst len k s) {e : ReadEvent} (hroom : RoomToAdd s e) :
    ∃ k', Serves t dst len k' (readEvent len s e) := by
  cases e with
  | add c => exact ⟨k, h.add hroom⟩
  | statement =>
    cases hs : s.standing with
    | test => exact ⟨k, h.test hs⟩
    | fetch => exact ⟨k, h.fetch hs⟩
    | copy c => exact ⟨k, h.copy hs⟩
    | advance c => exact ⟨k, h.advance hs⟩
    | wrap c => exact ⟨k, h.wrap hs⟩
    | echo c => exact ⟨k, h.echo hs⟩
    | check c => exact h.check hs
    | returned =>
      have hstay : readStatement len s = s := by simp only [readStatement, hs]
      refine ⟨k, ?_⟩
      change Serves t dst len k (readStatement len s)
      rw [hstay]
      exact h

end steps

section calls

variable {m : ConsoleMemory} {t : Console} {dst : ℕ → BitVec 8} {len k : ℕ} {s : ReadState}

theorem getElem?_contents {j : ℕ} {c : BitVec 8} (h : t.ring.contents[j]? = some c) :
    j < t.ring.count ∧ t.buffer (Ring.offset t.bufferRead j) = c := by
  unfold Ring.contents at h
  rw [List.getElem?_map] at h
  obtain ⟨i, hi, hc⟩ := Option.map_eq_some_iff.mp h
  obtain ⟨hlt, hij⟩ := List.getElem?_eq_some_iff.mp hi
  rw [List.length_range] at hlt
  rw [List.getElem_range] at hij
  subst hij
  exact ⟨hlt, hc⟩

theorem length_contents (t : Console) : t.ring.contents.length = t.ring.count := by
  rw [Ring.contents, List.length_map, List.length_range]

theorem serves_readCall (h : Represents m t) (dst : ℕ → BitVec 8) (hlen : 0 < len) :
    Serves t dst len 0 (readCall m t dst len) := by
  have hcount : t.ring.count < 64 := Ring.count_lt _
  have hlength := length_contents t
  constructor
  case mode => exact h.mode
  case bufferWrite =>
    change m.bufferWrite.toNat = (_ + t.ring.contents.length) % 64
    rw [h.bufferWrite, hlength]
    exact (congrArg Fin.val t.ring.offset_count).symm
  case copied => exact Nat.zero_le _
  case room =>
    change t.ring.contents.length ≤ 0 + 63
    omega
  case slots =>
    intro j c _ hc
    obtain ⟨-, hslot⟩ := getElem?_contents hc
    rw [← hslot, ← h.buffer]
    rfl
  case stored => exact fun _ => rfl
  case written =>
    change m.written = t.written ++ if _ then t.ring.contents.take 0 else []
    rw [h.written, List.take_zero, ite_self, List.append_nil]
  case before => exact fun i hi => absurd hi (Nat.not_lt_zero i)
  case stands =>
    unfold Stands readCall
    rw [if_neg (Nat.ne_of_gt hlen)]
    refine ⟨?_, rfl, rfl⟩
    rw [h.bufferRead, Nat.add_zero]
    exact (Nat.mod_eq_of_lt t.bufferRead.isLt).symm
  case ends =>
    unfold readCall
    rw [if_neg (Nat.ne_of_gt hlen)]
    intro hs
    cases hs

theorem readStatement_arrived (len : ℕ) (s : ReadState) :
    (readStatement len s).arrived = s.arrived := by
  unfold readStatement
  cases s.standing with
  | test =>
    dsimp only
    split_ifs <;> rfl
  | check c =>
    dsimp only
    split_ifs <;> rfl
  | _ => rfl

theorem arrived_finalState (len : ℕ) (s : ReadState) (es : List ReadEvent) :
    (finalState s (trace (readEvent len) s es)).arrived = s.arrived ++ addedBy es := by
  induction es generalizing s with
  | nil => exact (List.append_nil _).symm
  | cons e es ih =>
    have hevent : (readEvent len s e).arrived = s.arrived ++ e.added := by
      cases e with
      | add c => rfl
      | statement => exact (readStatement_arrived len s).trans (List.append_nil _).symm
    rw [trace, finalState, ih, hevent, List.append_assoc]
    rfl

/-- The character that ends a call is the last of those that it is to read. -/
theorem charactersRead_eq {mode : BitVec 8} {arrived : List (BitVec 8)} (hlen : 0 < len)
    (hk : k < arrived.length) (hbefore : ∀ i < k, ¬ EndsWith mode len arrived i)
    (hends : EndsWith mode len arrived k) : charactersRead mode len arrived = k + 1 := by
  have hle : k + 1 ≤ len := by
    by_contra hlt
    exact hbefore (len - 1) (by omega) (.inl (by omega))
  unfold charactersRead
  by_cases hcanon : mode &&& consoleModeCanon ≠ 0
  · have hnot : ∀ i < k, ∀ hi : i < arrived.length, arrived[i] ≠ 0x0a := by
      intro i hik hi hnl
      refine hbefore i hik (.inr ⟨?_, hcanon⟩)
      rw [List.getElem?_eq_getElem hi, hnl]
    have hfirst : k ≤ arrived.findIdx (· = 0x0a) := by
      apply List.le_findIdx_of_not hk
      intro i hi
      simpa using hnot i hi (Nat.lt_trans hi hk)
    rw [if_pos hcanon]
    rcases hends with hends | ⟨hnl, -⟩
    · omega
    · have hidx : arrived.findIdx (· = 0x0a) = k := by
        rw [List.findIdx_eq hk]
        rw [List.getElem?_eq_getElem hk] at hnl
        refine ⟨by simpa using hnl, fun i hi => ?_⟩
        simpa using hnot i hi (Nat.lt_trans hi hk)
      omega
  · rw [if_neg hcanon]
    rcases hends with hends | ⟨-, hmode⟩
    · exact hends.symm
    · exact absurd hmode hcanon

/-- The console after an iteration that reads a character. -/
def ConsoleMemory.afterRead (m : ConsoleMemory) (c : BitVec 8) : ConsoleMemory :=
  { m with
    bufferRead := if m.bufferRead + 1 = 64 then 0 else m.bufferRead + 1
    written := if m.mode &&& consoleModeEcho ≠ 0 then m.written ++ [c] else m.written }

theorem Represents.afterRead (h : Represents m t) {c : BitVec 8} {t' : Console}
    (hread : consoleReadIteration t = some (c, t')) :
    m.bufferRead ≠ m.bufferWrite ∧ m.buffer m.bufferRead.toNat = c ∧
      Represents (m.afterRead c) t' := by
  have hlt : m.bufferRead.toNat < 64 := h.bufferRead ▸ t.bufferRead.isLt
  have hnext : (if m.bufferRead + 1 = 64 then 0 else m.bufferRead + 1).toNat =
      (incrementIndex t.bufferRead).val := by
    rw [toNat_wrapped hlt, h.bufferRead, incrementIndex_eq_next]
    rfl
  unfold consoleReadIteration at hread
  split at hread
  case isTrue => cases hread
  case isFalse hne =>
    obtain ⟨rfl, rfl⟩ := Prod.mk.inj (Option.some.inj hread)
    refine ⟨fun he => hne (Fin.ext ?_), ?_, ?_⟩
    · rw [← h.bufferRead, ← h.bufferWrite, he]
    · rw [h.bufferRead, h.buffer]
    · unfold ConsoleMemory.afterRead
      dsimp only
      rw [h.mode]
      by_cases hecho : t.mode &&& consoleModeEcho ≠ 0
      · rw [if_pos hecho, if_pos hecho]
        exact ⟨h.buffer, hnext, h.bufferWrite, rfl, by rw [h.written]⟩
      · rw [if_neg hecho, if_neg hecho]
        exact ⟨h.buffer, hnext, h.bufferWrite, rfl, h.written⟩

/-- The statements of an iteration that nothing interrupts do what `consoleReadIteration` does. -/
theorem Represents.iteration (h : Represents s.console t) (hs : s.standing = .test)
    {c : BitVec 8} {t' : Console} (hread : consoleReadIteration t = some (c, t')) :
    ∃ m', Represents m' t' ∧ finalState s
        (trace (readEvent len) s (.replicate 7 .statement)) =
      { s with
        console := m'
        standing := if consoleReadDone t' (s.count + 1) len c then .returned else .test
        count := s.count + 1
        dst := Function.update s.dst s.dstBuffer c
        dstBuffer := s.dstBuffer + 1 } := by
  obtain ⟨hne, hslot, hafter⟩ := h.afterRead hread
  refine ⟨s.console.afterRead c, hafter, ?_⟩
  have hmode : s.console.mode = t'.mode := hafter.mode
  simp only [List.replicate, trace, finalState, readEvent, readStatement, hs, if_neg hne, hslot,
    consoleReadDone, ConsoleMemory.afterRead, decide_eq_true_eq, ← hmode]
  -- the index, the echo, and whether the call returns
  by_cases hwrap : s.console.bufferRead + 1 = 64 <;>
    by_cases hecho : s.console.mode &&& consoleModeEcho = 0 <;>
      by_cases hdone : s.count + 1 = len ∨ c = 0x0a ∧ s.console.mode &&& consoleModeCanon ≠ 0 <;>
        simp only [hwrap, hecho, hdone, if_true, if_false, ne_eq, not_true, not_false_eq_true]

/-- The console after a call that has returned: what has not been read is in its buffer. -/
theorem Serves.represents (h : Serves t dst len k s) (hs : s.standing = .returned) :
    ∃ t', Represents s.console t' ∧ t'.ring.contents = s.arrived.drop (k + 1) := by
  have hstands := h.stands
  simp only [Stands, hs] at hstands
  obtain ⟨hread, hdst, -⟩ := hstands
  have hwrite := h.bufferWrite
  have hroom := h.room
  have hcopied := h.copied
  let t' : Console := {
    buffer := fun i => s.console.buffer i
    bufferRead := ⟨s.console.bufferRead.toNat, by rw [hread]; exact Nat.mod_lt _ (by decide)⟩
    bufferWrite := ⟨s.console.bufferWrite.toNat, by rw [hwrite]; exact Nat.mod_lt _ (by decide)⟩
    mode := s.console.mode
    written := s.console.written }
  have hcount : t'.ring.count = s.arrived.length - (k + 1) := by
    change (s.console.bufferWrite.toNat + 64 - s.console.bufferRead.toNat) % 64 = _
    omega
  refine ⟨t', ⟨fun _ => rfl, rfl, rfl, rfl, rfl⟩, ?_⟩
  apply List.ext_getElem
  · rw [length_contents, hcount, List.length_drop]
  · intro j hj hj'
    rw [List.length_drop] at hj'
    have hlt : k + 1 + j < s.arrived.length := by omega
    obtain ⟨-, hslot⟩ := getElem?_contents (List.getElem?_eq_getElem hj)
    have harrived := h.slots (k + 1 + j) _ (by omega) (List.getElem?_eq_getElem hlt)
    rw [← hslot, List.getElem_drop, ← harrived]
    change s.console.buffer ((s.console.bufferRead.toNat + j) % 64) = _
    congr 1
    omega

end calls

/-- When a call returns, with characters added between any two of its statements but never more
than 63 of them unread, it has read the characters in order: `len`, or those up to the first
newline in canonical mode. They are in the caller's buffer, and on the device in echo mode; the
later ones are in the console's. -/
theorem consoleRead_reads (t : Console) (m : ConsoleMemory) (hm : Represents m t)
    (dst : ℕ → BitVec 8) (len : ℕ) (hlen : 0 < len) (es : List ReadEvent)
    (hroom : Guarded RoomToAdd (readCall m t dst len)
      (trace (readEvent len) (readCall m t dst len) es))
    (hreturned : (finalState (readCall m t dst len)
      (trace (readEvent len) (readCall m t dst len) es)).standing = .returned) :
    let s := finalState (readCall m t dst len) (trace (readEvent len) (readCall m t dst len) es)
    let arrived := t.ring.contents ++ addedBy es
    let k := charactersRead t.mode len arrived
    k ≤ arrived.length ∧ (∀ i < k, some (s.dst i) = arrived[i]?) ∧ (∀ i ≥ k, s.dst i = dst i) ∧
      s.console.written =
        t.written ++ (if t.mode &&& consoleModeEcho ≠ 0 then arrived.take k else []) ∧
      (∃ t', Represents s.console t' ∧ t'.ring.contents = arrived.drop k) ∧
      s.console.bufferRead.toNat < 64 ∧ s.console.bufferWrite.toNat < 64 := by
  intro s arrived k
  have harrived : s.arrived = arrived := arrived_finalState ..
  have hstart := serves_readCall hm dst hlen
  have hserves := (path_trace (readEvent len) (readCall m t dst len) es).invariant_of_guarded
    (I := fun s => ∃ k, Serves t dst len k s)
    (by
      rintro s e s' ⟨k, h⟩ hroom rfl
      exact h.event hroom) ⟨0, hstart⟩ hroom
  obtain ⟨last, h⟩ : ∃ k, Serves t dst len k s :=
    finalState_of_forall (P := fun s => ∃ k, Serves t dst len k s) ⟨0, hstart⟩ hserves
  have hstands := h.stands
  simp only [Stands, show s.standing = .returned from hreturned] at hstands
  obtain ⟨hread, hdst, hcount⟩ := hstands
  have hcopied := h.copied
  have hk : k = last + 1 := charactersRead_eq hlen (by rw [← harrived]; omega)
    (harrived ▸ h.before) (harrived ▸ h.ends hreturned)
  have hle : k ≤ arrived.length := by
    rw [← harrived]
    omega
  have hstored := h.stored
  have hwritten := h.written
  rw [hdst, harrived, ← hk] at hstored
  rw [hcount, harrived, ← hk] at hwritten
  refine ⟨hle, fun i hi => ?_, fun i hi => ?_, hwritten, ?_, ?_, ?_⟩
  · have hlt : i < (arrived.take k).length := by
      rw [List.length_take]
      omega
    rw [hstored, List.getElem?_eq_getElem hlt, Option.getD_some, List.getElem_take,
      List.getElem?_eq_getElem (Nat.lt_of_lt_of_le hi hle)]
  · rw [hstored, List.getElem?_eq_none, Option.getD_none]
    rw [List.length_take]
    omega
  · rw [hk, ← harrived]
    exact h.represents hreturned
  · rw [hread]
    exact Nat.mod_lt _ (by decide)
  · rw [h.bufferWrite]
    exact Nat.mod_lt _ (by decide)

/-- The memory that `console_setup` has filled. -/
def consoleMemorySetup : ConsoleMemory where
  buffer _ := 0
  bufferRead := 0
  bufferWrite := 0
  mode := consoleModeCanon
  written := []

theorem represents_consoleSetup : Represents consoleMemorySetup consoleSetup :=
  ⟨fun _ => rfl, rfl, rfl, rfl, rfl⟩

/-- A call for one character, which the keyboard adds while the call waits. -/
theorem consoleRead_reads_letter :
    let s := finalState (readCall consoleMemorySetup consoleSetup (fun _ => 0) 1)
      (trace (readEvent 1) (readCall consoleMemorySetup consoleSetup (fun _ => 0) 1)
        (.statement :: .add 0x61 :: List.replicate 7 .statement))
    s.dst 0 = 0x61 ∧ s.dst 1 = 0 ∧ s.console.written = [] := by
  have h := consoleRead_reads consoleSetup consoleMemorySetup represents_consoleSetup (fun _ => 0) 1
    Nat.one_pos (.statement :: .add 0x61 :: List.replicate 7 .statement)
    (by simp [List.replicate, trace, Guarded, Along, RoomToAdd, readCall, readEvent, readStatement,
      consoleMemorySetup, consoleSetup, Console.ring, Ring.contents, Ring.count])
    rfl
  obtain ⟨-, hstored, hrest, hwritten, -⟩ := h
  exact ⟨Option.some.inj (hstored 0 (by decide)), hrest 1 (by decide), hwritten⟩

end Einherjar.Io
