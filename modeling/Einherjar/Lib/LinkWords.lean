import Mathlib.Data.Sum.Basic
import Einherjar.Lib.DoublyLinked
import Einherjar.Lib.Words

/-! Intrusive tail queues in a memory of bytes: the operations of `queue.h` change the words of the
heads and of the link fields as they change the links. -/
namespace Einherjar.Lib.Memory

/-- `TAILQ_INSERT_TAIL`, for elements with the link field at the given offset. -/
def tailqInsertTail (field : BitVec 32) (mem : Memory 32) (head elm : BitVec 32) : Memory 32 :=
  let mem := mem.store32 (elm + field) 0
  let mem := mem.store32 (elm + field + 4) (mem.load32 (head + 4))
  let mem := mem.store32 (mem.load32 (head + 4)) elm
  mem.store32 (head + 4) (elm + field)

/-- `TAILQ_INSERT_HEAD` -/
def tailqInsertHead (field : BitVec 32) (mem : Memory 32) (head elm : BitVec 32) : Memory 32 :=
  let mem := mem.store32 (elm + field) (mem.load32 head)
  let mem := if mem.load32 (elm + field) ≠ 0 then
      mem.store32 (mem.load32 head + field + 4) (elm + field)
    else mem.store32 (head + 4) (elm + field)
  let mem := mem.store32 head elm
  mem.store32 (elm + field + 4) head

/-- `TAILQ_REMOVE` -/
def tailqRemove (field : BitVec 32) (mem : Memory 32) (head elm : BitVec 32) : Memory 32 :=
  let mem := if mem.load32 (elm + field) ≠ 0 then
      mem.store32 (mem.load32 (elm + field) + field + 4) (mem.load32 (elm + field + 4))
    else mem.store32 (head + 4) (mem.load32 (elm + field + 4))
  mem.store32 (mem.load32 (elm + field + 4)) (mem.load32 (elm + field))

/-- The insertion writes the link field of the element, the word at the end of the queue, and the
pointer to it. -/
theorem tailqInsertTail_outside {field head elm : BitVec 32} (mem : Memory 32)
    (hhead : Disjoint (extent (elm + field) 8) (extent (head + 4) 4)) :
    SameOutside (extent (elm + field) 8 ∪
      (extent (mem.load32 (head + 4)) 4 ∪ extent (head + 4) 4)) mem
      (tailqInsertTail field mem head elm) := by
  have hnext := extent_sub (a := elm + field) (k := 0) (m := 4) (n := 8) (by omega)
  have hprev := extent_sub (a := elm + field) (k := 4) (m := 4) (n := 8) (by omega)
  rw [BitVec.add_zero] at hnext
  have h1 := (store32_outside mem (elm + field) 0).mono hnext
  have hlast := h1.load32 hhead.symm
  have h2 := h1.trans ((store32_outside _ (elm + field + 4) (mem.load32 (head + 4))).mono hprev)
  have hlast' := h2.load32 hhead.symm
  dsimp only [tailqInsertTail]
  rw [hlast, hlast']
  have hslot : extent (mem.load32 (head + 4)) 4 ⊆ extent (elm + field) 8 ∪
      (extent (mem.load32 (head + 4)) 4 ∪ extent (head + 4) 4) := fun _ hc => .inr (.inl hc)
  have hend : extent (head + 4) 4 ⊆ extent (elm + field) 8 ∪
      (extent (mem.load32 (head + 4)) 4 ∪ extent (head + 4) 4) := fun _ hc => .inr (.inr hc)
  exact ((h2.mono fun _ hc => .inl hc).trans ((store32_outside _ _ _).mono hslot)).trans
    ((store32_outside _ _ _).mono hend)

end Einherjar.Lib.Memory

namespace Einherjar.Lib
open TailQueue

/-- The words of the heads of queues and of the link fields of their elements. -/
inductive LinkField (η : Type*) where
  | link (c : Slot η (BitVec 32))
  | tqePrev (elm : BitVec 32)
  | tqhLast (head : η)
  deriving DecidableEq

namespace LinkField

variable {η : Type*}

/-- A field of a head, or of one of the elements. -/
def Within (elms : Set (BitVec 32)) : LinkField η → Prop
  | .link .null => False
  | .link (.first _) => True
  | .link (.next elm) => elm ∈ elms
  | .tqePrev elm => elm ∈ elms
  | .tqhLast _ => True

variable {elms elms' : Set (BitVec 32)} {m : Links η (BitVec 32)} {head : η}
  {xs ys : List (BitVec 32)} {d : BitVec 32}

theorem Within.mono {f : LinkField η} (h : Within elms f) (hsub : elms ⊆ elms') :
    Within elms' f := by
  rcases f with (_ | _ | _) | _ | _
  · exact h
  · trivial
  · exact hsub h
  · exact hsub h
  · trivial

theorem within_last (h : Queue m head xs) (hds : ∀ d ∈ xs, d ∈ elms) :
    Within elms (.link (m.tqhLast head)) := by
  rcases h.last_eq with he | ⟨x, hx, he⟩
  · rw [he]
    trivial
  · rw [he]
    exact hds x hx

theorem within_prev (h : Tailq m head (xs ++ d :: ys)) (hds : ∀ e ∈ xs ++ d :: ys, e ∈ elms) :
    Within elms (.link (m.tqePrev d)) := by
  rcases h.prev_eq.2 with he | ⟨y, hy, he⟩
  · rw [he]
    trivial
  · rw [he]
    exact hds y (List.mem_append_left _ hy)

end LinkField

def pointer (p : Option (BitVec 32)) : BitVec 32 := p.getD 0

def asPointer (a : BitVec 32) : Option (BitVec 32) := if a = 0 then none else some a

@[simp] theorem pointer_none : pointer none = 0 := rfl
@[simp] theorem pointer_some (d : BitVec 32) : pointer (some d) = d := rfl

theorem pointer_asPointer (a : BitVec 32) : pointer (asPointer a) = a := by
  unfold asPointer
  split_ifs with h
  · exact h.symm
  · rfl

theorem asPointer_pointer {p : Option (BitVec 32)} (h : p ≠ some 0) :
    asPointer (pointer p) = p := by
  cases p with
  | none => rfl
  | some d => exact if_neg fun hd => h (congrArg some hd)

/-- Where the heads are, and the offset of the link field in an element. -/
structure QueueLayout (η : Type*) where
  head : η → BitVec 32
  next : BitVec 32

namespace QueueLayout

variable {η ψ : Type*} (L : QueueLayout η)

/-- The address that a pointer to a pointer holds. -/
def slotAddress : Slot η (BitVec 32) → BitVec 32
  | .null => 0
  | .first head => L.head head
  | .next elm => elm + L.next

def word : LinkField η → BitVec 32
  | .link c => L.slotAddress c
  | .tqePrev elm => elm + L.next + 4
  | .tqhLast head => L.head head + 4

/-- What the links put in the fields. -/
def value (m : Links η (BitVec 32)) : LinkField η → BitVec 32
  | .link c => pointer (m.load c)
  | .tqePrev elm => L.slotAddress (m.tqePrev elm)
  | .tqhLast head => L.slotAddress (m.tqhLast head)

/-- The fields of the queues have the values of the links, and further fields have others. -/
abbrev Tracks (w : ψ → BitVec 32) (fields : Set (LinkField η ⊕ ψ)) (start mem : Memory 32)
    (m : Links η (BitVec 32)) (v : ψ → BitVec 32) : Prop :=
  Memory.Tracks (Sum.elim L.word w) fields start mem (Sum.elim (L.value m) v)

variable {L} {w v : ψ → BitVec 32} {fields : Set (LinkField η ⊕ ψ)} {start mem : Memory 32}
  {m : Links η (BitVec 32)} {c : Slot η (BitVec 32)} {head : η} {d : BitVec 32}

section loads

variable (h : L.Tracks w fields start mem m v)

include h

theorem Tracks.load_link (hc : .inl (.link c) ∈ fields) :
    mem.load32 (L.slotAddress c) = pointer (m.load c) := h.load (.inl (.link c)) hc

theorem Tracks.load_next (hd : .inl (.link (.next d)) ∈ fields) :
    mem.load32 (d + L.next) = pointer (m.load (.next d)) := h.load (.inl (.link (.next d))) hd

theorem Tracks.load_prev (hd : .inl (.tqePrev d) ∈ fields) :
    mem.load32 (d + L.next + 4) = L.slotAddress (m.tqePrev d) := h.load (.inl (.tqePrev d)) hd

theorem Tracks.load_last (hhead : .inl (.tqhLast head) ∈ fields) :
    mem.load32 (L.head head + 4) = L.slotAddress (m.tqhLast head) :=
  h.load (.inl (.tqhLast head)) hhead

end loads

variable [DecidableEq η] [DecidableEq ψ]

section stores

theorem value_store (m : Links η (BitVec 32)) (c : Slot η (BitVec 32)) (p : Option (BitVec 32)) :
    Function.update (L.value m) (.link c) (pointer p) = L.value (m.store c p) := by
  funext f
  cases f with
  | link c' =>
    by_cases h : c' = c
    · simp [h, value]
    · simp [h, value]
  | _ => rfl

theorem value_setPrev (m : Links η (BitVec 32)) (d : BitVec 32) (c : Slot η (BitVec 32)) :
    Function.update (L.value m) (.tqePrev d) (L.slotAddress c) = L.value (m.setPrev d c) := by
  funext f
  cases f with
  | tqePrev e =>
    by_cases h : e = d
    · simp [h, value]
    · simp [h, value]
  | _ => rfl

theorem value_setLast (m : Links η (BitVec 32)) (head : η) (c : Slot η (BitVec 32)) :
    Function.update (L.value m) (.tqhLast head) (L.slotAddress c) = L.value (m.setLast head c) := by
  funext f
  cases f with
  | tqhLast other =>
    by_cases h : other = head
    · simp [h, value]
    · simp [h, value]
  | _ => rfl

variable (h : L.Tracks w fields start mem m v) (hsep : Memory.Separate (Sum.elim L.word w) fields)

include h hsep

theorem Tracks.store (hc : .inl (.link c) ∈ fields) (p : Option (BitVec 32)) :
    L.Tracks w fields start (mem.store32 (L.slotAddress c) (pointer p)) (m.store c p) v := by
  have hstore := Memory.Tracks.store h hsep hc (pointer p)
  rwa [Sum.update_elim_inl, value_store] at hstore

theorem Tracks.setPrev (hd : .inl (.tqePrev d) ∈ fields) (c : Slot η (BitVec 32)) :
    L.Tracks w fields start (mem.store32 (d + L.next + 4) (L.slotAddress c)) (m.setPrev d c) v := by
  have hstore := Memory.Tracks.store h hsep hd (L.slotAddress c)
  rwa [Sum.update_elim_inl, value_setPrev] at hstore

theorem Tracks.setLast (hhead : .inl (.tqhLast head) ∈ fields) (c : Slot η (BitVec 32)) :
    L.Tracks w fields start (mem.store32 (L.head head + 4) (L.slotAddress c))
      (m.setLast head c) v := by
  have hstore := Memory.Tracks.store h hsep hhead (L.slotAddress c)
  rwa [Sum.update_elim_inl, value_setLast] at hstore

/-- A store to one of the further fields. -/
theorem Tracks.storeOther {g : ψ} (hg : .inr g ∈ fields) (a : BitVec 32) :
    L.Tracks w fields start (mem.store32 (w g) a) m (Function.update v g a) := by
  have hstore := Memory.Tracks.store h hsep hg a
  rwa [Sum.update_elim_inr] at hstore

/-- The link field of the element, the head of the queue and the end of the queue are fields. -/
theorem Tracks.insertTail (head : η) (hnext : .inl (.link (.next d)) ∈ fields)
    (hprev : .inl (.tqePrev d) ∈ fields) (hhead : .inl (.tqhLast head) ∈ fields)
    (hlast : .inl (.link (m.tqhLast head)) ∈ fields) :
    L.Tracks w fields start (mem.tailqInsertTail L.next (L.head head) d)
      (insertTail m head d) v := by
  have h₁ : L.Tracks w fields start (mem.store32 (d + L.next) 0) (m.store (.next d) none) v :=
    h.store (c := .next d) hsep hnext none
  have h₂ := h₁.setPrev hsep hprev (m.tqhLast head)
  have h₃ := h₂.store hsep hlast (some d)
  have hread : (mem.store32 (d + L.next) 0).load32 (L.head head + 4) =
      L.slotAddress (m.tqhLast head) := h₁.load_last hhead
  have hread' : ((mem.store32 (d + L.next) 0).store32 (d + L.next + 4)
      (L.slotAddress (m.tqhLast head))).load32 (L.head head + 4) =
      L.slotAddress (m.tqhLast head) := h₂.load_last hhead
  dsimp only [Memory.tailqInsertTail]
  rw [hread, hread']
  exact h₃.setLast hsep hhead (.next d)

/-- The links of the element lead to fields, and so does the way back from its successor. -/
theorem Tracks.remove (head : η) (hnext : .inl (.link (.next d)) ∈ fields)
    (hprev : .inl (.tqePrev d) ∈ fields) (hhead : .inl (.tqhLast head) ∈ fields)
    (hback : .inl (.link (m.tqePrev d)) ∈ fields)
    (hsucc : ∀ e, m.load (.next d) = some e → .inl (.tqePrev e) ∈ fields ∧ e ≠ 0) :
    L.Tracks w fields start (mem.tailqRemove L.next (L.head head) d) (remove m head d) v := by
  dsimp only [Memory.tailqRemove, TailQueue.remove]
  rw [h.load_next hnext, h.load_prev hprev]
  cases hload : m.load (.next d) with
  | none =>
    have hlast := h.setLast hsep hhead (m.tqePrev d)
    rw [pointer_none, if_neg (not_not_intro rfl), hlast.load_next hnext, hlast.load_prev hprev]
    exact hlast.store hsep hback _
  | some e =>
    obtain ⟨he, hne⟩ := hsucc e hload
    have hset := h.setPrev hsep he (m.tqePrev d)
    have hsame : (m.setPrev e (m.tqePrev d)).tqePrev d = m.tqePrev d := by
      by_cases hde : d = e
      · simp [hde]
      · simp [hde]
    rw [pointer_some, if_pos hne, hset.load_next hnext, hset.load_prev hprev]
    exact hset.store hsep (by rwa [hsame]) _

end stores

end QueueLayout

end Einherjar.Lib
