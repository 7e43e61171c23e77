import Mathlib.Data.List.Nodup
import Mathlib.Logic.Function.Basic

/-! Intrusive tail queues: the pointer operations of `queue.h` on a family of heads that
may share the link field of their elements, and what a walk along the links visits. -/
namespace Einherjar.Lib.TailQueue

/-- The address of a pointer to an element: the null address, the `tqh_first` field of a
head, or the `tqe_next` field of an element. -/
inductive Slot (η ν : Type*) where
  | null
  | first (head : η)
  | next (elm : ν)
  deriving DecidableEq

/-- The link fields in memory. `load` is the content of a slot, `none` standing for NULL;
`tqePrev` and `tqhLast` are the fields that hold the address of a slot. -/
structure Links (η ν : Type*) where
  load : Slot η ν → Option ν
  tqePrev : ν → Slot η ν
  tqhLast : η → Slot η ν

variable {η ν : Type*}

namespace Links

/-- `*c = v` -/
def store [DecidableEq η] [DecidableEq ν] (m : Links η ν) (c : Slot η ν) (v : Option ν) :
    Links η ν :=
  { m with load := Function.update m.load c v }

/-- `elm->field.tqe_prev = c` -/
def setPrev [DecidableEq ν] (m : Links η ν) (elm : ν) (c : Slot η ν) : Links η ν :=
  { m with tqePrev := Function.update m.tqePrev elm c }

/-- `head->tqh_last = c` -/
def setLast [DecidableEq η] (m : Links η ν) (head : η) (c : Slot η ν) : Links η ν :=
  { m with tqhLast := Function.update m.tqhLast head c }

section
variable [DecidableEq η] [DecidableEq ν] (m : Links η ν) (c : Slot η ν) (v : Option ν)

@[simp] theorem store_load : (m.store c v).load = Function.update m.load c v := rfl
@[simp] theorem store_tqePrev : (m.store c v).tqePrev = m.tqePrev := rfl
@[simp] theorem store_tqhLast : (m.store c v).tqhLast = m.tqhLast := rfl

end

section
variable [DecidableEq ν] (m : Links η ν) (elm : ν) (c : Slot η ν)

@[simp] theorem setPrev_load : (m.setPrev elm c).load = m.load := rfl
@[simp] theorem setPrev_tqePrev :
    (m.setPrev elm c).tqePrev = Function.update m.tqePrev elm c := rfl
@[simp] theorem setPrev_tqhLast : (m.setPrev elm c).tqhLast = m.tqhLast := rfl

end

section
variable [DecidableEq η] (m : Links η ν) (head : η) (c : Slot η ν)

@[simp] theorem setLast_load : (m.setLast head c).load = m.load := rfl
@[simp] theorem setLast_tqePrev : (m.setLast head c).tqePrev = m.tqePrev := rfl
@[simp] theorem setLast_tqhLast :
    (m.setLast head c).tqhLast = Function.update m.tqhLast head c := rfl

end

end Links

/-- `TAILQ_FIRST` -/
def first (m : Links η ν) (head : η) : Option ν := m.load (.first head)

/-- `TAILQ_EMPTY` -/
def isEmpty (m : Links η ν) (head : η) : Bool := (m.load (.first head)).isNone

section Operations
variable [DecidableEq η] [DecidableEq ν]

/-- `TAILQ_INIT` -/
def init (m : Links η ν) (head : η) : Links η ν :=
  (m.store (.first head) none).setLast head (.first head)

/-- `TAILQ_INSERT_HEAD` -/
def insertHead (m : Links η ν) (head : η) (elm : ν) : Links η ν :=
  let m := m.store (.next elm) (m.load (.first head))
  let m := match m.load (.first head) with
    | some oldFirst => m.setPrev oldFirst (.next elm)
    | none => m.setLast head (.next elm)
  (m.store (.first head) (some elm)).setPrev elm (.first head)

/-- `TAILQ_INSERT_TAIL` -/
def insertTail (m : Links η ν) (head : η) (elm : ν) : Links η ν :=
  let m := m.store (.next elm) none
  let m := m.setPrev elm (m.tqhLast head)
  let m := m.store (m.tqhLast head) (some elm)
  m.setLast head (.next elm)

/-- `TAILQ_REMOVE` -/
def remove (m : Links η ν) (head : η) (elm : ν) : Links η ν :=
  let m := match m.load (.next elm) with
    | some successor => m.setPrev successor (m.tqePrev elm)
    | none => m.setLast head (m.tqePrev elm)
  m.store (m.tqePrev elm) (m.load (.next elm))

section FieldEffects
variable (m : Links η ν) (head : η) (elm : ν)

theorem insertTail_load : (insertTail m head elm).load =
    Function.update (Function.update m.load (.next elm) none) (m.tqhLast head) (some elm) := rfl

@[simp] theorem insertTail_tqePrev : (insertTail m head elm).tqePrev =
    Function.update m.tqePrev elm (m.tqhLast head) := rfl

@[simp] theorem insertTail_tqhLast : (insertTail m head elm).tqhLast =
    Function.update m.tqhLast head (.next elm) := rfl

/-- What the link field of the new element contains is overwritten. -/
theorem insertTail_of_unlinked (p : Option ν) (c : Slot η ν) :
    insertTail ((m.store (.next elm) p).setPrev elm c) head elm = insertTail m head elm := by
  simp [insertTail, Links.store, Links.setPrev, Links.setLast]

/-- The slot that pointed to the element takes over its successor, also when a stale
`tqe_prev` is the element's own link. -/
theorem remove_load : (remove m head elm).load =
    Function.update m.load (m.tqePrev elm) (m.load (.next elm)) := by
  cases h : m.load (.next elm) with
  | none => simp [remove, h]
  | some successor =>
    by_cases hs : successor = elm
    · subst hs; simp [remove, h]
    · simp [remove, h, Function.update_of_ne (Ne.symm hs)]

theorem remove_tqePrev_of_some {successor : ν} (h : m.load (.next elm) = some successor) :
    (remove m head elm).tqePrev = Function.update m.tqePrev successor (m.tqePrev elm) := by
  simp [remove, h]

theorem remove_tqhLast_of_some {successor : ν} (h : m.load (.next elm) = some successor) :
    (remove m head elm).tqhLast = m.tqhLast := by
  simp [remove, h]

theorem remove_tqePrev_of_none (h : m.load (.next elm) = none) :
    (remove m head elm).tqePrev = m.tqePrev := by
  simp [remove, h]

theorem remove_tqhLast_of_none (h : m.load (.next elm) = none) :
    (remove m head elm).tqhLast = Function.update m.tqhLast head (m.tqePrev elm) := by
  simp [remove, h]

end FieldEffects

end Operations

/-- Following the links from slot `c` visits the elements of the list, in order. -/
def Linked (m : Links η ν) : Slot η ν → List ν → Prop
  | _, [] => True
  | c, x :: xs => m.load c = some x ∧ Linked m (.next x) xs

/-- The slot at which a walk over the list stands when it has visited all of it. -/
def endSlot : Slot η ν → List ν → Slot η ν
  | c, [] => c
  | _, x :: xs => endSlot (.next x) xs

/-- `TAILQ_FOREACH` from slot `c` visits exactly the list and then meets NULL. -/
def Walk (m : Links η ν) (c : Slot η ν) (xs : List ν) : Prop :=
  Linked m c xs ∧ m.load (endSlot c xs) = none

@[simp] theorem linked_nil (m : Links η ν) (c : Slot η ν) : Linked m c [] := trivial

@[simp] theorem linked_cons (m : Links η ν) (c : Slot η ν) (x : ν) (xs : List ν) :
    Linked m c (x :: xs) ↔ m.load c = some x ∧ Linked m (.next x) xs := Iff.rfl

@[simp] theorem endSlot_nil (c : Slot η ν) : endSlot c [] = c := rfl

@[simp] theorem endSlot_cons (c : Slot η ν) (x : ν) (xs : List ν) :
    endSlot c (x :: xs) = endSlot (.next x) xs := rfl

@[simp] theorem endSlot_append (c : Slot η ν) (xs ys : List ν) :
    endSlot c (xs ++ ys) = endSlot (endSlot c xs) ys := by
  induction xs generalizing c with
  | nil => rfl
  | cons x xs ih => exact ih _

theorem endSlot_concat (c : Slot η ν) (xs : List ν) (n : ν) :
    endSlot c (xs ++ [n]) = .next n := by simp

theorem linked_append (m : Links η ν) (c : Slot η ν) (xs ys : List ν) :
    Linked m c (xs ++ ys) ↔ Linked m c xs ∧ Linked m (endSlot c xs) ys := by
  induction xs generalizing c with
  | nil => simp
  | cons x xs ih => simp [ih, and_assoc]

/-- The end of a walk is its start or the link of an element it visited. -/
theorem endSlot_eq (c : Slot η ν) (xs : List ν) :
    endSlot c xs = c ∧ xs = [] ∨ ∃ x ∈ xs, endSlot c xs = .next x := by
  induction xs generalizing c with
  | nil => exact .inl ⟨rfl, rfl⟩
  | cons x xs ih =>
    right
    rcases ih (.next x) with ⟨h, -⟩ | ⟨y, hy, h⟩
    · exact ⟨x, List.mem_cons_self .., h⟩
    · exact ⟨y, List.mem_cons_of_mem _ hy, h⟩

theorem endSlot_ne_next {c : Slot η ν} {xs : List ν} {n : ν} (hc : c ≠ .next n)
    (hn : n ∉ xs) : endSlot c xs ≠ .next n := by
  rcases endSlot_eq c xs with ⟨h, -⟩ | ⟨x, hx, h⟩
  · rwa [h]
  · rw [h]
    intro heq
    exact hn (Slot.next.inj heq ▸ hx)

theorem endSlot_ne_first {c : Slot η ν} {xs : List ν} {h : η} (hxs : xs ≠ []) :
    endSlot c xs ≠ .first h := by
  rcases endSlot_eq c xs with ⟨-, h⟩ | ⟨x, -, h⟩
  · exact absurd h hxs
  · rw [h]; nofun

/-- Links that are left alone are still followed. -/
theorem Linked.congr {m m' : Links η ν} {c : Slot η ν} {xs : List ν} (h : Linked m c xs)
    (hc : m'.load c = m.load c) (hx : ∀ x ∈ xs.dropLast, m'.load (.next x) = m.load (.next x)) :
    Linked m' c xs := by
  induction xs generalizing c with
  | nil => trivial
  | cons x xs ih =>
    refine ⟨hc.trans h.1, ?_⟩
    cases xs with
    | nil => trivial
    | cons y ys =>
      exact ih h.2 (hx x (by simp)) fun z hz => hx z (by simp [hz])

theorem Walk.congr {m m' : Links η ν} {c : Slot η ν} {xs : List ν} (h : Walk m c xs)
    (hc : m'.load c = m.load c) (hx : ∀ x ∈ xs, m'.load (.next x) = m.load (.next x)) :
    Walk m' c xs := by
  refine ⟨h.1.congr hc fun x hxs => hx x (xs.dropLast_subset hxs), ?_⟩
  rcases endSlot_eq c xs with ⟨he, -⟩ | ⟨x, hxs, he⟩
  · have := h.2
    rw [he] at this ⊢
    exact hc.trans this
  · have := h.2
    rw [he] at this ⊢
    exact (hx x hxs).trans this

theorem walk_cons {m : Links η ν} {c : Slot η ν} {x : ν} {xs : List ν} :
    Walk m c (x :: xs) ↔ m.load c = some x ∧ Walk m (.next x) xs := by
  simp [Walk, and_assoc]

theorem walk_nil {m : Links η ν} {c : Slot η ν} : Walk m c [] ↔ m.load c = none := by
  simp [Walk]

/-- A finite walk is determined by its start. -/
theorem Walk.unique {m : Links η ν} {c : Slot η ν} {xs ys : List ν}
    (hx : Walk m c xs) (hy : Walk m c ys) : xs = ys := by
  induction xs generalizing c ys with
  | nil =>
    cases ys with
    | nil => rfl
    | cons y ys => exact absurd ((walk_nil.mp hx).symm.trans (walk_cons.mp hy).1) nofun
  | cons x xs ih =>
    cases ys with
    | nil => exact absurd ((walk_nil.mp hy).symm.trans (walk_cons.mp hx).1) nofun
    | cons y ys =>
      obtain ⟨h1, hx⟩ := walk_cons.mp hx
      obtain ⟨h2, hy⟩ := walk_cons.mp hy
      obtain rfl : x = y := Option.some.inj (h1.symm.trans h2)
      rw [ih hx hy]

theorem Walk.suffix {m : Links η ν} {c : Slot η ν} {xs ys : List ν} {x : ν}
    (h : Walk m c (xs ++ x :: ys)) : Walk m (.next x) ys := by
  obtain ⟨hl, he⟩ := h
  rw [linked_append] at hl
  simp only [endSlot_append, endSlot_cons] at he
  exact ⟨hl.2.2, he⟩

/-- A walk that ends visits no element twice: the links from both visits would agree. -/
theorem Walk.nodup {m : Links η ν} {c : Slot η ν} {xs : List ν} (h : Walk m c xs) : xs.Nodup := by
  rw [List.nodup_iff_sublist]
  intro x hs
  obtain ⟨r₁, r₂, hsplit, h1, h2⟩ := List.cons_sublist_iff.mp hs
  obtain ⟨a, b, rfl⟩ := List.append_of_mem h1
  obtain ⟨u, v, hv⟩ := List.append_of_mem (List.singleton_sublist.mp h2)
  subst hv
  have e1 : xs = a ++ x :: (b ++ (u ++ x :: v)) := by simp [hsplit]
  have e2 : xs = (a ++ x :: b ++ u) ++ x :: v := by simp [hsplit]
  have w1 : Walk m (.next x) (b ++ (u ++ x :: v)) := (e1 ▸ h).suffix
  have w2 : Walk m (.next x) v := (e2 ▸ h).suffix
  have hlen := congrArg List.length (w1.unique w2)
  simp at hlen
  omega

end Einherjar.Lib.TailQueue
