import Einherjar.Lib.TailQueue

/-! What the operations make of a tail queue: its elements, the slot behind them and the
`tqe_prev` field of the first. -/
namespace Einherjar.Lib.TailQueue

variable {η ν : Type*}

/-- The list is linked from the head, and `tqh_last` is the slot behind its last element.
Nothing is said of the content of that slot, nor of the `tqe_prev` fields. -/
def Chained (m : Links η ν) (head : η) (xs : List ν) : Prop :=
  Linked m (.first head) xs ∧ m.tqhLast head = endSlot (.first head) xs

/-- A chained list that a walk leaves through NULL. -/
def Queue (m : Links η ν) (head : η) (xs : List ν) : Prop :=
  Chained m head xs ∧ m.load (m.tqhLast head) = none

/-- The `tqe_prev` field of the first element, if there is one, is right. -/
def HeadPrev (m : Links η ν) (head : η) : Prop :=
  ∀ x, m.load (.first head) = some x → m.tqePrev x = .first head

theorem Queue.walk {m : Links η ν} {head : η} {xs : List ν} (h : Queue m head xs) :
    Walk m (.first head) xs := ⟨h.1.1, h.1.2 ▸ h.2⟩

theorem Queue.nodup {m : Links η ν} {head : η} {xs : List ν} (h : Queue m head xs) :
    xs.Nodup := h.walk.nodup

theorem queue_nil_iff {m : Links η ν} {head : η} :
    Queue m head [] ↔ m.tqhLast head = .first head ∧ m.load (.first head) = none := by
  constructor
  · intro h
    exact ⟨h.1.2, walk_nil.mp h.walk⟩
  · rintro ⟨hlast, hnone⟩
    exact ⟨⟨trivial, hlast⟩, hlast ▸ hnone⟩

section QueueOperations
variable [DecidableEq η] [DecidableEq ν] {m : Links η ν} {head : η}

theorem queue_init (m : Links η ν) (head : η) : Queue (init m head) head [] := by
  simp [Queue, Chained, init]

/-- An insertion writes two slots; links that avoid both are still followed. -/
theorem linked_insertTail {c : Slot η ν} {xs : List ν} {n : ν} (h : Linked m c xs)
    (hc : m.tqhLast head ≠ c ∨ xs = []) (hcn : c ≠ .next n)
    (hx : ∀ y ∈ xs.dropLast, y ≠ n ∧ m.tqhLast head ≠ .next y) :
    Linked (insertTail m head n) c xs := by
  cases xs with
  | nil => trivial
  | cons x xs =>
    have hc := hc.resolve_right (List.cons_ne_nil x xs)
    refine h.congr ?_ fun y hy => ?_
    · rw [insertTail_load, Function.update_of_ne hc.symm, Function.update_of_ne hcn]
    · obtain ⟨hyn, hyl⟩ := hx y hy
      rw [insertTail_load, Function.update_of_ne hyl.symm,
        Function.update_of_ne fun he => hyn (Slot.next.inj he)]

/-- Appending to a chained list keeps the links that lead to its last element. -/
theorem Chained.keeps_links {xs : List ν} {n : ν} (h : Chained m head xs)
    (hxs : xs.Nodup) (hn : n ∉ xs.dropLast) :
    Linked (insertTail m head n) (.first head) xs := by
  obtain ⟨hl, hlast⟩ := h
  rcases xs.eq_nil_or_concat' with rfl | ⟨ys, z, rfl⟩
  · trivial
  · rw [endSlot_concat] at hlast
    rw [List.dropLast_concat] at hn
    apply linked_insertTail hl (.inl (by rw [hlast]; nofun)) nofun
    intro y hy
    rw [List.dropLast_concat] at hy
    refine ⟨fun he => hn (he ▸ hy), ?_⟩
    rw [hlast]
    intro he
    exact (List.nodup_append.mp hxs).2.2 y hy z (by simp) (Slot.next.inj he).symm

theorem Chained.append {xs : List ν} {n : ν} (h : Chained m head xs) (hxs : xs.Nodup)
    (hn : n ∉ xs) : Queue (insertTail m head n) head (xs ++ [n]) := by
  have hend : m.tqhLast head ≠ .next n := h.2 ▸ endSlot_ne_next nofun hn
  have hl := h.keeps_links hxs fun hd => hn (xs.dropLast_subset hd)
  refine ⟨⟨(linked_append ..).mpr ⟨hl, ?_, trivial⟩, by simp⟩, ?_⟩
  · simp [insertTail_load, ← h.2]
  · simp [insertTail_load, Function.update_of_ne hend.symm]

/-- Inserting the last element once more links it to itself. -/
theorem Chained.append_last {xs : List ν} {n : ν} (h : Chained m head (xs ++ [n]))
    (hxs : (xs ++ [n]).Nodup) : Chained (insertTail m head n) head (xs ++ [n]) := by
  refine ⟨h.keeps_links hxs ?_, by simp⟩
  rw [List.dropLast_concat]
  exact fun hn => (List.nodup_append.mp hxs).2.2 n hn n (by simp) rfl

/-- Inserting an element that is linked further up cuts off what stood behind it. -/
theorem Chained.append_inner {xs ys : List ν} {n z : ν}
    (h : Chained m head (xs ++ n :: (ys ++ [z]))) (hxs : (xs ++ n :: (ys ++ [z])).Nodup) :
    Queue (insertTail m head n) head (xs ++ [n]) := by
  have hlast : m.tqhLast head = .next z := by simpa using h.2
  have hzn : z ≠ n := by
    rintro rfl
    simp [List.nodup_append] at hxs
  have hzx : z ∉ xs := fun hz => (List.nodup_append.mp hxs).2.2 z hz z (by simp) rfl
  have hnx : n ∉ xs := fun hn => (List.nodup_append.mp hxs).2.2 n hn n (by simp) rfl
  have hl : Linked m (.first head) (xs ++ [n]) := by
    have hall := h.1
    rw [List.append_cons] at hall
    exact ((linked_append ..).mp hall).1
  refine ⟨⟨linked_insertTail hl (.inl (by rw [hlast]; nofun)) nofun fun y hy => ?_, by simp⟩, ?_⟩
  · rw [List.dropLast_concat] at hy
    rw [hlast]
    exact ⟨fun he => hnx (he ▸ hy), fun he => hzx (Slot.next.inj he ▸ hy)⟩
  · simp [insertTail_load, hlast, Function.update_of_ne, hzn.symm]

theorem HeadPrev.append {x n : ν} {xs : List ν} (h : HeadPrev m head)
    (hl : Chained m head (x :: xs)) (hxn : x ≠ n) : HeadPrev (insertTail m head n) head := by
  intro y hy
  have hlast : m.tqhLast head ≠ .first head := hl.2 ▸ endSlot_ne_first (by simp)
  have hyx : m.load (.first head) = some y := by
    simpa [insertTail_load, Function.update_of_ne hlast.symm] using hy
  obtain rfl : x = y := Option.some.inj (hl.1.1.symm.trans hyx)
  simp [Function.update_of_ne hxn, h x hyx]

theorem headPrev_append_nil {n : ν} (h : Chained m head []) :
    HeadPrev (insertTail m head n) head := by
  intro y hy
  have hlast : m.tqhLast head = .first head := h.2
  obtain rfl : n = y := by simpa [insertTail_load, hlast] using hy
  simp [hlast]

/-- Removing the first element of several repairs the `tqe_prev` field of the second. -/
theorem Chained.remove_first {x y : ν} {xs : List ν} (h : Chained m head (x :: y :: xs))
    (hx : m.tqePrev x = .first head) :
    Chained (remove m head x) head (y :: xs) ∧ HeadPrev (remove m head x) head := by
  obtain ⟨⟨-, hy, hl⟩, hlast⟩ := h
  refine ⟨⟨⟨?_, hl.congr ?_ fun z _ => ?_⟩, ?_⟩, ?_⟩
  · simp [remove_load, hx, hy]
  · simp [remove_load, hx, Function.update_of_ne]
  · simp [remove_load, hx, Function.update_of_ne]
  · rw [remove_tqhLast_of_some _ _ _ hy, hlast]; rfl
  · intro z hz
    obtain rfl : y = z := by simpa [remove_load, hx, hy] using hz
    simp [remove_tqePrev_of_some _ _ _ hy, hx]

theorem Queue.remove_only {x : ν} (h : Queue m head [x]) (hx : m.tqePrev x = .first head) :
    Queue (remove m head x) head [] := by
  have hn : m.load (.next x) = none := by simpa [h.1.2] using h.2
  refine ⟨⟨trivial, ?_⟩, ?_⟩
  · simp [remove_tqhLast_of_none _ _ _ hn, hx]
  · simp [remove_tqhLast_of_none _ _ _ hn, remove_load, hx, hn]

/-- Taking the first element out and appending it turns the queue round by one. The end of
the queue may be a link of the last element to itself: the insertion overwrites it. -/
theorem Chained.rotate {x : ν} {xs : List ν} (h : Chained m head (x :: xs))
    (hxs : (x :: xs).Nodup) (hx : m.tqePrev x = .first head)
    (hend : xs = [] → m.load (.next x) = none) :
    Queue (insertTail (remove m head x) head x) head (xs ++ [x]) ∧
      HeadPrev (insertTail (remove m head x) head x) head := by
  obtain ⟨hnot, hnd⟩ := List.nodup_cons.mp hxs
  cases xs with
  | nil =>
    have hq : Queue m head [x] := ⟨h, by rw [h.2]; exact hend rfl⟩
    have hr := (hq.remove_only hx).1
    exact ⟨hr.append hnd hnot, headPrev_append_nil hr⟩
  | cons y ys =>
    obtain ⟨hr, hp⟩ := h.remove_first hx
    exact ⟨hr.append hnd hnot, hp.append hr fun he => hnot (by simp [he])⟩

end QueueOperations

end Einherjar.Lib.TailQueue
