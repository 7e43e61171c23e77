import Einherjar.Lib.Queue

/-! Two tail queues over one link field: what appending to one of them does to the other. -/
namespace Einherjar.Lib.TailQueue

variable {η ν : Type*} {m : Links η ν} {head other : η}

theorem first_ne_next (head : η) (n : ν) : (Slot.first head : Slot η ν) ≠ .next n := nofun

/-- A link of an element to itself has no end. -/
theorem not_walk_of_self {n : ν} (h : m.load (.next n) = some n) (xs : List ν) :
    ¬ Walk m (.next n) xs := by
  induction xs with
  | nil =>
    intro hw
    exact absurd (h.symm.trans (walk_nil.mp hw)) nofun
  | cons x xs ih =>
    intro hw
    obtain ⟨hx, hw⟩ := walk_cons.mp hw
    obtain rfl : n = x := Option.some.inj (h.symm.trans hx)
    exact ih hw

section
variable [DecidableEq η] [DecidableEq ν] {last n : ν} {xs ys : List ν}

/-- Appending to a list, this one or another, that ends at an element. -/
theorem insertTail_load_first (hlast : m.tqhLast other = .next last) :
    (insertTail m other n).load (.first head) = m.load (.first head) := by
  rw [insertTail_load, hlast, Function.update_of_ne (first_ne_next head last),
    Function.update_of_ne (first_ne_next head n)]

theorem remove_tqhLast_of_ne (h : other ≠ head) :
    (remove m head n).tqhLast other = m.tqhLast other := by
  cases hn : m.load (.next n) with
  | none => rw [remove_tqhLast_of_none _ _ _ hn, Function.update_of_ne h]
  | some => rw [remove_tqhLast_of_some _ _ _ hn]

/-- Appending to a list, this one or another, that is not empty. -/
theorem HeadPrev.insert (h : HeadPrev m head) (hlast : m.tqhLast other ≠ .first head)
    (hn : m.load (.first head) ≠ some n) : HeadPrev (insertTail m other n) head := by
  intro x hx
  have hx' : m.load (.first head) = some x := by
    simpa [insertTail_load, Function.update_of_ne hlast.symm] using hx
  have hxn : x ≠ n := by
    rintro rfl
    exact hn hx'
  rw [insertTail_tqePrev, Function.update_of_ne hxn]
  exact h x hx'

/-- The queue keeps its elements when the other list ends outside it. -/
theorem Queue.insert_other (h : Queue m head xs) (hheads : other ≠ head)
    (hlast : m.tqhLast other = .next last) (hL : last ∉ xs) (hn : n ∉ xs) :
    Queue (insertTail m other n) head xs := by
  obtain ⟨⟨hl, hend⟩, hnone⟩ := h
  have hload : ∀ c, c ≠ .next last → c ≠ .next n → (insertTail m other n).load c = m.load c := by
    intro c hc hcn
    rw [insertTail_load, hlast, Function.update_of_ne hc, Function.update_of_ne hcn]
  have htqh : (insertTail m other n).tqhLast head = m.tqhLast head := by
    rw [insertTail_tqhLast, Function.update_of_ne hheads.symm]
  refine ⟨⟨?_, htqh.trans hend⟩, ?_⟩
  · apply linked_insertTail hl (.inl (by rw [hlast]; nofun)) nofun
    intro y hy
    have hyx := xs.dropLast_subset hy
    rw [hlast]
    refine ⟨fun he => hn (he ▸ hyx), fun he => hL ?_⟩
    rwa [Slot.next.inj he]
  · rw [htqh, hload, hnone]
    · rw [hend]
      exact endSlot_ne_next nofun hL
    · rw [hend]
      exact endSlot_ne_next nofun hn

/-- Appending a new element to both lists, when the other list ends at an element of the
queue: the new element comes right behind that one, and what stood there is cut off. -/
theorem Queue.insert_both (h : Queue m head (xs ++ last :: ys)) (hheads : other ≠ head)
    (hlast : m.tqhLast other = .next last) (hn : n ∉ xs ++ last :: ys) :
    Queue (insertTail (insertTail m other n) head n) head (xs ++ [last, n]) := by
  have hnodup := h.nodup
  obtain ⟨⟨hl, hend⟩, -⟩ := h
  have hlx : last ∉ xs := fun hx => (List.nodup_append.mp hnodup).2.2 last hx last (by simp) rfl
  have hnx : n ∉ xs := fun hx => hn (List.mem_append_left _ hx)
  have hnl : n ≠ last := by
    rintro rfl
    exact hn (by simp)
  rw [List.append_cons, linked_append] at hl
  -- The slot behind the queue belongs to an element from `last` on
  obtain ⟨z, hz, hzend⟩ : ∃ z ∈ last :: ys, m.tqhLast head = .next z := by
    rw [hend, endSlot_append]
    rcases endSlot_eq (.next last) ys with ⟨he, -⟩ | ⟨z, hz, he⟩
    · exact ⟨last, by simp, he⟩
    · exact ⟨z, List.mem_cons_of_mem _ hz, he⟩
  have hzx : z ∉ xs := fun hx => (List.nodup_append.mp hnodup).2.2 z hx z hz rfl
  have hzn : n ≠ z := by
    rintro rfl
    exact hn (List.mem_append_right _ hz)
  set m₁ := insertTail m other n with hm₁
  have hlast₁ : m₁.tqhLast head = .next z := by
    rw [hm₁, insertTail_tqhLast, Function.update_of_ne hheads.symm, hzend]
  have hl₁ : Linked m₁ (.first head) (xs ++ [last]) := by
    apply linked_insertTail hl.1 (.inl (by rw [hlast]; nofun)) nofun
    intro y hy
    rw [List.dropLast_concat] at hy
    rw [hlast]
    exact ⟨fun he => hnx (he ▸ hy), fun he => hlx (Slot.next.inj he ▸ hy)⟩
  have hl₂ : Linked (insertTail m₁ head n) (.first head) (xs ++ [last]) := by
    apply linked_insertTail hl₁ (.inl (by rw [hlast₁]; nofun)) nofun
    intro y hy
    rw [List.dropLast_concat] at hy
    rw [hlast₁]
    exact ⟨fun he => hnx (he ▸ hy), fun he => hzx (Slot.next.inj he ▸ hy)⟩
  have hlink : (insertTail m₁ head n).load (.next last) = some n := by
    rw [insertTail_load, hlast₁]
    by_cases hzl : z = last
    · rw [hzl, Function.update_self]
    · have hlz : (Slot.next last : Slot η ν) ≠ .next z := fun he => hzl (Slot.next.inj he).symm
      have hln : (Slot.next last : Slot η ν) ≠ .next n := fun he => hnl (Slot.next.inj he).symm
      rw [Function.update_of_ne hlz, Function.update_of_ne hln, hm₁, insertTail_load, hlast,
        Function.update_self]
  have hnone : (insertTail m₁ head n).load (.next n) = none := by
    have hnz : (Slot.next n : Slot η ν) ≠ .next z := fun he => hzn (Slot.next.inj he)
    rw [insertTail_load, hlast₁, Function.update_of_ne hnz, Function.update_self]
  refine ⟨⟨?_, ?_⟩, ?_⟩
  · rw [List.append_cons xs, linked_append, endSlot_concat]
    exact ⟨hl₂, hlink, trivial⟩
  · simp
  · simpa using hnone

/-- Appending an element to two lists that end at the same element, or of which the second is
empty: the second insertion finds the links as it would leave them. -/
theorem insertTail_load_again (hlast : m.tqhLast other ≠ .next n) (hheads : other ≠ head)
    (hends : m.tqhLast head = .first head ∨ m.tqhLast head = m.tqhLast other) {c : Slot η ν}
    (hc : c ≠ .first head) :
    (insertTail (insertTail m other n) head n).load c = (insertTail m other n).load c := by
  have hnone : (insertTail m other n).load (.next n) = none := by
    rw [insertTail_load, Function.update_of_ne hlast.symm, Function.update_self]
  rw [insertTail_load (insertTail m other n), insertTail_tqhLast,
    Function.update_of_ne hheads.symm, ← hnone, Function.update_eq_self]
  rcases hends with hfirst | hsame
  · rw [hfirst, Function.update_of_ne hc]
  · by_cases hcl : c = m.tqhLast other
    · rw [hsame, hcl, Function.update_self, insertTail_load, Function.update_self]
    · rw [hsame, Function.update_of_ne hcl]

/-- An element that is inserted last is linked to nothing, or to itself. -/
theorem insertTail_load_self (m : Links η ν) (head : η) (n : ν) :
    (insertTail m head n).load (.next n) = none ∨
      (insertTail m head n).load (.next n) = some n := by
  rw [insertTail_load]
  by_cases hlast : m.tqhLast head = .next n
  · rw [hlast, Function.update_self]
    exact .inr rfl
  · rw [Function.update_of_ne (Ne.symm hlast), Function.update_self]
    exact .inl rfl

end

end Einherjar.Lib.TailQueue
