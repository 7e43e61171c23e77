import Einherjar.Lib.SharedLinks
import Mathlib.Data.Set.Insert

/-! What is left of a tail queue when its elements are linked in again, or through another list:
the pointers stay among the elements, and the head of a queue that is not empty is not NULL. -/
namespace Einherjar.Lib.TailQueue

variable {η ν : Type*}

/-- The slots of a queue over a set of elements. -/
def OwnSlot (head : η) (elms : Set ν) (c : Slot η ν) : Prop :=
  c = .first head ∨ ∃ n ∈ elms, c = .next n

/-- All pointers of the queue stay among the elements. Of the fields of an element this is only
known when it is in `linked`. -/
structure Loose (m : Links η ν) (head : η) (elms linked : Set ν) : Prop where
  first_mem : ∀ x, m.load (.first head) = some x → x ∈ elms
  next_mem : ∀ n ∈ linked, ∀ x, m.load (.next n) = some x → x ∈ elms
  prev : ∀ n ∈ linked, OwnSlot head elms (m.tqePrev n)
  last : OwnSlot head elms (m.tqhLast head)
  nonempty : m.tqhLast head ≠ .first head → m.load (.first head) ≠ none

variable {m : Links η ν} {head other : η} {elms linked : Set ν} {n x : ν}

theorem OwnSlot.mono {c : Slot η ν} {elms' : Set ν} (h : OwnSlot head elms c)
    (hsub : elms ⊆ elms') : OwnSlot head elms' c := by
  rcases h with h | ⟨n, hn, h⟩
  · exact .inl h
  · exact .inr ⟨n, hsub hn, h⟩

theorem Loose.mono {linked' : Set ν} (h : Loose m head elms linked) (hsub : linked' ⊆ linked) :
    Loose m head elms linked' :=
  { h with
    next_mem := fun n hn => h.next_mem n (hsub hn)
    prev := fun n hn => h.prev n (hsub hn) }

theorem Queue.loose_nil (h : Queue m head []) (elms : Set ν) : Loose m head elms ∅ where
  first_mem _ hx := absurd ((walk_nil.mp h.walk).symm.trans hx) nofun
  next_mem := by simp
  prev := by simp
  last := .inl h.1.2
  nonempty hne := absurd h.1.2 hne

section
variable [DecidableEq η] [DecidableEq ν]

/-- After an insertion the head is not NULL, and `tqh_last` is the link of the element. -/
theorem Loose.insertTail (h : Loose m head elms linked) (hn : n ∈ elms) :
    Loose (insertTail m head n) head elms (insert n linked) ∧
      (TailQueue.insertTail m head n).load (.first head) ≠ none := by
  have hload : ∀ c x, (TailQueue.insertTail m head n).load c = some x →
      x = n ∨ m.load c = some x := by
    intro c x hx
    rw [insertTail_load] at hx
    by_cases hc : c = m.tqhLast head
    · rw [hc, Function.update_self] at hx
      exact .inl (Option.some.inj hx).symm
    · rw [Function.update_of_ne hc] at hx
      by_cases hcn : c = .next n
      · rw [hcn, Function.update_self] at hx
        cases hx
      · rw [Function.update_of_ne hcn] at hx
        exact .inr hx
  have hfirst : (TailQueue.insertTail m head n).load (.first head) ≠ none := by
    rw [insertTail_load]
    by_cases hc : m.tqhLast head = .first head
    · rw [hc, Function.update_self]
      exact Option.some_ne_none n
    · rw [Function.update_of_ne (Ne.symm hc), Function.update_of_ne (by nofun)]
      exact h.nonempty hc
  refine ⟨?_, hfirst⟩
  constructor
  case first_mem =>
    intro x hx
    rcases hload _ x hx with rfl | hx
    · exact hn
    · exact h.first_mem x hx
  case next_mem =>
    intro y hy x hx
    by_cases hyn : y = n
    · rw [hyn, insertTail_load] at hx
      by_cases hc : Slot.next n = m.tqhLast head
      · rw [hc, Function.update_self] at hx
        exact Option.some.inj hx ▸ hn
      · rw [Function.update_of_ne hc, Function.update_self] at hx
        cases hx
    · rcases hload _ x hx with rfl | hx
      · exact hn
      · exact h.next_mem y (hy.resolve_left hyn) x hx
  case prev =>
    intro y hy
    rw [insertTail_tqePrev]
    by_cases hyn : y = n
    · rw [hyn, Function.update_self]
      exact h.last
    · rw [Function.update_of_ne hyn]
      exact h.prev y (hy.resolve_left hyn)
  case last =>
    rw [insertTail_tqhLast, Function.update_self]
    exact .inr ⟨n, hn, rfl⟩
  case nonempty => exact fun _ => hfirst

/-- The first element is removed and inserted again. In between, the head may be NULL. -/
theorem Loose.rotate (h : Loose m head elms linked) (hx : m.load (.first head) = some x)
    (hlinked : x ∈ linked) :
    Loose (TailQueue.insertTail (remove m head x) head x) head elms linked := by
  have hmem := h.first_mem x hx
  have hprev := h.prev x hlinked
  have hnext : ∀ y, m.load (.next x) = some y → y ∈ elms := h.next_mem x hlinked
  have hload : ∀ c y, (remove m head x).load c = some y →
      m.load (.next x) = some y ∨ m.load c = some y := by
    intro c y hy
    rw [remove_load] at hy
    by_cases hc : c = m.tqePrev x
    · rw [hc, Function.update_self] at hy
      exact .inl hy
    · rw [Function.update_of_ne hc] at hy
      exact .inr hy
  have hremoved : Loose (remove m head x) head elms linked := by
    constructor
    case first_mem =>
      intro y hy
      rcases hload _ y hy with hy | hy
      · exact hnext y hy
      · exact h.first_mem y hy
    case next_mem =>
      intro z hz y hy
      rcases hload _ y hy with hy | hy
      · exact hnext y hy
      · exact h.next_mem z hz y hy
    case prev =>
      intro y hy
      cases hsucc : m.load (.next x) with
      | none =>
        rw [remove_tqePrev_of_none _ _ _ hsucc]
        exact h.prev y hy
      | some successor =>
        rw [remove_tqePrev_of_some _ _ _ hsucc]
        by_cases hys : y = successor
        · rw [hys, Function.update_self]
          exact hprev
        · rw [Function.update_of_ne hys]
          exact h.prev y hy
    case last =>
      cases hsucc : m.load (.next x) with
      | none =>
        rw [remove_tqhLast_of_none _ _ _ hsucc, Function.update_self]
        exact hprev
      | some successor =>
        rw [remove_tqhLast_of_some _ _ _ hsucc]
        exact h.last
    case nonempty =>
      intro hne
      rw [remove_load]
      by_cases hfirst : m.tqePrev x = .first head
      · rw [hfirst, Function.update_self]
        -- A NULL successor would make the head's slot `tqh_last`
        intro hnone
        rw [remove_tqhLast_of_none _ _ _ hnone, Function.update_self] at hne
        exact hne hfirst
      · rw [Function.update_of_ne (Ne.symm hfirst), hx]
        exact Option.some_ne_none x
  exact (hremoved.insertTail hmem).1.mono (Set.subset_insert x linked)

/-- An element that comes into another list behind an element of the queue. -/
theorem Loose.insert_other (h : Loose m head elms linked) (hheads : other ≠ head)
    {newest : ν} (hlast : m.tqhLast other = .next newest) (hn : n ∉ linked) :
    Loose (TailQueue.insertTail m other n) head (insert n elms) linked := by
  have hfirst : (TailQueue.insertTail m other n).load (.first head) = m.load (.first head) :=
    insertTail_load_first hlast
  have htqh : (TailQueue.insertTail m other n).tqhLast head = m.tqhLast head := by
    rw [insertTail_tqhLast, Function.update_of_ne hheads.symm]
  have hsub := Set.subset_insert n elms
  constructor
  case first_mem =>
    intro x hx
    exact hsub (h.first_mem x (hfirst ▸ hx))
  case next_mem =>
    intro y hy x hx
    rw [insertTail_load, hlast] at hx
    by_cases hyl : y = newest
    · rw [hyl, Function.update_self] at hx
      exact .inl (Option.some.inj hx).symm
    · have hyn : y ≠ n := fun he => hn (he ▸ hy)
      rw [Function.update_of_ne fun he => hyl (Slot.next.inj he),
        Function.update_of_ne fun he => hyn (Slot.next.inj he)] at hx
      exact hsub (h.next_mem y hy x hx)
  case prev =>
    intro y hy
    have hyn : y ≠ n := fun he => hn (he ▸ hy)
    rw [insertTail_tqePrev, Function.update_of_ne hyn]
    exact (h.prev y hy).mono hsub
  case last =>
    rw [htqh]
    exact h.last.mono hsub
  case nonempty =>
    rw [htqh, hfirst]
    exact h.nonempty

end

end Einherjar.Lib.TailQueue
