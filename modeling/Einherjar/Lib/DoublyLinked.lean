import Einherjar.Lib.Queue

/-! Tail queues whose `tqe_prev` fields are all right: removal from any place, and what an
operation on one queue leaves of another one with other elements. -/
namespace Einherjar.Lib.TailQueue

variable {η ν : Type*}

/-- Each element's `tqe_prev` is the slot that a walk over the list comes from. -/
def Prevs (m : Links η ν) : Slot η ν → List ν → Prop
  | _, [] => True
  | c, x :: xs => m.tqePrev x = c ∧ Prevs m (.next x) xs

/-- A queue in good order, and the elements on it. -/
structure Tailq (m : Links η ν) (head : η) (xs : List ν) : Prop where
  queue : Queue m head xs
  prevs : Prevs m (.first head) xs

theorem Tailq.nodup {m : Links η ν} {head : η} {xs : List ν} (h : Tailq m head xs) : xs.Nodup :=
  h.queue.nodup

theorem prevs_append {m : Links η ν} {c : Slot η ν} {xs ys : List ν} :
    Prevs m c (xs ++ ys) ↔ Prevs m c xs ∧ Prevs m (endSlot c xs) ys := by
  induction xs generalizing c with
  | nil => simp [Prevs]
  | cons x xs ih => simp [Prevs, ih, and_assoc]

theorem Prevs.congr {m m' : Links η ν} {c : Slot η ν} {xs : List ν} (h : Prevs m c xs)
    (heq : ∀ x ∈ xs, m'.tqePrev x = m.tqePrev x) : Prevs m' c xs := by
  induction xs generalizing c with
  | nil => trivial
  | cons x xs ih =>
    constructor
    · rw [heq x List.mem_cons_self]
      exact h.1
    · exact ih h.2 fun y hy => heq y (List.mem_cons_of_mem _ hy)

theorem Queue.congr {m m' : Links η ν} {head : η} {xs : List ν} (h : Queue m head xs)
    (hlast : m'.tqhLast head = m.tqhLast head)
    (hfirst : m'.load (.first head) = m.load (.first head))
    (hnext : ∀ x ∈ xs, m'.load (.next x) = m.load (.next x)) : Queue m' head xs := by
  have hwalk := h.walk.congr hfirst hnext
  have hend := hlast.trans h.1.2
  constructor
  · exact ⟨hwalk.1, hend⟩
  · rw [hend]
    exact hwalk.2

theorem Tailq.congr {m m' : Links η ν} {head : η} {xs : List ν} (h : Tailq m head xs)
    (hlast : m'.tqhLast head = m.tqhLast head)
    (hfirst : m'.load (.first head) = m.load (.first head))
    (hnext : ∀ x ∈ xs, m'.load (.next x) = m.load (.next x))
    (hprev : ∀ x ∈ xs, m'.tqePrev x = m.tqePrev x) : Tailq m' head xs :=
  ⟨h.queue.congr hlast hfirst hnext, h.prevs.congr hprev⟩

/-- The slot behind a queue is its head's or one of its elements'. -/
theorem Queue.last_eq {m : Links η ν} {head : η} {xs : List ν} (h : Queue m head xs) :
    m.tqhLast head = .first head ∨ ∃ x ∈ xs, m.tqhLast head = .next x := by
  rcases endSlot_eq (.first head) xs with ⟨he, -⟩ | ⟨x, hx, he⟩
  · exact .inl (h.1.2.trans he)
  · exact .inr ⟨x, hx, h.1.2.trans he⟩

/-- The slot before an element is the head's or the link of an element before it. -/
theorem Tailq.prev_eq {m : Links η ν} {head : η} {xs ys : List ν} {x : ν}
    (h : Tailq m head (xs ++ x :: ys)) :
    m.tqePrev x = endSlot (.first head) xs ∧
      (m.tqePrev x = .first head ∨ ∃ y ∈ xs, m.tqePrev x = .next y) := by
  have hprev : m.tqePrev x = endSlot (.first head) xs := (prevs_append.mp h.prevs).2.1
  refine ⟨hprev, ?_⟩
  rcases endSlot_eq (.first head) xs with ⟨he, -⟩ | ⟨y, hy, he⟩
  · exact .inl (hprev.trans he)
  · exact .inr ⟨y, hy, hprev.trans he⟩

theorem Tailq.next_mem {m : Links η ν} {head : η} {xs ys : List ν} {x y : ν}
    (h : Tailq m head (xs ++ x :: ys)) (hy : m.load (.next x) = some y) : y ∈ ys := by
  have hw : Walk m (.next x) ys := h.queue.walk.suffix
  cases ys with
  | nil => exact absurd ((walk_nil.mp hw).symm.trans hy) nofun
  | cons z zs =>
    obtain rfl : y = z := Option.some.inj (hy.symm.trans (walk_cons.mp hw).1)
    exact List.mem_cons_self

/-- Writing the slot at the end of a list does not disturb the way there. -/
theorem Linked.of_end_written {m m' : Links η ν} {head : η} {xs : List ν}
    (h : Linked m (.first head) xs) (hxs : xs.Nodup)
    (hkeep : ∀ c, c ≠ endSlot (.first head) xs → m'.load c = m.load c) :
    Linked m' (.first head) xs := by
  rcases xs.eq_nil_or_concat' with rfl | ⟨us, z, rfl⟩
  · trivial
  rw [endSlot_concat] at hkeep
  refine h.congr (hkeep _ nofun) fun y hy => hkeep _ ?_
  rw [List.dropLast_concat] at hy
  intro he
  exact (List.nodup_append.mp hxs).2.2 y hy z (by simp) (Slot.next.inj he)

section Operations
variable [DecidableEq η] [DecidableEq ν] {m : Links η ν} {head other : η} {n x : ν}
  {xs ys zs : List ν}

theorem tailq_init (m : Links η ν) (head : η) : Tailq (init m head) head [] :=
  ⟨queue_init m head, trivial⟩

theorem Tailq.insertTail (h : Tailq m head xs) (hn : n ∉ xs) :
    Tailq (insertTail m head n) head (xs ++ [n]) := by
  refine ⟨h.queue.1.append h.nodup hn, prevs_append.mpr ⟨?_, ?_, trivial⟩⟩
  · apply h.prevs.congr
    intro y hy
    have hyn : y ≠ n := fun he => hn (he ▸ hy)
    rw [insertTail_tqePrev, Function.update_of_ne hyn]
  · rw [insertTail_tqePrev, Function.update_self]
    exact h.queue.1.2

/-- A removal writes the slot before the element only. -/
theorem Tailq.remove_keeps (h : Tailq m head (xs ++ x :: ys)) {c : Slot η ν}
    (hc : c ≠ endSlot (.first head) xs) : (TailQueue.remove m head x).load c = m.load c := by
  rw [remove_load, h.prev_eq.1, Function.update_of_ne hc]

theorem Tailq.remove_written (h : Tailq m head (xs ++ x :: ys)) :
    (TailQueue.remove m head x).load (endSlot (.first head) xs) = m.load (.next x) := by
  rw [remove_load, h.prev_eq.1, Function.update_self]

theorem Tailq.remove_linked (h : Tailq m head (xs ++ x :: ys)) :
    Linked (TailQueue.remove m head x) (.first head) xs := by
  have hl := ((linked_append ..).mp h.queue.1.1).1
  exact hl.of_end_written (List.nodup_append.mp h.nodup).1 fun c hc => h.remove_keeps hc

theorem Tailq.remove_last (h : Tailq m head (xs ++ [x])) :
    Tailq (TailQueue.remove m head x) head xs := by
  have hnext : m.load (.next x) = none := by
    have hnone := h.queue.2
    rw [h.queue.1.2, endSlot_append] at hnone
    exact hnone
  have hlast : (TailQueue.remove m head x).tqhLast head = endSlot (.first head) xs := by
    rw [remove_tqhLast_of_none _ _ _ hnext, Function.update_self, h.prev_eq.1]
  refine ⟨⟨⟨h.remove_linked, hlast⟩, ?_⟩, ?_⟩
  · rw [hlast, h.remove_written, hnext]
  · apply (prevs_append.mp h.prevs).1.congr
    intro y _
    rw [remove_tqePrev_of_none _ _ _ hnext]

theorem Tailq.remove_inner {y : ν} (h : Tailq m head (xs ++ x :: y :: ys)) :
    Tailq (TailQueue.remove m head x) head (xs ++ y :: ys) := by
  obtain ⟨hpl, -, hpr⟩ := prevs_append.mp h.prevs
  obtain ⟨-, -, hnext, hrest⟩ := (linked_append ..).mp h.queue.1.1
  obtain ⟨-, hnd, hdisj⟩ := List.nodup_append.mp h.nodup
  have hyxs : y ∉ xs := fun hy => hdisj y hy y (by simp) rfl
  have hyys : y ∉ ys := (List.nodup_cons.mp (List.nodup_cons.mp hnd).2).1
  have hkeep : ∀ z ∈ y :: ys,
      (TailQueue.remove m head x).load (.next z) = m.load (.next z) := by
    intro z hz
    have hzxs : z ∉ xs := fun hx => hdisj z hx z (by simp [hz]) rfl
    exact h.remove_keeps (endSlot_ne_next (by simp) hzxs).symm
  have hlast : (TailQueue.remove m head x).tqhLast head = endSlot (.next y) ys := by
    rw [remove_tqhLast_of_some _ _ _ hnext, h.queue.1.2, endSlot_append]
    rfl
  have hnone : m.load (endSlot (.next y) ys) = none := by
    have hnone := h.queue.2
    rw [h.queue.1.2, endSlot_append] at hnone
    exact hnone
  refine ⟨⟨⟨?_, ?_⟩, ?_⟩, prevs_append.mpr ⟨?_, ?_, ?_⟩⟩
  · refine (linked_append ..).mpr ⟨h.remove_linked, h.remove_written.trans hnext, ?_⟩
    refine hrest.congr (hkeep y List.mem_cons_self) fun z hz => hkeep z ?_
    exact List.mem_cons_of_mem _ (ys.dropLast_subset hz)
  · rw [hlast, endSlot_append]
    rfl
  · rw [hlast]
    rcases endSlot_eq (.next y) ys with ⟨he, -⟩ | ⟨z, hz, he⟩
    · rw [he] at hnone ⊢
      exact (hkeep y List.mem_cons_self).trans hnone
    · rw [he] at hnone ⊢
      exact (hkeep z (List.mem_cons_of_mem _ hz)).trans hnone
  · apply hpl.congr
    intro z hz
    have hzy : z ≠ y := fun he => hyxs (he ▸ hz)
    rw [remove_tqePrev_of_some _ _ _ hnext, Function.update_of_ne hzy]
  · rw [remove_tqePrev_of_some _ _ _ hnext, Function.update_self, h.prev_eq.1]
  · refine hpr.2.congr fun z hz => ?_
    have hzy : z ≠ y := fun he => hyys (he ▸ hz)
    rw [remove_tqePrev_of_some _ _ _ hnext, Function.update_of_ne hzy]

/-- Removal of an element from any place. -/
theorem Tailq.remove (h : Tailq m head (xs ++ x :: ys)) :
    Tailq (TailQueue.remove m head x) head (xs ++ ys) := by
  cases ys with
  | nil =>
    rw [List.append_nil]
    exact h.remove_last
  | cons y ys => exact h.remove_inner

/-- A queue does not notice insertions in another one. -/
theorem Tailq.insertTail_other (h : Tailq m head xs) (ho : Queue m other zs)
    (hheads : other ≠ head) (hdisj : ∀ y ∈ zs, y ∉ xs) (hn : n ∉ xs) :
    Tailq (TailQueue.insertTail m other n) head xs := by
  have hkeep : ∀ c, c ≠ .next n → c ≠ m.tqhLast other →
      (TailQueue.insertTail m other n).load c = m.load c := by
    intro c hc hlast
    rw [insertTail_load, Function.update_of_ne hlast, Function.update_of_ne hc]
  have hslot : ∀ c : Slot η ν, c ≠ .first other → (∀ y ∈ zs, c ≠ .next y) →
      c ≠ m.tqhLast other := by
    intro c hfirst hnext
    rcases ho.last_eq with he | ⟨y, hy, he⟩
    · rwa [he]
    · rw [he]
      exact hnext y hy
  refine h.congr ?_ ?_ ?_ ?_
  · rw [insertTail_tqhLast, Function.update_of_ne hheads.symm]
  · refine hkeep _ nofun (hslot _ ?_ fun _ _ => nofun)
    exact fun he => hheads (Slot.first.inj he).symm
  · intro y hy
    have hyn : y ≠ n := fun he => hn (he ▸ hy)
    refine hkeep _ (fun he => hyn (Slot.next.inj he)) (hslot _ nofun ?_)
    intro z hz he
    exact hdisj z hz (Slot.next.inj he ▸ hy)
  · intro y hy
    have hyn : y ≠ n := fun he => hn (he ▸ hy)
    rw [insertTail_tqePrev, Function.update_of_ne hyn]

/-- A queue does not notice removals from another one. -/
theorem Tailq.remove_other (h : Tailq m head xs) (ho : Tailq m other (ys ++ x :: zs))
    (hheads : other ≠ head) (hdisj : ∀ y ∈ ys ++ x :: zs, y ∉ xs) :
    Tailq (TailQueue.remove m other x) head xs := by
  have hslot : ∀ c : Slot η ν, c ≠ .first other → (∀ y ∈ ys ++ x :: zs, c ≠ .next y) →
      (TailQueue.remove m other x).load c = m.load c := by
    intro c hfirst hnext
    rw [remove_load, Function.update_of_ne]
    rcases ho.prev_eq.2 with he | ⟨y, hy, he⟩
    · rwa [he]
    · rw [he]
      exact hnext y (List.mem_append_left _ hy)
  have hsucc : ∀ y, m.load (.next x) = some y → y ∈ ys ++ x :: zs :=
    fun y hy => List.mem_append_right _ (List.mem_cons_of_mem _ (ho.next_mem hy))
  refine h.congr ?_ ?_ ?_ ?_
  · cases hx : m.load (.next x) with
    | none => rw [remove_tqhLast_of_none _ _ _ hx, Function.update_of_ne hheads.symm]
    | some y => rw [remove_tqhLast_of_some _ _ _ hx]
  · refine hslot _ ?_ fun _ _ => nofun
    exact fun he => hheads (Slot.first.inj he).symm
  · intro y hy
    refine hslot _ nofun ?_
    intro z hz he
    exact hdisj z hz (Slot.next.inj he ▸ hy)
  · intro y hy
    cases hx : m.load (.next x) with
    | none => rw [remove_tqePrev_of_none _ _ _ hx]
    | some z =>
      have hyz : y ≠ z := fun he => hdisj z (hsucc z hx) (he ▸ hy)
      rw [remove_tqePrev_of_some _ _ _ hx, Function.update_of_ne hyz]

end Operations

/-- `TAILQ_FOREACH` up to the first element with a property. The fuel bounds the number of
elements visited; `none` says that it was not enough. -/
def findFrom (m : Links η ν) (p : ν → Bool) : ℕ → Option ν → Option (Option ν)
  | 0, _ => none
  | _ + 1, none => some none
  | fuel + 1, some x => if p x then some (some x) else findFrom m p fuel (m.load (.next x))

theorem findFrom_cases {m : Links η ν} {p : ν → Bool} {fuel : ℕ} {c : Slot η ν} {xs : List ν}
    {r : Option ν} (hw : Walk m c xs) (h : findFrom m p fuel (m.load c) = some r) :
    (r = none ∧ ∀ x ∈ xs, ¬ p x) ∨
      ∃ ys x zs, xs = ys ++ x :: zs ∧ (∀ y ∈ ys, ¬ p y) ∧ p x ∧ r = some x := by
  induction fuel generalizing c xs with
  | zero => exact absurd h nofun
  | succ fuel ih =>
    cases xs with
    | nil =>
      rw [walk_nil.mp hw] at h
      exact .inl ⟨(Option.some.inj h).symm, nofun⟩
    | cons x xs =>
      obtain ⟨hx, hw⟩ := walk_cons.mp hw
      rw [hx] at h
      unfold findFrom at h
      by_cases hp : p x
      · rw [if_pos hp] at h
        exact .inr ⟨[], x, xs, rfl, nofun, hp, (Option.some.inj h).symm⟩
      · rw [if_neg hp] at h
        rcases ih hw h with ⟨hr, hall⟩ | ⟨ys, y, zs, rfl, hall, hy, hr⟩
        · refine .inl ⟨hr, ?_⟩
          intro y hy
          rcases List.mem_cons.mp hy with rfl | hy
          · exact hp
          · exact hall y hy
        · refine .inr ⟨x :: ys, y, zs, rfl, ?_, hy, hr⟩
          intro z hz
          rcases List.mem_cons.mp hz with rfl | hz
          · exact hp
          · exact hall z hz

/-- The loop over a queue ends. -/
theorem findFrom_terminates {m : Links η ν} (p : ν → Bool) {fuel : ℕ} {c : Slot η ν}
    {xs : List ν} (hw : Walk m c xs) (hfuel : xs.length < fuel) :
    ∃ r, findFrom m p fuel (m.load c) = some r := by
  induction fuel generalizing c xs with
  | zero => exact absurd hfuel (Nat.not_lt_zero _)
  | succ fuel ih =>
    cases xs with
    | nil => exact ⟨none, by rw [walk_nil.mp hw]; rfl⟩
    | cons x xs =>
      obtain ⟨hx, hw⟩ := walk_cons.mp hw
      rw [hx]
      unfold findFrom
      by_cases hp : p x
      · exact ⟨some x, if_pos hp⟩
      · rw [if_neg hp]
        exact ih hw (by simpa using hfuel)

end Einherjar.Lib.TailQueue
