import Einherjar.Lib.SharedLinks
import Einherjar.Threading.Scheduler

/-! What one tick and one creation do to the ready queue, in terms of the list of threads
that a walk along the queue meets. -/
namespace Einherjar.Threading
open Einherjar.Lib.TailQueue

variable {τ : Type*} [DecidableEq τ]

theorem lists_ne : ThreadList.kernelThreads ≠ .readyThreadsQueue := nofun

section Tick

variable (s : System τ) (cur x : τ)

/-- The queue after a tick in which `cur` is put at the end and `x` is found at the front. -/
def tickLinks (m : Links ThreadList τ) (cur x : τ) : Links ThreadList τ :=
  insertTail (remove (insertTail m .readyThreadsQueue cur) .readyThreadsQueue x)
    .readyThreadsQueue x

/-- The state after a tick that passes the processor from `cur` to `x`. -/
def tick : System τ :=
  (({ s with links := tickLinks s.links cur x, gCurrentThread := some x }).setState
    cur .ready).setState x .running

@[simp] theorem tick_links : (tick s cur x).links = tickLinks s.links cur x := rfl

@[simp] theorem tick_gCurrentThread : (tick s cur x).gCurrentThread = some x := rfl

@[simp] theorem tick_state_self : (tick s cur x).state x = .running :=
  System.setState_state_self ..

theorem tick_state_of_ne {t : τ} (hx : t ≠ x) (hcur : t ≠ cur) :
    (tick s cur x).state t = s.state t := by
  unfold tick
  rw [System.setState_state_of_ne _ _ _ hx, System.setState_state_of_ne _ _ _ hcur]
  rfl

theorem tick_state_previous (hx : cur ≠ x) : (tick s cur x).state cur = .ready := by
  unfold tick
  rw [System.setState_state_of_ne _ _ _ hx, System.setState_state_self]

variable {s cur x}

/-- The threads that do not run are ready after a tick as before it. -/
theorem ready_tick {p : τ → Prop} (h : ∀ t, p t → t ≠ cur → s.state t = .ready) :
    ∀ t, p t → t ≠ x → (tick s cur x).state t = .ready := by
  intro t ht htx
  by_cases htc : t = cur
  · subst htc
    exact tick_state_previous _ _ _ htx
  · exact (tick_state_of_ne _ _ _ htx htc).trans (h t ht htc)

/-- An assertion of `schedule` fails exactly when the front of the queue is not ready. -/
theorem schedule_eq (hcur : s.gCurrentThread = some cur) (hrun : s.state cur = .running)
    (hfirst : first (insertTail s.links .readyThreadsQueue cur) .readyThreadsQueue = some x) :
    schedule s = if x = cur ∨ s.state x = .ready then some (tick s cur x) else none := by
  have hget : threadGetCurrent s = some cur := by simp [threadGetCurrent, hcur, hrun]
  have hadd : addInReadyQueue s cur true = some
      { s.setState cur .ready with links := insertTail s.links .readyThreadsQueue cur } := by
    simp [addInReadyQueue, hrun]
  have hready : (s.setState cur .ready).state x = .ready ↔ x = cur ∨ s.state x = .ready := by
    by_cases hxc : x = cur
    · rw [hxc, System.setState_state_self]
      simp
    · rw [System.setState_state_of_ne _ _ _ hxc, or_iff_right hxc]
  unfold schedule
  rw [hget]
  simp only [hrun, ne_eq, reduceCtorEq, not_false_eq_true, if_true]
  rw [hadd, Option.bind_some]
  unfold dispatchFirst
  simp only [hfirst]
  unfold threadSetCurrent
  refine (if_congr hready ?_ rfl)
  rfl

theorem schedule_eq_tick (hcur : s.gCurrentThread = some cur) (hrun : s.state cur = .running)
    (hfirst : first (insertTail s.links .readyThreadsQueue cur) .readyThreadsQueue = some x)
    (hx : x = cur ∨ s.state x = .ready) : schedule s = some (tick s cur x) :=
  (schedule_eq hcur hrun hfirst).trans (if_pos hx)

/-- The assertions of the resumed thread hold after a tick. -/
theorem tick_resumed : scheduleResumed (tick s cur x) x := by
  constructor
  · unfold threadGetCurrent
    simp
  · simp

end Tick

section Queue

variable {m : Links ThreadList τ} {cur x : τ} {waiting rest : List τ}

/-- A tick when the running thread stands outside the queue or at its end: the front of the
queue goes behind the running thread. -/
theorem tickLinks_queue {q : List τ} (hq : Queue m .readyThreadsQueue q)
    (hp : HeadPrev m .readyThreadsQueue) (hcur : cur ∉ waiting)
    (hshape : q = waiting ∨ q = waiting ++ [cur] ∧ waiting ≠ [])
    (hx : waiting ++ [cur] = x :: rest) :
    first (insertTail m .readyThreadsQueue cur) .readyThreadsQueue = some x ∧
      Queue (tickLinks m cur x) .readyThreadsQueue (rest ++ [x]) ∧
      HeadPrev (tickLinks m cur x) .readyThreadsQueue := by
  have hnodup : (waiting ++ [cur]).Nodup := by
    rcases hshape with rfl | ⟨rfl, -⟩
    · exact List.nodup_append.mpr ⟨hq.nodup, by simp, by simp; grind⟩
    · exact hq.nodup
  -- The list is linked again after the insertion; only its end may be a link to itself
  have hins : Chained (insertTail m .readyThreadsQueue cur) .readyThreadsQueue (x :: rest) ∧
      HeadPrev (insertTail m .readyThreadsQueue cur) .readyThreadsQueue ∧
      (rest = [] → (insertTail m .readyThreadsQueue cur).load (.next x) = none) := by
    rcases hshape with rfl | ⟨rfl, hne⟩
    · have happ := hq.1.append hq.nodup hcur
      rw [hx] at happ
      refine ⟨happ.1, ?_, ?_⟩
      · cases q with
        | nil => exact headPrev_append_nil hq.1
        | cons y ys => exact hp.append hq.1 fun he => hcur (by simp [he])
      · rintro rfl
        have := happ.2
        rwa [happ.1.2] at this
    · obtain ⟨y, ys, rfl⟩ := List.exists_cons_of_ne_nil hne
      have happ := hq.1.append_last hq.nodup
      have hyc : y ≠ cur := fun he => hcur (by simp [he])
      rw [hx] at happ
      refine ⟨happ, hp.append hq.1 hyc, ?_⟩
      rintro rfl
      simp at hx
  obtain ⟨hch, hhp, hend⟩ := hins
  have hfront := hch.1.1
  exact ⟨hfront, hch.rotate (hx ▸ hnodup) (hhp x hfront) hend⟩

/-- A tick when the running thread is alone in the queue links it to itself. It is alone also
when it is linked to itself already. -/
theorem tickLinks_self (hfirst : m.load (.first .readyThreadsQueue) = some cur)
    (hlast : m.tqhLast .readyThreadsQueue = .next cur) :
    first (insertTail m .readyThreadsQueue cur) .readyThreadsQueue = some cur ∧
      (tickLinks m cur cur).load (.first .readyThreadsQueue) = some cur ∧
      (tickLinks m cur cur).load (.next cur) = some cur ∧
      (tickLinks m cur cur).tqhLast .readyThreadsQueue = .next cur := by
  have hself : (insertTail m .readyThreadsQueue cur).load (.next cur) = some cur := by
    simp [insertTail_load, hlast]
  unfold tickLinks
  refine ⟨?_, ?_, ?_, ?_⟩
  · simp [first, insertTail_load, hlast, hfirst]
  · rw [insertTail_load, remove_tqhLast_of_some _ _ _ hself, remove_load]
    simp [insertTail_load, hlast, hfirst]
  · rw [insertTail_load, remove_tqhLast_of_some _ _ _ hself]
    simp
  · simp

/-- A tick when threads stand behind the running one: they leave the queue. -/
theorem tickLinks_cut {xs ys : List τ} (hq : Queue m .readyThreadsQueue (xs ++ cur :: ys))
    (hp : HeadPrev m .readyThreadsQueue) (hys : ys ≠ []) :
    ∃ y q, y ∈ xs ++ [cur] ∧
      first (insertTail m .readyThreadsQueue cur) .readyThreadsQueue = some y ∧
      Queue (tickLinks m cur y) .readyThreadsQueue q ∧ ∀ t ∈ q, t ∈ xs ++ [cur] := by
  obtain ⟨zs, z, rfl⟩ := ys.eq_nil_or_concat'.resolve_left hys
  have hcut := hq.1.append_inner hq.nodup
  have hnodup := hcut.nodup
  cases xs with
  | cons y ys =>
    have hyc : y ≠ cur := by
      rintro rfl
      simp at hnodup
    rw [List.cons_append] at hcut hnodup
    have hfront := hcut.1.1.1
    have hhp := hp.append hq.1 hyc
    have hrot := hcut.1.rotate hnodup (hhp y hfront) (by simp)
    refine ⟨y, _, by simp, hfront, hrot.1, ?_⟩
    intro t ht
    simp only [List.mem_append, List.mem_cons] at ht ⊢
    tauto
  | nil =>
    -- The removal goes wrong here: `tqe_prev` of the front is a link of the last thread
    have hlast : m.tqhLast .readyThreadsQueue = .next z := by simpa using hq.1.2
    have hzc : z ≠ cur := by
      have := hq.nodup
      rintro rfl
      simp at this
    have hcz : (Slot.next cur : Slot ThreadList τ) ≠ .next z :=
      fun he => hzc (Slot.next.inj he).symm
    have hfront := hcut.1.1.1
    have hnone : (insertTail m .readyThreadsQueue cur).load (.next cur) = none := by
      rw [insertTail_load, hlast, Function.update_of_ne hcz, Function.update_self]
    refine ⟨cur, [cur], by simp, hfront, ?_, by simp⟩
    have hfirst : m.load (.first .readyThreadsQueue) = some cur := hq.1.1.1
    unfold tickLinks
    refine ⟨⟨⟨?_, trivial⟩, by simp⟩, ?_⟩
    · rw [insertTail_load, remove_tqhLast_of_none _ _ _ hnone, remove_load]
      simp [insertTail_load, hlast, hfirst]
    · rw [insertTail_tqhLast, Function.update_self, insertTail_load,
        remove_tqhLast_of_none _ _ _ hnone]
      simp [hlast, Function.update_of_ne hcz]

theorem tickLinks_tqhLast_kernelThreads :
    (tickLinks m cur x).tqhLast .kernelThreads = m.tqhLast .kernelThreads := by
  unfold tickLinks
  rw [insertTail_tqhLast, Function.update_of_ne lists_ne, remove_tqhLast_of_ne lists_ne,
    insertTail_tqhLast, Function.update_of_ne lists_ne]

end Queue

section Create

variable {s s' : System τ} {name : Option (List (BitVec 8))} {startFunc stack : BitVec 32}
  {newThread r : Option τ}

/-- The two insertions of `thread_create`. -/
def createLinks (m : Links ThreadList τ) (thr : τ) : Links ThreadList τ :=
  insertTail (insertTail m .kernelThreads thr) .readyThreadsQueue thr

section

variable {m : Links ThreadList τ} {newest thr : τ} {q xs ys : List τ}

theorem createLinks_tqhLast_kernelThreads :
    (createLinks m thr).tqhLast .kernelThreads = .next thr := by
  unfold createLinks
  rw [insertTail_tqhLast, Function.update_of_ne lists_ne, insertTail_tqhLast,
    Function.update_self]

/-- The list of all threads ends at the thread created last. If that one is not in the ready
queue, the new thread goes to the end of the queue. -/
theorem createLinks_queue (hq : Queue m .readyThreadsQueue q)
    (hlast : m.tqhLast .kernelThreads = .next newest) (hnew : newest ∉ q) (hthr : thr ∉ q) :
    Queue (createLinks m thr) .readyThreadsQueue (q ++ [thr]) :=
  (hq.insert_other lists_ne hlast hnew hthr).1.append hq.nodup hthr

/-- Otherwise it comes behind the thread created last, and the rest of the queue is lost. -/
theorem createLinks_queue_cut (hq : Queue m .readyThreadsQueue (xs ++ newest :: ys))
    (hlast : m.tqhLast .kernelThreads = .next newest) (hthr : thr ∉ xs ++ newest :: ys) :
    Queue (createLinks m thr) .readyThreadsQueue (xs ++ [newest, thr]) :=
  hq.insert_both lists_ne hlast hthr

theorem createLinks_headPrev (hq : Queue m .readyThreadsQueue q)
    (hp : HeadPrev m .readyThreadsQueue) (hlast : m.tqhLast .kernelThreads = .next newest)
    (hthr : thr ∉ q) : HeadPrev (createLinks m thr) .readyThreadsQueue := by
  have hthr₁ : m.load (.first .readyThreadsQueue) ≠ some thr := by
    intro he
    cases q with
    | nil => exact absurd ((walk_nil.mp hq.walk).symm.trans he) nofun
    | cons x xs =>
      obtain rfl : x = thr := Option.some.inj (hq.1.1.1.symm.trans he)
      simp at hthr
  have hp₁ : HeadPrev (insertTail m .kernelThreads thr) .readyThreadsQueue :=
    hp.insert (by rw [hlast]; nofun) hthr₁
  have hfirst : (insertTail m .kernelThreads thr).load (.first .readyThreadsQueue) =
      m.load (.first .readyThreadsQueue) := by
    simp [insertTail_load, hlast]
  have htqh : (insertTail m .kernelThreads thr).tqhLast .readyThreadsQueue =
      m.tqhLast .readyThreadsQueue := by
    rw [insertTail_tqhLast, Function.update_of_ne lists_ne.symm]
  unfold createLinks
  cases q with
  | nil =>
    refine headPrev_append_nil ⟨trivial, ?_⟩
    exact htqh.trans hq.1.2
  | cons x xs =>
    refine hp₁.insert ?_ (by rwa [hfirst])
    rw [htqh, hq.1.2]
    exact endSlot_ne_first (List.cons_ne_nil x xs)

end

/-- What the first part of a creation does to the kernel's memory. -/
structure Inserts (s : System τ) (thr : τ) (s' : System τ) : Prop where
  links : s'.links = insertTail s.links .kernelThreads thr
  gCurrentThread : s'.gCurrentThread = s.gCurrentThread
  created : s'.state thr = .created
  threads : ∀ t, t ≠ thr → s'.threads t = s.threads t

theorem Inserts.state_of_ne {s s' : System τ} {thr t : τ} (h : Inserts s thr s') (ht : t ≠ thr) :
    s'.state t = s.state t := by
  unfold System.state
  rw [h.threads t ht]

/-- What a creation does to the kernel's memory. -/
structure Creates (s : System τ) (thr : τ) (s' : System τ) : Prop where
  links : s'.links = createLinks s.links thr
  gCurrentThread : s'.gCurrentThread = s.gCurrentThread
  ready : s'.state thr = .ready
  threads : ∀ t, t ≠ thr → s'.threads t = s.threads t

theorem Creates.state_of_ne {s s' : System τ} {thr t : τ} (h : Creates s thr s') (ht : t ≠ thr) :
    s'.state t = s.state t := by
  unfold System.state
  rw [h.threads t ht]

/-- The new thread is ready with the others. -/
theorem Creates.ready_append {s s' : System τ} {thr cur : τ} {created : List τ}
    (h : Creates s thr s') (hready : ∀ t ∈ created, t ≠ cur → s.state t = .ready) :
    ∀ t ∈ created ++ [thr], t ≠ cur → s'.state t = .ready := by
  intro t ht htc
  by_cases htt : t = thr
  · subst htt
    exact h.ready
  · rcases List.mem_append.mp ht with ht | ht
    · exact (h.state_of_ne htt).trans (hready t ht htc)
    · exact absurd (List.mem_singleton.mp ht) htt

/-- The state in which a thread goes to the end of the ready queue. -/
def System.readied (s : System τ) (thr : τ) : System τ :=
  { s.setState thr .ready with links := insertTail s.links .readyThreadsQueue thr }

theorem readied_state_of_ne {s : System τ} {thr t : τ} (h : t ≠ thr) :
    (s.readied thr).state t = s.state t := System.setState_state_of_ne _ _ _ h

/-- No assertion fails for a thread that has just been created. -/
theorem schedulerSetReady_created {s : System τ} {thr : τ} (h : s.state thr = .created) :
    schedulerSetReady s thr = some (kernelOk, s.readied thr) := by
  have hready : s.state thr ≠ .ready := by
    rw [h]
    decide
  rw [schedulerSetReady, if_neg hready, addInReadyQueue, if_pos (.inl h)]
  rfl

/-- The two parts of a creation. -/
theorem Inserts.creates {s s₁ : System τ} {thr : τ} (h : Inserts s thr s₁) :
    Creates s thr (s₁.readied thr) where
  links := by
    rw [System.readied, h.links]
    rfl
  gCurrentThread := h.gCurrentThread
  ready := System.setState_state_self ..
  threads t ht := by
    have hset : (s₁.setState thr .ready).threads t = s₁.threads t := Function.update_of_ne ht ..
    exact hset.trans (h.threads t ht)

/-- A thread comes into the list or, without a start function or memory for it, nothing but the
memory that `malloc` gave has changed. -/
theorem insertNewThread_cases (h : insertNewThread s name startFunc newThread stack = (r, s')) :
    (r = none ∧ s'.links = s.links ∧ s'.gCurrentThread = s.gCurrentThread ∧
        (startFunc = 0 ∨ newThread = none ∨ stack = 0) ∧
        ∀ t, newThread ≠ some t → s'.threads t = s.threads t) ∨
      ∃ thr, startFunc ≠ 0 ∧ stack ≠ 0 ∧ newThread = some thr ∧ r = some thr ∧
        Inserts s thr s' := by
  unfold insertNewThread at h
  by_cases hf : startFunc = 0
  · rw [if_pos hf] at h
    obtain ⟨rfl, rfl⟩ := Prod.mk.inj h
    exact .inl ⟨rfl, rfl, rfl, .inl hf, fun _ _ => rfl⟩
  rw [if_neg hf] at h
  cases newThread with
  | none =>
    obtain ⟨rfl, rfl⟩ := Prod.mk.inj h
    exact .inl ⟨rfl, rfl, rfl, .inr (.inl rfl), fun _ _ => rfl⟩
  | some thr =>
    by_cases hs : stack = 0
    · simp only [hs, if_true] at h
      obtain ⟨rfl, rfl⟩ := Prod.mk.inj h
      refine .inl ⟨rfl, rfl, rfl, .inr (.inr hs), fun t ht => ?_⟩
      exact Function.update_of_ne (fun he => ht (by rw [he])) ..
    · simp only [hs, if_false] at h
      obtain ⟨rfl, rfl⟩ := Prod.mk.inj h
      refine .inr ⟨thr, hf, hs, rfl, rfl, rfl, rfl, ?_, fun t ht => Function.update_of_ne ht ..⟩
      simp [System.state]

/-- The calls of `thread_create` in terms of its first part. -/
theorem threadCreate_of_insert {thr : τ} {s₁ : System τ}
    (h : insertNewThread s name startFunc newThread stack = (some thr, s₁))
    (hc : s₁.state thr = .created) :
    threadCreate s name startFunc newThread stack = some (some thr, s₁.readied thr) := by
  rw [threadCreate, h]
  simp only [schedulerSetReady_created hc]
  rfl

/-- A thread is created or, without a start function or memory for it, nothing but the memory
that `malloc` gave has changed. -/
theorem threadCreate_cases (h : threadCreate s name startFunc newThread stack = some (r, s')) :
    (r = none ∧ s'.links = s.links ∧ s'.gCurrentThread = s.gCurrentThread ∧
        (startFunc = 0 ∨ newThread = none ∨ stack = 0) ∧
        ∀ t, newThread ≠ some t → s'.threads t = s.threads t) ∨
      ∃ thr, startFunc ≠ 0 ∧ stack ≠ 0 ∧ newThread = some thr ∧ r = some thr ∧
        Creates s thr s' := by
  obtain ⟨r₁, s₁, h₁⟩ : ∃ r₁ s₁, insertNewThread s name startFunc newThread stack = (r₁, s₁) :=
    ⟨_, _, rfl⟩
  rcases insertNewThread_cases h₁ with ⟨rfl, hrest⟩ | ⟨thr, hf, hs, hthr, rfl, hi⟩
  · rw [threadCreate, h₁] at h
    obtain ⟨rfl, rfl⟩ := Prod.mk.inj (Option.some.inj h)
    exact .inl ⟨rfl, hrest⟩
  · rw [threadCreate_of_insert h₁ hi.created] at h
    obtain ⟨rfl, rfl⟩ := Prod.mk.inj (Option.some.inj h)
    exact .inr ⟨thr, hf, hs, hthr, rfl, hi.creates⟩

end Create

end Einherjar.Threading
