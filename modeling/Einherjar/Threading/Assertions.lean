import Einherjar.Lib.LooseQueue
import Einherjar.Lib.Run
import Einherjar.Threading.KernelRun

/-! The states of the threads and the assertions of the scheduler in every run, also in those
that lose threads from the ready queue. -/
namespace Einherjar.Threading
open Einherjar.Lib Einherjar.Lib.TailQueue

variable {τ : Type*}

/-- The threads created so far. -/
def Kernel.threadSet (k : Kernel τ) : Set τ := { t | t ∈ k.created }

/-- Just one thread is running, the current one; the others are ready. -/
def OneRunning (k : Kernel τ) : Prop :=
  ∃ cur ∈ k.created, k.sys.gCurrentThread = some cur ∧ k.sys.state cur = .running ∧
    ∀ t ∈ k.created, t ≠ cur → k.sys.state t = .ready

/-- No assertion fails in any call that can come next, nor in the thread that a tick resumes. -/
structure AssertionsHold [DecidableEq τ] (k : Kernel τ) : Prop where
  create : ∀ name startFunc newThread stack,
    ∃ r sys, threadCreate k.sys name startFunc newThread stack = some (r, sys)
  schedule : ∃ sys next, schedule k.sys = some sys ∧ sys.gCurrentThread = some next ∧
    scheduleResumed sys next

/-- The running thread is `cur`, the others are ready or still being created, and the ready queue,
whatever has become of it, leads to no other threads. -/
structure Steady (k : Kernel τ) (unready : Set τ) (cur : τ) : Prop where
  current : k.sys.gCurrentThread = some cur
  running : k.sys.state cur = .running
  ready : ∀ t, t ∈ k.created ∧ t ∉ unready → t ≠ cur → k.sys.state t = .ready
  state_unready : ∀ t ∈ unready, k.sys.state t = .created
  unready_mem : ∀ t ∈ unready, t ∈ k.created
  cur_mem : cur ∈ k.created
  queue : Loose k.sys.links .readyThreadsQueue k.threadSet (k.threadSet \ insert cur unready)
  newest : ∃ t, k.sys.links.tqhLast .kernelThreads = .next t

theorem Steady.oneRunning {k : Kernel τ} {cur : τ} (h : Steady k ∅ cur) : OneRunning k :=
  ⟨cur, h.cur_mem, h.current, h.running, fun t ht => h.ready t ⟨ht, id⟩⟩

variable [DecidableEq τ]

theorem threadCreate_returns (s : System τ) (name : Option (List (BitVec 8)))
    (startFunc : BitVec 32) (newThread : Option τ) (stack : BitVec 32) :
    ∃ r sys, threadCreate s name startFunc newThread stack = some (r, sys) := by
  obtain ⟨r₁, s₁, h₁⟩ : ∃ r₁ s₁, insertNewThread s name startFunc newThread stack = (r₁, s₁) :=
    ⟨_, _, rfl⟩
  rcases insertNewThread_cases h₁ with ⟨rfl, -⟩ | ⟨thr, -, -, -, rfl, hi⟩
  · exact ⟨none, s₁, by rw [threadCreate, h₁]⟩
  · exact ⟨_, _, threadCreate_of_insert h₁ hi.created⟩

namespace Steady

variable {k k' : Kernel τ} {unready : Set τ} {cur thr : τ} {sys : System τ}

omit [DecidableEq τ] in
theorem cur_notMem (h : Steady k unready cur) : cur ∉ unready := by
  intro hmem
  have hstate := h.state_unready cur hmem
  rw [h.running] at hstate
  cases hstate

/-- The queue is not empty once the running thread is in it. Its first thread gets the processor
unless that is still being created. -/
theorem tick (h : Steady k unready cur) :
    ∃ x, first (insertTail k.sys.links .readyThreadsQueue cur) .readyThreadsQueue = some x ∧
      (x ∈ unready → schedule k.sys = none) ∧
      (x ∉ unready → schedule k.sys = some (Threading.tick k.sys cur x) ∧
        Steady { k with sys := Threading.tick k.sys cur x } unready x) := by
  obtain ⟨hinsert, hfirst⟩ := h.queue.insertTail (show cur ∈ k.threadSet from h.cur_mem)
  obtain ⟨x, hx⟩ := Option.ne_none_iff_exists'.mp hfirst
  have hmem := hinsert.first_mem x hx
  have hschedule := schedule_eq h.current h.running hx
  refine ⟨x, hx, fun hxu => ?_, fun hxu => ?_⟩
  · have hxc : x ≠ cur := fun he => h.cur_notMem (he ▸ hxu)
    rw [hschedule, if_neg]
    rw [h.state_unready x hxu]
    simpa using hxc
  have hready : x = cur ∨ k.sys.state x = .ready := by
    by_cases hxc : x = cur
    · exact .inl hxc
    · exact .inr (h.ready x ⟨hmem, hxu⟩ hxc)
  -- All threads that can be in the queue are linked into it again
  have hall : k.threadSet \ unready ⊆ insert cur (k.threadSet \ insert cur unready) := by
    rintro t ⟨ht, htu⟩
    by_cases htc : t = cur
    · exact .inl htc
    · exact .inr ⟨ht, fun hor => hor.elim htc htu⟩
  have hlinked := hinsert.mono hall
  refine ⟨hschedule.trans (if_pos hready), ?_⟩
  constructor
  case current => rfl
  case running => exact tick_state_self ..
  case ready => exact ready_tick h.ready
  case state_unready =>
    intro t ht
    have htc : t ≠ cur := fun he => h.cur_notMem (he ▸ ht)
    have htx : t ≠ x := fun he => hxu (he ▸ ht)
    exact (tick_state_of_ne _ _ _ htx htc).trans (h.state_unready t ht)
  case unready_mem => exact h.unready_mem
  case cur_mem => exact hmem
  case queue =>
    refine (hlinked.rotate hx ⟨hmem, hxu⟩).mono ?_
    exact Set.sdiff_subset_sdiff_right (Set.subset_insert x unready)
  case newest =>
    obtain ⟨t, ht⟩ := h.newest
    exact ⟨t, tickLinks_tqhLast_kernelThreads.trans ht⟩

/-- A new thread comes into the list of all threads. -/
theorem insert (h : Steady k unready cur) (fresh : thr ∉ k.created)
    (hi : Inserts k.sys thr sys) :
    Steady { sys := sys, created := k.created ++ [thr] } (insert thr unready) cur := by
  have hcur : cur ≠ thr := fun he => fresh (he ▸ h.cur_mem)
  have hset : ({ sys := sys, created := k.created ++ [thr] } : Kernel τ).threadSet =
      Insert.insert thr k.threadSet := by
    ext t
    simp [Kernel.threadSet, or_comm]
  constructor
  case current => exact hi.gCurrentThread.trans h.current
  case running => exact (hi.state_of_ne hcur).trans h.running
  case ready =>
    rintro t ⟨ht, htu⟩ htc
    have htt : t ≠ thr := fun he => htu (.inl he)
    have htk : t ∈ k.created :=
      (List.mem_append.mp ht).resolve_right fun hm => htt (List.mem_singleton.mp hm)
    exact (hi.state_of_ne htt).trans (h.ready t ⟨htk, fun hm => htu (.inr hm)⟩ htc)
  case state_unready =>
    rintro t (rfl | ht)
    · exact hi.created
    · have htt : t ≠ thr := fun he => fresh (he ▸ h.unready_mem t ht)
      exact (hi.state_of_ne htt).trans (h.state_unready t ht)
  case unready_mem =>
    rintro t (rfl | ht)
    · simp
    · exact List.mem_append_left _ (h.unready_mem t ht)
  case cur_mem => exact List.mem_append_left _ h.cur_mem
  case queue =>
    obtain ⟨newest, hnewest⟩ := h.newest
    have hother := h.queue.insert_other lists_ne hnewest fun hthr => fresh hthr.1
    change Loose sys.links _ _ _
    rw [hi.links, hset]
    refine hother.mono ?_
    rintro t ⟨rfl | ht, htu⟩
    · exact absurd (.inr (.inl rfl)) htu
    · exact ⟨ht, fun hor => htu (hor.imp_right .inr)⟩
  case newest =>
    refine ⟨thr, ?_⟩
    change sys.links.tqhLast _ = _
    rw [hi.links, insertTail_tqhLast, Function.update_self]

/-- A thread that is being created becomes ready. -/
theorem setReady (h : Steady k unready cur) (hthr : thr ∈ unready) :
    schedulerSetReady k.sys thr = some (kernelOk, k.sys.readied thr) ∧
      Steady { k with sys := k.sys.readied thr } (unready \ {thr}) cur := by
  refine ⟨schedulerSetReady_created (h.state_unready thr hthr), ?_⟩
  have hcur : cur ≠ thr := fun he => h.cur_notMem (he ▸ hthr)
  constructor
  case current => exact h.current
  case running => exact (readied_state_of_ne hcur).trans h.running
  case ready =>
    rintro t ⟨ht, htu⟩ htc
    by_cases htt : t = thr
    · rw [htt]
      exact System.setState_state_self ..
    · exact (readied_state_of_ne htt).trans (h.ready t ⟨ht, fun hm => htu ⟨hm, htt⟩⟩ htc)
  case state_unready =>
    rintro t ⟨ht, htt⟩
    exact (readied_state_of_ne htt).trans (h.state_unready t ht)
  case unready_mem => exact fun t ht => h.unready_mem t ht.1
  case cur_mem => exact h.cur_mem
  case queue =>
    have hinsert := (h.queue.insertTail (show thr ∈ k.threadSet from h.unready_mem thr hthr)).1
    refine hinsert.mono ?_
    rintro t ⟨ht, htu⟩
    by_cases htt : t = thr
    · exact .inl htt
    · exact .inr ⟨ht, fun hor => htu (hor.imp_right fun hm => ⟨hm, htt⟩)⟩
  case newest =>
    obtain ⟨t, ht⟩ := h.newest
    refine ⟨t, ?_⟩
    change (insertTail k.sys.links .readyThreadsQueue thr).tqhLast .kernelThreads = _
    rw [insertTail_tqhLast, Function.update_of_ne lists_ne, ht]

omit [DecidableEq τ] in
/-- A creation that fails. -/
theorem create_failed (h : Steady k unready cur) {newThread : Option τ}
    (fresh : ∀ thr, newThread = some thr → thr ∉ k.created) (hlinks : sys.links = k.sys.links)
    (hcurrent : sys.gCurrentThread = k.sys.gCurrentThread)
    (hthreads : ∀ t, newThread ≠ some t → sys.threads t = k.sys.threads t) :
    Steady { sys := sys, created := k.created } unready cur := by
  have hstate : ∀ t ∈ k.created, sys.state t = k.sys.state t := by
    intro t ht
    unfold System.state
    rw [hthreads t fun he => fresh t he ht]
  constructor
  case current => exact hcurrent.trans h.current
  case running => exact (hstate cur h.cur_mem).trans h.running
  case ready => exact fun t ht htc => (hstate t ht.1).trans (h.ready t ht htc)
  case state_unready =>
    exact fun t ht => (hstate t (h.unready_mem t ht)).trans (h.state_unready t ht)
  case unready_mem => exact h.unready_mem
  case cur_mem => exact h.cur_mem
  case queue => exact hlinks ▸ h.queue
  case newest => exact hlinks ▸ h.newest

theorem step (h : Steady k ∅ cur) {e : Event τ} (hstep : Step k e k') :
    ∃ cur', Steady k' ∅ cur' := by
  cases hstep with
  | @create name startFunc newThread stack r sys fresh call =>
    obtain ⟨r₁, s₁, h₁⟩ : ∃ r₁ s₁, insertNewThread k.sys name startFunc newThread stack =
      (r₁, s₁) := ⟨_, _, rfl⟩
    rcases insertNewThread_cases h₁ with ⟨rfl, hlinks, hcurrent, -, hthreads⟩ |
        ⟨thr, -, -, rfl, rfl, hi⟩
    · rw [threadCreate, h₁] at call
      obtain ⟨rfl, rfl⟩ := Prod.mk.inj (Option.some.inj call)
      rw [Option.toList_none, List.append_nil]
      exact ⟨cur, h.create_failed fresh hlinks hcurrent hthreads⟩
    · rw [threadCreate_of_insert h₁ hi.created] at call
      obtain ⟨rfl, rfl⟩ := Prod.mk.inj (Option.some.inj call)
      have hready := ((h.insert (fresh thr rfl) hi).setReady (Set.mem_insert thr ∅)).2
      rw [Set.insert_sdiff_of_mem _ (Set.mem_singleton thr), Set.empty_sdiff] at hready
      exact ⟨cur, hready⟩
  | @schedule sys call =>
    obtain ⟨x, -, -, htick⟩ := h.tick
    obtain ⟨htick, hsteady⟩ := htick (Set.notMem_empty x)
    obtain rfl := Option.some.inj (htick.symm.trans call)
    exact ⟨x, hsteady⟩

theorem assertionsHold (h : Steady k ∅ cur) : AssertionsHold k := by
  constructor
  case create => exact threadCreate_returns k.sys
  case schedule =>
    obtain ⟨x, -, -, htick⟩ := h.tick
    exact ⟨_, x, (htick (Set.notMem_empty x)).1, rfl, tick_resumed⟩

end Steady

/-- The idle thread's `tqe_prev` field need not be right before the first tick. -/
theorem steady_of_booted {k : Kernel τ} (h : Booted k) : ∃ idle, Steady k ∅ idle := by
  obtain ⟨idle, hcreated, hinv⟩ := invariant_of_booted h
  refine ⟨idle, ?_⟩
  constructor
  case current => exact hinv.current
  case running => exact hinv.running
  case ready => exact fun t ht => hinv.ready t ht.1
  case state_unready => exact fun t ht => absurd ht (Set.notMem_empty t)
  case unready_mem => exact fun t ht => absurd ht (Set.notMem_empty t)
  case cur_mem => exact hinv.cur_mem
  case queue =>
    have hlinked : k.threadSet \ Insert.insert idle ∅ = ∅ := by
      ext t
      simp [Kernel.threadSet, hcreated]
    rw [hlinked]
    exact hinv.queue.loose_nil _
  case newest =>
    obtain ⟨t, -, ht⟩ := hinv.newest
    exact ⟨t, ht⟩

/-- In every run from the set-up, the current thread is the only one running, the others are
ready, and no assertion fails. -/
theorem assertions_hold (k : Kernel τ) (hk : Booted k) (p : List (Event τ × Kernel τ))
    (hp : Path Step k p) : OneRunning (finalState k p) ∧ AssertionsHold (finalState k p) := by
  obtain ⟨idle, hsteady⟩ := steady_of_booted hk
  have hall : ∀ x ∈ p, ∃ cur, Steady x.2 ∅ cur := by
    refine hp.invariant (I := fun k => ∃ cur, Steady k ∅ cur) ?_ ⟨idle, hsteady⟩
    intro k e k' hs hstep
    obtain ⟨cur, h⟩ := hs
    exact h.step hstep
  obtain ⟨cur, h⟩ : ∃ cur, Steady (finalState k p) ∅ cur :=
    finalState_of_forall (P := fun k => ∃ cur, Steady k ∅ cur) ⟨idle, hsteady⟩ hall
  exact ⟨h.oneRunning, h.assertionsHold⟩

/-- A run that loses the idle thread. -/
theorem assertions_hold_idleLost : ∃ (k : Kernel ℕ) (p : List (Event ℕ × Kernel ℕ)),
    Booted k ∧ Path Step k p ∧
      p.map Prod.fst = [createAt 1, createAt 2, .schedule, createAt 3, .schedule] ∧
      OneRunning (finalState k p) ∧ AssertionsHold (finalState k p) := by
  have hp : Path Step bootedKernel
      [(createAt 1, _), (createAt 2, _), (.schedule, _), (createAt 3, _), (.schedule, _)] :=
    .cons (.create (createAt_fresh (by decide)) rfl)
      (.cons (.create (createAt_fresh (by decide)) rfl)
        (.cons (.schedule rfl)
          (.cons (.create (createAt_fresh (by decide)) rfl) (.cons (.schedule rfl) (.nil _)))))
  exact ⟨_, _, booted_bootedKernel, hp, rfl, assertions_hold _ booted_bootedKernel _ hp⟩

end Einherjar.Threading
