import Einherjar.Threading.InterruptedCreation

/-! The running thread at the front of the ready queue: from then on no tick gives the processor to
another thread. -/
namespace Einherjar.Threading
open Einherjar.Lib.TailQueue

variable {τ : Type*}

/-- The running thread is the first one in the queue, wherever the queue ends. -/
structure AtFront (k : Kernel τ) (cur : τ) : Prop where
  current : k.sys.gCurrentThread = some cur
  running : k.sys.state cur = .running
  cur_mem : cur ∈ k.created
  first : k.sys.links.load (.first .readyThreadsQueue) = some cur
  last : ∃ t, k.sys.links.tqhLast .readyThreadsQueue = .next t
  newest : ∃ t, k.sys.links.tqhLast .kernelThreads = .next t

variable [DecidableEq τ]

/-- The insertion at the end makes `tqe_prev` of the first thread point to the last one, so that the
removal does not take it from the front. -/
theorem tickLinks_front {m : Links ThreadList τ} {cur z : τ}
    (hfirst : m.load (.first .readyThreadsQueue) = some cur)
    (hlast : m.tqhLast .readyThreadsQueue = .next z) :
    first (insertTail m .readyThreadsQueue cur) .readyThreadsQueue = some cur ∧
      (tickLinks m cur cur).load (.first .readyThreadsQueue) = some cur ∧
      (tickLinks m cur cur).tqhLast .readyThreadsQueue = .next cur := by
  by_cases hzc : z = cur
  · subst hzc
    obtain ⟨hfront, hhead, -, htail⟩ := tickLinks_self hfirst hlast
    exact ⟨hfront, hhead, htail⟩
  have hcz : (Slot.next cur : Slot ThreadList τ) ≠ .next z :=
    fun he => hzc (Slot.next.inj he).symm
  have hnone : (insertTail m .readyThreadsQueue cur).load (.next cur) = none := by
    rw [insertTail_load, hlast, Function.update_of_ne hcz, Function.update_self]
  unfold tickLinks
  refine ⟨?_, ?_, ?_⟩
  · simp [Einherjar.Lib.TailQueue.first, insertTail_load, hlast, hfirst]
  · rw [insertTail_load, remove_tqhLast_of_none _ _ _ hnone, remove_load]
    simp [insertTail_load, hlast, hfirst]
  · rw [insertTail_tqhLast, Function.update_self]

namespace AtFront

variable {k k' : Kernel τ} {cur : τ}

theorem tick (h : AtFront k cur) :
    schedule k.sys = some (Threading.tick k.sys cur cur) ∧
      AtFront { k with sys := Threading.tick k.sys cur cur } cur := by
  obtain ⟨z, hlast⟩ := h.last
  obtain ⟨hfront, hhead, htail⟩ := tickLinks_front h.first hlast
  refine ⟨schedule_eq_tick h.current h.running hfront (.inl rfl), ?_⟩
  constructor
  case current => rfl
  case running => exact tick_state_self ..
  case cur_mem => exact h.cur_mem
  case first => exact hhead
  case last => exact ⟨cur, htail⟩
  case newest =>
    obtain ⟨t, ht⟩ := h.newest
    exact ⟨t, tickLinks_tqhLast_kernelThreads.trans ht⟩

/-- A new thread comes into the list of all threads. -/
theorem insert (h : AtFront k cur) {thr : τ} {sys : System τ} (fresh : thr ∉ k.created)
    (hi : Inserts k.sys thr sys) : AtFront { sys := sys, created := k.created ++ [thr] } cur := by
  have hcur : cur ≠ thr := fun he => fresh (he ▸ h.cur_mem)
  obtain ⟨t, hnewest⟩ := h.newest
  constructor
  case current => exact hi.gCurrentThread.trans h.current
  case running => exact (hi.state_of_ne hcur).trans h.running
  case cur_mem => exact List.mem_append_left _ h.cur_mem
  case first =>
    change sys.links.load _ = _
    rw [hi.links, insertTail_load_first hnewest, h.first]
  case last =>
    obtain ⟨z, hlast⟩ := h.last
    refine ⟨z, ?_⟩
    change sys.links.tqhLast _ = _
    rw [hi.links, insertTail_tqhLast, Function.update_of_ne lists_ne.symm, hlast]
  case newest =>
    refine ⟨thr, ?_⟩
    change sys.links.tqhLast _ = _
    rw [hi.links, insertTail_tqhLast, Function.update_self]

/-- Another thread goes to the end of the queue. -/
theorem setReady (h : AtFront k cur) {thr : τ} (hne : cur ≠ thr) :
    AtFront { k with sys := k.sys.readied thr } cur := by
  obtain ⟨z, hlast⟩ := h.last
  constructor
  case current => exact h.current
  case running => exact (readied_state_of_ne hne).trans h.running
  case cur_mem => exact h.cur_mem
  case first => exact (insertTail_load_first hlast).trans h.first
  case last =>
    refine ⟨thr, ?_⟩
    change (insertTail k.sys.links _ thr).tqhLast _ = _
    rw [insertTail_tqhLast, Function.update_self]
  case newest =>
    obtain ⟨t, hnewest⟩ := h.newest
    refine ⟨t, ?_⟩
    change (insertTail k.sys.links _ thr).tqhLast _ = _
    rw [insertTail_tqhLast, Function.update_of_ne lists_ne, hnewest]

omit [DecidableEq τ] in
/-- A creation that fails. -/
theorem create_failed (h : AtFront k cur) {newThread : Option τ} {sys : System τ}
    (fresh : ∀ thr, newThread = some thr → thr ∉ k.created) (hlinks : sys.links = k.sys.links)
    (hcurrent : sys.gCurrentThread = k.sys.gCurrentThread)
    (hthreads : ∀ t, newThread ≠ some t → sys.threads t = k.sys.threads t) :
    AtFront { sys := sys, created := k.created } cur := by
  have hstate : sys.state cur = k.sys.state cur := by
    unfold System.state
    rw [hthreads cur fun he => fresh cur he h.cur_mem]
  constructor
  case current => exact hcurrent.trans h.current
  case running => exact hstate.trans h.running
  case cur_mem => exact h.cur_mem
  case first => exact hlinks ▸ h.first
  case last => exact hlinks ▸ h.last
  case newest => exact hlinks ▸ h.newest

/-- The thread at the front runs after every call, also after a tick inside a creation. -/
theorem step {k k' : OpenKernel τ} {e : OpenEvent τ} (h : AtFront k.toKernel cur)
    (hsteady : OpenSteady k cur) (hstep : OpenStep k e k') : AtFront k'.toKernel cur := by
  cases hstep with
  | @insert caller name startFunc newThread stack r sys hcur hnone fresh call =>
    rcases insertNewThread_cases call with ⟨rfl, hlinks, hcurrent, -, hthreads⟩ |
        ⟨thr, -, -, rfl, rfl, hi⟩
    · rw [Option.toList_none, List.append_nil]
      exact h.create_failed fresh hlinks hcurrent hthreads
    · exact h.insert (fresh thr rfl) hi
  | @setReady caller thr status sys hcur hthr call =>
    obtain rfl : caller = cur := Option.some.inj (hcur.symm.trans h.current)
    have hne : caller ≠ thr := fun he => hsteady.steady.cur_notMem (he ▸ ⟨caller, hthr⟩)
    obtain ⟨-, rfl⟩ := Prod.mk.inj (Option.some.inj ((hsteady.setReady hthr).1.symm.trans call))
    exact h.setReady hne
  | @schedule sys call =>
    obtain ⟨htick, hfront⟩ := h.tick
    obtain rfl := Option.some.inj (htick.symm.trans call)
    exact hfront

end AtFront

/-- Before the first tick: the idle thread runs, and the queue is empty until another thread has
been set ready, which is the first one then. -/
structure Early (k : OpenKernel τ) (idle : τ) (readied : Prop) : Prop where
  steady : OpenSteady k idle
  empty : ¬ readied → Queue k.sys.links .readyThreadsQueue []
  filled : readied → (∃ t ≠ idle, k.sys.links.load (.first .readyThreadsQueue) = some t) ∧
    ∃ z, k.sys.links.tqhLast .readyThreadsQueue = .next z

namespace Early

variable {k k' : OpenKernel τ} {idle : τ} {readied : Prop} {e : OpenEvent τ}

omit [DecidableEq τ] in
/-- The queue has neither a new front nor a new end. -/
theorem congr (h : Early k idle readied) (hsteady : OpenSteady k' idle)
    (hfirst : k'.sys.links.load (.first .readyThreadsQueue) =
      k.sys.links.load (.first .readyThreadsQueue))
    (hlast : k'.sys.links.tqhLast .readyThreadsQueue = k.sys.links.tqhLast .readyThreadsQueue) :
    Early k' idle readied where
  steady := hsteady
  empty hr := by
    rw [queue_nil_iff, hfirst, hlast, ← queue_nil_iff]
    exact h.empty hr
  filled hr := by
    rw [hfirst, hlast]
    exact h.filled hr

/-- The first thread that is set ready comes to the front of the queue. -/
theorem setReady (h : Early k idle readied) (hsteady : OpenSteady k' idle) {thr : τ}
    (hne : thr ≠ idle) (hlinks : k'.sys.links = insertTail k.sys.links .readyThreadsQueue thr) :
    Early k' idle True where
  steady := hsteady
  empty hr := absurd trivial hr
  filled _ := by
    rw [hlinks, insertTail_tqhLast, Function.update_self]
    refine ⟨?_, thr, rfl⟩
    by_cases hr : readied
    · obtain ⟨⟨t, ht, hfirst⟩, z, hlast⟩ := h.filled hr
      exact ⟨t, ht, (insertTail_load_first hlast).trans hfirst⟩
    · obtain ⟨hlast, -⟩ := queue_nil_iff.mp (h.empty hr)
      refine ⟨thr, hne, ?_⟩
      rw [insertTail_load, hlast, Function.update_self]

theorem step (h : Early k idle readied) (hstep : OpenStep k e k') (he : e ≠ .schedule) :
    Early k' idle (readied ∨ e = .setReady) := by
  obtain ⟨cur, hsteady, hcur⟩ := h.steady.step hstep
  obtain rfl := hcur he
  cases hstep with
  | @insert caller name startFunc newThread stack r sys hcur hnone fresh call =>
    have hsame : (readied ∨ OpenEvent.insert name startFunc newThread stack = .setReady) =
        readied := by simp
    rw [hsame]
    rcases insertNewThread_cases call with ⟨rfl, hlinks, -⟩ | ⟨thr, -, -, rfl, rfl, hi⟩
    · exact h.congr hsteady (by rw [hlinks]) (by rw [hlinks])
    · obtain ⟨newest, hnewest⟩ := h.steady.steady.newest
      refine h.congr hsteady ?_ ?_
      · rw [hi.links, insertTail_load_first hnewest]
      · rw [hi.links, insertTail_tqhLast, Function.update_of_ne lists_ne.symm]
  | @setReady caller thr status sys hcaller hthr call =>
    have hsame : (readied ∨ (OpenEvent.setReady : OpenEvent τ) = .setReady) = True := by simp
    rw [hsame]
    obtain rfl : caller = cur := Option.some.inj (hcaller.symm.trans h.steady.steady.current)
    have hne : thr ≠ caller := fun he => h.steady.steady.cur_notMem (he ▸ ⟨caller, hthr⟩)
    obtain ⟨-, rfl⟩ := Prod.mk.inj (Option.some.inj ((h.steady.setReady hthr).1.symm.trans call))
    exact h.setReady hsteady hne rfl
  | schedule => exact absurd rfl he

/-- The first tick: it puts the idle thread to the front when no other one is ready, and gives the
processor to another thread when there is one. -/
theorem schedule (h : Early k idle readied) (hstep : OpenStep k .schedule k') :
    (¬ readied → AtFront k'.toKernel idle) ∧
      (readied → ∃ t ≠ idle, k'.sys.gCurrentThread = some t) := by
  obtain ⟨x, hx, hnone, htick⟩ := h.steady.steady.tick
  cases hstep with
  | @schedule sys call =>
    have hxu : x ∉ k.unready := by
      intro hxu
      rw [hnone hxu] at call
      cases call
    obtain ⟨htick, hsteady⟩ := htick hxu
    obtain rfl := Option.some.inj (htick.symm.trans call)
    constructor
    · intro hr
      have hempty := h.empty hr
      have hheadPrev : HeadPrev k.sys.links .readyThreadsQueue := by
        intro y hy
        rw [(queue_nil_iff.mp hempty).2] at hy
        cases hy
      have hout : idle ∉ [] := List.not_mem_nil
      obtain ⟨hfirst, hqueue, -⟩ :=
        tickLinks_queue hempty hheadPrev hout (.inl rfl) (List.nil_append _)
      obtain rfl : x = idle := Option.some.inj (hx.symm.trans hfirst)
      constructor
      case current => rfl
      case running => exact hsteady.running
      case cur_mem => exact hsteady.cur_mem
      case first => exact hqueue.1.1.1
      case last => exact ⟨x, hqueue.1.2⟩
      case newest => exact hsteady.newest
    · intro hr
      obtain ⟨⟨t, ht, hfirst⟩, z, hlast⟩ := h.filled hr
      refine ⟨t, ht, ?_⟩
      obtain rfl : x = t := Option.some.inj
        (hx.symm.trans ((insertTail_load_first hlast).trans hfirst))
      rfl

end Early

theorem OpenBooted.early {k : OpenKernel τ} (h : OpenBooted k) : ∃ idle, Early k idle False := by
  obtain ⟨idle, hsteady⟩ := h.openSteady
  obtain ⟨idle', -, hinv⟩ := invariant_of_booted h.booted
  exact ⟨idle, hsteady, fun _ => hinv.queue, False.elim⟩

end Einherjar.Threading
