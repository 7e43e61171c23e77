import Einherjar.Threading.ReadyQueue

/-! Runs of `thread_create` and `schedule` after the set-up, and the state of a kernel whose
ready queue holds every thread that waits. -/
namespace Einherjar.Threading
open Einherjar.Lib.TailQueue

variable {τ : Type*} [DecidableEq τ]

/-- The kernel's memory, and the threads created so far in the order of their creation. -/
structure Kernel (τ : Type*) where
  sys : System τ
  created : List τ

inductive Event (τ : Type*) where
  | create (name : Option (List (BitVec 8))) (startFunc : BitVec 32) (newThread : Option τ)
      (stack : BitVec 32)
  | schedule

/-- The kernel after `threading_setup` and `scheduler_setup`, whatever memory held before. -/
def Booted (k : Kernel τ) : Prop :=
  ∃ prior idleThread idle stack sys, threadingSetup prior idleThread (some idle) stack = some sys ∧
    k = { sys := schedulerSetup sys, created := [idle] }

/-- One call. `malloc` does not give out the memory of a thread that exists. -/
inductive Step : Kernel τ → Event τ → Kernel τ → Prop
  | create {k : Kernel τ} {name : Option (List (BitVec 8))} {startFunc : BitVec 32}
      {newThread : Option τ} {stack : BitVec 32} {r : Option τ} {sys : System τ}
      (fresh : ∀ thr, newThread = some thr → thr ∉ k.created)
      (call : threadCreate k.sys name startFunc newThread stack = some (r, sys)) :
      Step k (.create name startFunc newThread stack)
        { sys := sys, created := k.created ++ r.toList }
  | schedule {k : Kernel τ} {sys : System τ} (call : schedule k.sys = some sys) :
      Step k .schedule { k with sys := sys }

/-- The running thread is `cur`, the ready queue is `q`, and every other thread is ready and
in the queue. Whether `cur` is in the queue, and where, is left open. -/
structure Invariant (k : Kernel τ) (cur : τ) (q : List τ) : Prop where
  current : k.sys.gCurrentThread = some cur
  running : k.sys.state cur = .running
  ready : ∀ t ∈ k.created, t ≠ cur → k.sys.state t = .ready
  queue : Queue k.sys.links .readyThreadsQueue q
  headPrev : HeadPrev k.sys.links .readyThreadsQueue
  cur_mem : cur ∈ k.created
  queued : ∀ t ∈ q, t ∈ k.created
  waiting : ∀ t ∈ k.created, t ≠ cur → t ∈ q
  newest : ∃ t, k.created.getLast? = some t ∧ k.sys.links.tqhLast .kernelThreads = .next t

namespace Invariant

variable {k k' : Kernel τ} {cur : τ} {q : List τ} {e : Event τ}

/-- A tick when the running thread is not in the queue, or is the last of several there. -/
theorem tick (h : Invariant k cur q) {waiting rest : List τ} {x : τ} (hcur : cur ∉ waiting)
    (hshape : q = waiting ∨ q = waiting ++ [cur] ∧ waiting ≠ [])
    (hx : waiting ++ [cur] = x :: rest) :
    schedule k.sys = some (Threading.tick k.sys cur x) ∧
      Invariant { k with sys := Threading.tick k.sys cur x } x (rest ++ [x]) := by
  obtain ⟨hfirst, hqueue, hheadPrev⟩ := tickLinks_queue h.queue h.headPrev hcur hshape hx
  have hmem : ∀ t, t ∈ waiting ++ [cur] ↔ t = x ∨ t ∈ rest := by
    intro t
    rw [hx, List.mem_cons]
  have hwq : ∀ t ∈ waiting, t ∈ q := by
    intro t ht
    rcases hshape with rfl | ⟨rfl, -⟩
    · exact ht
    · exact List.mem_append_left _ ht
  have hqw : ∀ t ∈ q, t ∈ waiting ++ [cur] := by
    intro t ht
    rcases hshape with rfl | ⟨rfl, -⟩
    · exact List.mem_append_left _ ht
    · exact ht
  have hcreated : ∀ t ∈ waiting ++ [cur], t ∈ k.created := by
    intro t ht
    rcases List.mem_append.mp ht with ht | ht
    · exact h.queued t (hwq t ht)
    · rw [List.mem_singleton.mp ht]
      exact h.cur_mem
  have hxmem : x ∈ waiting ++ [cur] := (hmem x).mpr (.inl rfl)
  have hxready : x = cur ∨ k.sys.state x = .ready := by
    by_cases hxc : x = cur
    · exact .inl hxc
    · exact .inr (h.ready x (hcreated x hxmem) hxc)
  have hlast : ∀ t, t ≠ x → t ∈ waiting ++ [cur] → t ∈ rest ++ [x] := by
    intro t htx ht
    exact List.mem_append_left _ (((hmem t).mp ht).resolve_left htx)
  refine ⟨schedule_eq_tick h.current h.running hfirst hxready, ?_⟩
  constructor
  case current => rfl
  case running => exact tick_state_self ..
  case ready => exact ready_tick h.ready
  case queue => exact hqueue
  case headPrev => exact hheadPrev
  case cur_mem => exact hcreated x hxmem
  case queued =>
    intro t ht
    apply hcreated
    rw [hmem]
    rcases List.mem_append.mp ht with ht | ht
    · exact .inr ht
    · exact .inl (List.mem_singleton.mp ht)
  case waiting =>
    intro t ht htx
    apply hlast t htx
    by_cases htc : t = cur
    · simp [htc]
    · exact hqw t (h.waiting t ht htc)
  case newest =>
    obtain ⟨t, ht, hlast⟩ := h.newest
    exact ⟨t, ht, tickLinks_tqhLast_kernelThreads.trans hlast⟩

/-- A creation that leaves every waiting thread in the queue. -/
theorem create (h : Invariant k cur q) {thr : τ} {sys : System τ} (fresh : thr ∉ k.created)
    (hc : Creates k.sys thr sys) {q' : List τ} (hq' : Queue sys.links .readyThreadsQueue q')
    (hthr : thr ∈ q') (hsub : ∀ t ∈ q', t ∈ q ∨ t = thr)
    (hkept : ∀ t ∈ q, t ≠ cur → t ∈ q') :
    Invariant { sys := sys, created := k.created ++ [thr] } cur q' := by
  obtain ⟨newest, -, hnewest⟩ := h.newest
  have hthrq : thr ∉ q := fun ht => fresh (h.queued thr ht)
  have hcur : cur ≠ thr := fun he => fresh (he ▸ h.cur_mem)
  constructor
  case current => exact hc.gCurrentThread.trans h.current
  case running => exact (hc.state_of_ne hcur).trans h.running
  case ready => exact hc.ready_append h.ready
  case queue => exact hq'
  case headPrev =>
    change HeadPrev sys.links _
    rw [hc.links]
    exact createLinks_headPrev h.queue h.headPrev hnewest hthrq
  case cur_mem => exact List.mem_append_left _ h.cur_mem
  case queued =>
    intro t ht
    rcases hsub t ht with ht | rfl
    · exact List.mem_append_left _ (h.queued t ht)
    · simp
  case waiting =>
    intro t ht htc
    rcases List.mem_append.mp ht with ht | ht
    · exact hkept t (h.waiting t ht htc) htc
    · rw [List.mem_singleton.mp ht]
      exact hthr
  case newest =>
    refine ⟨thr, by simp, ?_⟩
    change sys.links.tqhLast _ = _
    rw [hc.links]
    exact createLinks_tqhLast_kernelThreads

/-- The newest thread is not in the queue. -/
theorem create_outside (h : Invariant k cur q) {thr newest : τ} {sys : System τ}
    (fresh : thr ∉ k.created) (hc : Creates k.sys thr sys)
    (hnewest : k.sys.links.tqhLast .kernelThreads = .next newest) (hout : newest ∉ q) :
    Invariant { sys := sys, created := k.created ++ [thr] } cur (q ++ [thr]) := by
  have hthrq : thr ∉ q := fun ht => fresh (h.queued thr ht)
  have hqueue := createLinks_queue h.queue hnewest hout hthrq
  rw [← hc.links] at hqueue
  refine h.create fresh hc hqueue (by simp) ?_ fun t ht _ => List.mem_append_left _ ht
  intro t ht
  simpa using ht

/-- Only the running thread stands behind the newest one in the queue, if any. -/
theorem create_behind {xs ys : List τ} {thr newest : τ} {sys : System τ}
    (h : Invariant k cur (xs ++ newest :: ys)) (fresh : thr ∉ k.created)
    (hc : Creates k.sys thr sys)
    (hnewest : k.sys.links.tqhLast .kernelThreads = .next newest) (hys : ∀ t ∈ ys, t = cur) :
    Invariant { sys := sys, created := k.created ++ [thr] } cur (xs ++ [newest, thr]) := by
  have hthrq : thr ∉ xs ++ newest :: ys := fun ht => fresh (h.queued thr ht)
  have hqueue := createLinks_queue_cut h.queue hnewest hthrq
  rw [← hc.links] at hqueue
  refine h.create fresh hc hqueue (by simp) ?_ ?_
  · intro t ht
    simp only [List.mem_append, List.mem_cons, List.not_mem_nil, or_false] at ht ⊢
    tauto
  · intro t ht htc
    have := hys t
    simp only [List.mem_append, List.mem_cons, List.not_mem_nil, or_false] at ht ⊢
    tauto

omit [DecidableEq τ] in
/-- A creation that fails. -/
theorem create_failed (h : Invariant k cur q) {newThread : Option τ} {sys : System τ}
    (fresh : ∀ thr, newThread = some thr → thr ∉ k.created) (hlinks : sys.links = k.sys.links)
    (hcurrent : sys.gCurrentThread = k.sys.gCurrentThread)
    (hthreads : ∀ t, newThread ≠ some t → sys.threads t = k.sys.threads t) :
    Invariant { sys := sys, created := k.created } cur q := by
  have hstate : ∀ t ∈ k.created, sys.state t = k.sys.state t := by
    intro t ht
    unfold System.state
    rw [hthreads t fun he => fresh t he ht]
  constructor
  case current => exact hcurrent.trans h.current
  case running => exact (hstate cur h.cur_mem).trans h.running
  case ready => exact fun t ht htc => (hstate t ht).trans (h.ready t ht htc)
  case queue => exact hlinks ▸ h.queue
  case headPrev => exact hlinks ▸ h.headPrev
  case cur_mem => exact h.cur_mem
  case queued => exact h.queued
  case waiting => exact h.waiting
  case newest => exact hlinks ▸ h.newest

end Invariant

/-- The set-up creates the idle thread, in both lists, and makes it the running one. -/
theorem threadingSetup_spec {prior sys : System τ} {idleThread stack : BitVec 32} {idle : τ}
    (h : threadingSetup prior idleThread (some idle) stack = some sys) :
    sys.links = createLinks (init prior.links .kernelThreads) idle ∧
      sys.gCurrentThread = some idle ∧ sys.state idle = .running := by
  unfold threadingSetup at h
  set prior' := { prior with links := init prior.links .kernelThreads } with hprior
  cases hcall : threadCreate prior' (some idleName) idleThread (some idle) stack with
  | none => simp [hcall] at h
  | some res =>
    obtain ⟨r, sys'⟩ := res
    rcases threadCreate_cases hcall with ⟨rfl, -⟩ | ⟨thr, -, -, hthr, rfl, hc⟩
    · simp [hcall] at h
    obtain rfl : idle = thr := Option.some.inj hthr
    simp only [hcall, threadSetCurrent] at h
    rw [if_pos (System.setState_state_self ..)] at h
    obtain rfl := Option.some.inj h
    exact ⟨hc.links, rfl, System.setState_state_self ..⟩

/-- After the set-up the idle thread runs, and the ready queue is empty. -/
theorem invariant_of_booted {k : Kernel τ} (h : Booted k) :
    ∃ idle, k.created = [idle] ∧ Invariant k idle [] := by
  obtain ⟨prior, idleThread, idle, stack, sys, hset, rfl⟩ := h
  obtain ⟨hlinks, hcurrent, hrunning⟩ := threadingSetup_spec hset
  have hqueue := queue_init sys.links ThreadList.readyThreadsQueue
  refine ⟨idle, rfl, ?_⟩
  constructor
  case current => exact hcurrent
  case running => exact hrunning
  case ready =>
    intro t ht hti
    exact absurd (List.mem_singleton.mp ht) hti
  case queue => exact hqueue
  case headPrev =>
    intro x hx
    exact absurd ((walk_nil.mp hqueue.walk).symm.trans hx) nofun
  case cur_mem => exact List.mem_singleton_self idle
  case queued => nofun
  case waiting =>
    intro t ht hti
    exact absurd (List.mem_singleton.mp ht) hti
  case newest =>
    refine ⟨idle, rfl, ?_⟩
    have hkeep : (init sys.links ThreadList.readyThreadsQueue).tqhLast .kernelThreads =
        sys.links.tqhLast .kernelThreads := by simp [init]
    apply hkeep.trans
    rw [hlinks]
    exact createLinks_tqhLast_kernelThreads

section ConcreteKernel

/-- Memory before the set-up: all zero. -/
def clearedSystem : System ℕ where
  links := { load := fun _ => none, tqePrev := fun _ => .null, tqhLast := fun _ => .null }
  threads _ :=
    { stackBaseAddress := 0, stackSize := 0, name := ⟨List.replicate threadMaxNamelen 0, rfl⟩,
      state := .created, cpuState := 0 }
  gCurrentThread := none

/-- The kernel after the set-up on cleared memory, with the idle thread at address 0. -/
def bootedKernel : Kernel ℕ where
  sys := ((threadingSetup clearedSystem 0x100400 (some 0) 0x200000).map schedulerSetup).getD
    clearedSystem
  created := [0]

theorem booted_bootedKernel : Booted bootedKernel :=
  ⟨clearedSystem, 0x100400, 0, 0x200000, _, rfl, rfl⟩

/-- Create a thread at the given address. -/
def createAt (thr : ℕ) : Event ℕ := .create none 0x100500 (some thr) 0x201000

theorem createAt_fresh {thr : ℕ} {k : Kernel ℕ} (h : thr ∉ k.created) :
    ∀ t, some thr = some t → t ∉ k.created := by
  rintro t ⟨⟩
  exact h

end ConcreteKernel

end Einherjar.Threading
