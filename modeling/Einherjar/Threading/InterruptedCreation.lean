import Einherjar.Threading.Assertions

/-! Creations that a tick can interrupt. `thread_create` enables interrupts again when the new
thread is in `kernel_threads`, and sets it ready only then. -/
namespace Einherjar.Threading
open Einherjar.Lib Einherjar.Lib.TailQueue

variable {τ : Type*}

/-- The kernel, and the thread that each thread is creating: it is in `kernel_threads`, and
`scheduler_set_ready` has not been called for it yet. -/
structure OpenKernel (τ : Type*) extends Kernel τ where
  creating : τ → Option τ

namespace OpenKernel

/-- The threads that are being created. -/
def unready (k : OpenKernel τ) : Set τ := { t | ∃ c, k.creating c = some t }

theorem unready_eq_empty {k : OpenKernel τ} (h : ∀ c, k.creating c = none) : k.unready = ∅ := by
  refine Set.eq_empty_of_forall_notMem ?_
  rintro t ⟨c, hc⟩
  rw [h c] at hc
  cases hc

end OpenKernel

inductive OpenEvent (τ : Type*) where
  | insert (name : Option (List (BitVec 8))) (startFunc : BitVec 32) (newThread : Option τ)
      (stack : BitVec 32)
  | setReady
  | schedule

variable [DecidableEq τ]

/-- The running thread calls `thread_create`, or goes on in it with `scheduler_set_ready`, or a
tick calls `schedule`. -/
inductive OpenStep : OpenKernel τ → OpenEvent τ → OpenKernel τ → Prop
  | insert {k : OpenKernel τ} {cur : τ} {name : Option (List (BitVec 8))} {startFunc : BitVec 32}
      {newThread : Option τ} {stack : BitVec 32} {r : Option τ} {sys : System τ}
      (hcur : k.sys.gCurrentThread = some cur) (hnone : k.creating cur = none)
      (fresh : ∀ thr, newThread = some thr → thr ∉ k.created)
      (call : insertNewThread k.sys name startFunc newThread stack = (r, sys)) :
      OpenStep k (.insert name startFunc newThread stack)
        { sys := sys
          created := k.created ++ r.toList
          creating := Function.update k.creating cur r }
  | setReady {k : OpenKernel τ} {cur thr : τ} {status : BitVec 32} {sys : System τ}
      (hcur : k.sys.gCurrentThread = some cur) (hthr : k.creating cur = some thr)
      (call : schedulerSetReady k.sys thr = some (status, sys)) :
      OpenStep k .setReady { k with sys := sys, creating := Function.update k.creating cur none }
  | schedule {k : OpenKernel τ} {sys : System τ} (call : schedule k.sys = some sys) :
      OpenStep k .schedule { k with sys := sys }

/-- The first thread of the ready queue when the running one has been put at its end. -/
def nextInTurn (s : System τ) : Option τ :=
  s.gCurrentThread.bind fun cur =>
    first (insertTail s.links .readyThreadsQueue cur) .readyThreadsQueue

/-- `scheduler_set_ready` meets no failing assertion, and `schedule` meets one exactly when it takes
a thread from the queue that is still being created. -/
structure OpenAssertions (k : OpenKernel τ) : Prop where
  setReady : ∀ c thr, k.creating c = some thr →
    ∃ sys, schedulerSetReady k.sys thr = some (kernelOk, sys)
  schedule : ∃ x, nextInTurn k.sys = some x ∧
    ((∃ sys, schedule k.sys = some sys) ↔ ∀ c, k.creating c ≠ some x)
  resumed : ∀ sys, Threading.schedule k.sys = some sys →
    ∃ next, sys.gCurrentThread = some next ∧ scheduleResumed sys next

/-- The states of the threads while others may be being created, each of them by one thread. -/
structure OpenSteady (k : OpenKernel τ) (cur : τ) : Prop where
  steady : Steady k.toKernel k.unready cur
  creators : ∀ c c' t, k.creating c = some t → k.creating c' = some t → c = c'

theorem update_creating_iff {creating : τ → Option τ} {cur c t : τ} {r : Option τ} :
    Function.update creating cur r c = some t ↔
      c = cur ∧ r = some t ∨ c ≠ cur ∧ creating c = some t := by
  by_cases hc : c = cur
  · rw [hc, Function.update_self]
    simp
  · rw [Function.update_of_ne hc]
    simp [hc]

namespace OpenSteady

variable {k k' : OpenKernel τ} {cur thr : τ} {e : OpenEvent τ} {sys : System τ}

/-- The running thread begins to create another one. -/
theorem insert (h : OpenSteady k cur) (hnone : k.creating cur = none) (hthr : thr ∉ k.created)
    (hi : Inserts k.sys thr sys) :
    OpenSteady
      { sys := sys
        created := k.created ++ [thr]
        creating := Function.update k.creating cur (some thr) } cur := by
  have hother : ∀ c, k.creating c ≠ some thr :=
    fun c hc => hthr (h.steady.unready_mem thr ⟨c, hc⟩)
  have hset : ({ t | ∃ c, Function.update k.creating cur (some thr) c = some t } : Set τ) =
      Insert.insert thr k.unready := by
    ext t
    simp only [Set.mem_ofPred_eq, update_creating_iff, Set.mem_insert_iff]
    constructor
    · rintro ⟨c, ⟨-, ht⟩ | ⟨-, hc⟩⟩
      · exact .inl (Option.some.inj ht).symm
      · exact .inr ⟨c, hc⟩
    · rintro (rfl | ⟨c, hc⟩)
      · exact ⟨cur, .inl ⟨rfl, rfl⟩⟩
      · refine ⟨c, .inr ⟨?_, hc⟩⟩
        rintro rfl
        rw [hnone] at hc
        cases hc
  constructor
  case steady =>
    change Steady _ { t | ∃ c, Function.update k.creating cur (some thr) c = some t } cur
    rw [hset]
    exact h.steady.insert hthr hi
  case creators =>
    intro c c' t hc hc'
    rcases update_creating_iff.mp hc with ⟨rfl, ht⟩ | ⟨-, hold⟩ <;>
      rcases update_creating_iff.mp hc' with ⟨rfl, ht'⟩ | ⟨-, hold'⟩
    · rfl
    · exact (hother c' (hold'.trans ht.symm)).elim
    · exact (hother c (hold.trans ht'.symm)).elim
    · exact h.creators c c' t hold hold'

/-- The thread that the running one is creating becomes ready. -/
theorem setReady (h : OpenSteady k cur) (hthr : k.creating cur = some thr) :
    schedulerSetReady k.sys thr = some (kernelOk, k.sys.readied thr) ∧
      OpenSteady
        { k with
          sys := k.sys.readied thr
          creating := Function.update k.creating cur none } cur := by
  obtain ⟨hcall, hsteady⟩ := h.steady.setReady ⟨cur, hthr⟩
  have hset : ({ t | ∃ c, Function.update k.creating cur none c = some t } : Set τ) =
      k.unready \ {thr} := by
    ext t
    simp only [Set.mem_ofPred_eq, update_creating_iff, Set.mem_sdiff, Set.mem_singleton_iff]
    constructor
    · rintro ⟨c, ⟨-, ht⟩ | ⟨hne, hc⟩⟩
      · cases ht
      · refine ⟨⟨c, hc⟩, ?_⟩
        rintro rfl
        exact hne (h.creators c cur t hc hthr)
    · rintro ⟨⟨c, hc⟩, htt⟩
      refine ⟨c, .inr ⟨?_, hc⟩⟩
      rintro rfl
      exact htt (Option.some.inj (hc.symm.trans hthr))
  refine ⟨hcall, ?_, ?_⟩
  · change Steady _ { t | ∃ c, Function.update k.creating cur none c = some t } cur
    rw [hset]
    exact hsteady
  · intro c c' t hc hc'
    rcases update_creating_iff.mp hc with ⟨-, ht⟩ | ⟨-, hc⟩
    · cases ht
    rcases update_creating_iff.mp hc' with ⟨-, ht⟩ | ⟨-, hc'⟩
    · cases ht
    exact h.creators c c' t hc hc'

/-- Only a tick changes which thread runs. -/
theorem step (h : OpenSteady k cur) (hstep : OpenStep k e k') :
    ∃ cur', OpenSteady k' cur' ∧ (e ≠ .schedule → cur' = cur) := by
  cases hstep with
  | @insert caller name startFunc newThread stack r sys hcur hnone fresh call =>
    obtain rfl : caller = cur := Option.some.inj (hcur.symm.trans h.steady.current)
    refine ⟨caller, ?_, fun _ => rfl⟩
    rcases insertNewThread_cases call with ⟨rfl, hlinks, hcurrent, -, hthreads⟩ |
        ⟨thr, -, -, rfl, rfl, hi⟩
    · rw [Option.toList_none, List.append_nil, ← hnone, Function.update_eq_self]
      exact ⟨h.steady.create_failed fresh hlinks hcurrent hthreads, h.creators⟩
    · exact h.insert hnone (fresh thr rfl) hi
  | @setReady caller thr status sys hcur hthr call =>
    obtain rfl : caller = cur := Option.some.inj (hcur.symm.trans h.steady.current)
    obtain ⟨hcall, hsteady⟩ := h.setReady hthr
    obtain ⟨-, rfl⟩ := Prod.mk.inj (Option.some.inj (hcall.symm.trans call))
    exact ⟨caller, hsteady, fun _ => rfl⟩
  | @schedule sys call =>
    obtain ⟨x, -, hnone, htick⟩ := h.steady.tick
    have hxu : x ∉ k.unready := by
      intro hxu
      rw [hnone hxu] at call
      cases call
    obtain ⟨htick, hsteady⟩ := htick hxu
    obtain rfl := Option.some.inj (htick.symm.trans call)
    exact ⟨x, ⟨hsteady, h.creators⟩, fun he => absurd rfl he⟩

theorem openAssertions (h : OpenSteady k cur) : OpenAssertions k := by
  obtain ⟨x, hx, hnone, htick⟩ := h.steady.tick
  constructor
  case setReady => exact fun c thr hc => ⟨_, (h.steady.setReady ⟨c, hc⟩).1⟩
  case schedule =>
    refine ⟨x, ?_, ?_, ?_⟩
    · rw [nextInTurn, h.steady.current]
      exact hx
    · rintro ⟨sys, call⟩ c hc
      rw [hnone ⟨c, hc⟩] at call
      cases call
    · intro hc
      exact ⟨_, (htick fun ⟨c, hxc⟩ => hc c hxc).1⟩
  case resumed =>
    intro sys call
    by_cases hxu : x ∈ k.unready
    · rw [hnone hxu] at call
      cases call
    · obtain rfl := Option.some.inj ((htick hxu).1.symm.trans call)
      exact ⟨x, rfl, tick_resumed⟩

end OpenSteady

/-- The kernel after the set-up, where no thread is being created. -/
structure OpenBooted (k : OpenKernel τ) : Prop where
  booted : Booted k.toKernel
  creating : ∀ c, k.creating c = none

theorem OpenBooted.openSteady {k : OpenKernel τ} (h : OpenBooted k) :
    ∃ idle, OpenSteady k idle := by
  obtain ⟨idle, hsteady⟩ := steady_of_booted h.booted
  refine ⟨idle, ?_, fun c _ t hc => ?_⟩
  · rwa [OpenKernel.unready_eq_empty h.creating]
  · rw [h.creating c] at hc
    cases hc

/-- Two ticks put the idle thread behind the thread created first. When a third one interrupts the
next creation, the thread that is being created stands behind that thread in the queue, and comes
to its front. -/
theorem tick_in_creation : ¬ ∀ (k : OpenKernel ℕ) (p : List (OpenEvent ℕ × OpenKernel ℕ)),
    OpenBooted k → Path OpenStep k p → ∃ sys, schedule (finalState k p).sys = some sys := by
  intro h
  have hp : Path OpenStep { bootedKernel with creating := fun _ => none }
      [(.insert none 0x100500 (some 1) 0x201000, _), (.setReady, _), (.schedule, _), (.schedule, _),
        (.insert none 0x100500 (some 2) 0x201000, _), (.schedule, _)] :=
    .cons (.insert rfl rfl (createAt_fresh (by decide)) rfl)
      (.cons (.setReady rfl rfl rfl) (.cons (.schedule rfl) (.cons (.schedule rfl)
        (.cons (.insert rfl rfl (createAt_fresh (by decide)) rfl)
          (.cons (.schedule rfl) (.nil _))))))
  obtain ⟨sys, hsys⟩ := h _ _ ⟨booted_bootedKernel, fun _ => rfl⟩ hp
  cases hsys

section atomic

variable {k k' : Kernel τ} {cur : τ} {e : Event τ}

/-- A call without a tick inside it is one of the runs in which a tick may come there. -/
theorem openPath_of_step (hcur : k.sys.gCurrentThread = some cur) (hstep : Step k e k') :
    ∃ p, Path OpenStep { k with creating := fun _ => none } p ∧
      finalState { k with creating := fun _ => none } p =
        { k' with creating := fun _ => none } := by
  cases hstep with
  | @create name startFunc newThread stack r sys fresh call =>
    obtain ⟨r₁, s₁, h₁⟩ : ∃ r₁ s₁, insertNewThread k.sys name startFunc newThread stack =
      (r₁, s₁) := ⟨_, _, rfl⟩
    have hinsert : OpenStep { k with creating := fun _ => none }
        (.insert name startFunc newThread stack) _ := .insert hcur rfl fresh h₁
    rcases insertNewThread_cases h₁ with ⟨rfl, -⟩ | ⟨thr, -, -, rfl, rfl, hi⟩
    · rw [threadCreate, h₁] at call
      obtain ⟨rfl, rfl⟩ := Prod.mk.inj (Option.some.inj call)
      rw [Function.update_eq_self] at hinsert
      exact ⟨[_], .cons hinsert (.nil _), rfl⟩
    · rw [threadCreate_of_insert h₁ hi.created] at call
      obtain ⟨rfl, rfl⟩ := Prod.mk.inj (Option.some.inj call)
      have hready : OpenStep
          { sys := s₁
            created := k.created ++ (some thr).toList
            creating := Function.update (fun _ => none) cur (some thr) } .setReady _ :=
        .setReady (hi.gCurrentThread.trans hcur) (by simp) (schedulerSetReady_created hi.created)
      refine ⟨[_, _], .cons hinsert (.cons hready (.nil _)), ?_⟩
      simp [finalState]
  | @schedule sys call => exact ⟨[_], .cons (.schedule call) (.nil _), rfl⟩

theorem openPath_of_path (hk : Booted k) {p : List (Event τ × Kernel τ)} (hp : Path Step k p) :
    ∃ q, Path OpenStep { k with creating := fun _ => none } q ∧
      finalState { k with creating := fun _ => none } q =
        { finalState k p with creating := fun _ => none } := by
  obtain ⟨idle, hsteady⟩ := steady_of_booted hk
  clear hk
  induction hp generalizing idle with
  | nil => exact ⟨[], .nil _, rfl⟩
  | cons step rest ih =>
    obtain ⟨cur', hnext⟩ := hsteady.step step
    obtain ⟨q₁, hq₁, hend₁⟩ := openPath_of_step hsteady.current step
    obtain ⟨q₂, hq₂, hend₂⟩ := ih cur' hnext
    refine ⟨q₁ ++ q₂, path_append.mpr ⟨hq₁, hend₁ ▸ hq₂⟩, ?_⟩
    rw [finalState_append, hend₁, hend₂]
    rfl

end atomic

end Einherjar.Threading
