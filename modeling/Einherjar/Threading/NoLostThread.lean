import Mathlib.Data.List.TakeWhile
import Einherjar.Lib.Run
import Einherjar.Threading.KernelRun

/-! When the ready queue keeps every ready thread along a run of creations and ticks. -/
namespace Einherjar.Threading
open Einherjar.Lib Einherjar.Lib.TailQueue

variable {τ : Type*} [DecidableEq τ]

/-- A walk along the ready queue ends, and it meets every ready thread exactly once. -/
def NoReadyLost (k : Kernel τ) : Prop :=
  ∃ q, Walk k.sys.links (.first .readyThreadsQueue) q ∧
    ∀ t ∈ k.created, k.sys.state t = .ready → q.count t = 1

/-- The elements behind the first occurrence of `x`. -/
def behind (q : List τ) (x : τ) : List τ := (q.dropWhile (· ≠ x)).tail

/-- The calls that lose no thread. A creation is safe when no ready thread stands behind the
thread created last, and a tick when the running thread is neither alone in the queue nor
before another thread there. -/
def Safe (k : Kernel τ) : Event τ → Prop
  | .create _ startFunc newThread stack =>
      startFunc = 0 ∨ newThread = none ∨ stack = 0 ∨
      ∃ q, Walk k.sys.links (.first .readyThreadsQueue) q ∧
        ∀ newest ∈ k.created.getLast?, ∀ t ∈ behind q newest, k.sys.state t ≠ .ready
  | .schedule =>
      ∃ q, Walk k.sys.links (.first .readyThreadsQueue) q ∧
        ∀ cur ∈ k.sys.gCurrentThread, q ≠ [cur] ∧ behind q cur = []

theorem behind_eq_nil {q : List τ} {x : τ} (h : x ∉ q) : behind q x = [] := by
  unfold behind
  rw [List.dropWhile_eq_nil_iff.mpr]
  · rfl
  · intro y hy
    have hyx : y ≠ x := fun he => h (he ▸ hy)
    simpa using hyx

theorem behind_append {xs ys : List τ} {x : τ} (h : x ∉ xs) : behind (xs ++ x :: ys) x = ys := by
  unfold behind
  rw [List.dropWhile_append_of_pos]
  · simp
  · intro y hy
    have hyx : y ≠ x := fun he => h (he ▸ hy)
    simpa using hyx

namespace Invariant

variable {k k' : Kernel τ} {cur : τ} {q : List τ}

theorem noReadyLost (h : Invariant k cur q) : NoReadyLost k := by
  refine ⟨q, h.queue.walk, fun t ht hready => ?_⟩
  have htc : t ≠ cur := by
    rintro rfl
    exact absurd (h.running.symm.trans hready) nofun
  exact List.count_eq_one_of_mem h.queue.nodup (h.waiting t ht htc)

/-- The threads that wait, with the running one behind them. -/
theorem tick_shape (hq : q.Nodup) (hsafe : q ≠ [cur] ∧ behind q cur = []) :
    ∃ waiting x rest, cur ∉ waiting ∧ (q = waiting ∨ q = waiting ++ [cur] ∧ waiting ≠ []) ∧
      waiting ++ [cur] = x :: rest := by
  obtain ⟨waiting, hcur, hshape⟩ :
      ∃ waiting, cur ∉ waiting ∧ (q = waiting ∨ q = waiting ++ [cur] ∧ waiting ≠ []) := by
    by_cases hmem : cur ∈ q
    · obtain ⟨xs, ys, rfl⟩ := List.append_of_mem hmem
      have hcx : cur ∉ xs :=
        fun hx => (List.nodup_append.mp hq).2.2 cur hx cur (by simp) rfl
      obtain ⟨hne, hbehind⟩ := hsafe
      rw [behind_append hcx] at hbehind
      subst hbehind
      refine ⟨xs, hcx, .inr ⟨rfl, ?_⟩⟩
      rintro rfl
      exact hne rfl
    · exact ⟨q, hmem, .inl rfl⟩
  obtain ⟨x, rest, hx⟩ := List.exists_cons_of_ne_nil (List.append_ne_nil_of_right_ne_nil
    waiting (List.cons_ne_nil cur []))
  exact ⟨waiting, x, rest, hcur, hshape, hx⟩

/-- A safe call keeps every waiting thread in the queue. -/
theorem step (h : Invariant k cur q) {e : Event τ} (hsafe : Safe k e) (hstep : Step k e k') :
    ∃ cur' q', Invariant k' cur' q' := by
  cases hstep with
  | @create name startFunc newThread stack r sys fresh call =>
    rcases threadCreate_cases call with ⟨rfl, hlinks, hcurrent, -, hthreads⟩ |
        ⟨thr, hf, hs, rfl, rfl, hc⟩
    · rw [Option.toList_none, List.append_nil]
      exact ⟨cur, q, h.create_failed fresh hlinks hcurrent hthreads⟩
    · have hthr := fresh thr rfl
      obtain ⟨newest, hlast, hnewest⟩ := h.newest
      rcases hsafe with hf' | hn | hs' | ⟨q', hwalk, hsafe⟩
      · exact absurd hf' hf
      · exact absurd hn nofun
      · exact absurd hs' hs
      obtain rfl := hwalk.unique h.queue.walk
      have hbehind := hsafe newest hlast
      by_cases hmem : newest ∈ q'
      · obtain ⟨xs, ys, rfl⟩ := List.append_of_mem hmem
        have hnx : newest ∉ xs := fun hx =>
          (List.nodup_append.mp h.queue.nodup).2.2 newest hx newest (by simp) rfl
        rw [behind_append hnx] at hbehind
        have hys : ∀ t ∈ ys, t = cur := by
          intro t ht
          by_contra htc
          exact hbehind t ht (h.ready t (h.queued t (by simp [ht])) htc)
        exact ⟨cur, _, h.create_behind hthr hc hnewest hys⟩
      · exact ⟨cur, _, h.create_outside hthr hc hnewest hmem⟩
  | @schedule sys call =>
    obtain ⟨q', hwalk, hsafe⟩ := hsafe
    obtain rfl := hwalk.unique h.queue.walk
    obtain ⟨waiting, x, rest, hcur, hshape, hx⟩ := tick_shape h.queue.nodup (hsafe cur h.current)
    obtain ⟨htick, hinv⟩ := h.tick hcur hshape hx
    obtain rfl := Option.some.inj (htick.symm.trans call)
    exact ⟨x, _, hinv⟩

/-- A tick that is not safe loses a thread, or leaves a queue without an end. -/
theorem safe_of_schedule (h : Invariant k cur q) {sys : System τ}
    (call : schedule k.sys = some sys) (hkept : NoReadyLost { k with sys := sys }) :
    q ≠ [cur] ∧ behind q cur = [] := by
  obtain ⟨q', hwalk, hcount⟩ := hkept
  constructor
  · rintro rfl
    obtain ⟨hfirst, hhead, hself, -⟩ := tickLinks_self h.queue.1.1.1 h.queue.1.2
    have htick := schedule_eq_tick h.current h.running hfirst (.inl rfl)
    obtain rfl := Option.some.inj (htick.symm.trans call)
    have hhead' : (Threading.tick k.sys cur cur).links.load (.first .readyThreadsQueue) =
        some cur := hhead
    cases q' with
    | nil => exact absurd ((walk_nil.mp hwalk).symm.trans hhead') nofun
    | cons y ys =>
      obtain ⟨hy, hwalk⟩ := walk_cons.mp hwalk
      obtain rfl : cur = y := Option.some.inj (hhead'.symm.trans hy)
      exact not_walk_of_self hself ys hwalk
  · by_contra hne
    have hmem : cur ∈ q := by
      by_contra hmem
      exact hne (behind_eq_nil hmem)
    obtain ⟨xs, ys, rfl⟩ := List.append_of_mem hmem
    have hnodup := h.queue.nodup
    have hcx : cur ∉ xs :=
      fun hx => (List.nodup_append.mp hnodup).2.2 cur hx cur (by simp) rfl
    rw [behind_append hcx] at hne
    obtain ⟨y, q'', hy, hfirst, hqueue, hsub⟩ := tickLinks_cut h.queue h.headPrev hne
    obtain ⟨z, zs, rfl⟩ := List.exists_cons_of_ne_nil hne
    have hzx : z ∉ xs ++ [cur] := by
      intro hz
      rw [List.append_cons] at hnodup
      exact (List.nodup_append.mp hnodup).2.2 z hz z (by simp) rfl
    have hzc : z ≠ cur := fun he => hzx (by simp [he])
    have hzy : z ≠ y := fun he => hzx (he ▸ hy)
    have hzmem : z ∈ k.created := h.queued z (by simp)
    have hyready : y = cur ∨ k.sys.state y = .ready := by
      by_cases hyc : y = cur
      · exact .inl hyc
      · refine .inr (h.ready y (h.queued y ?_) hyc)
        rw [List.append_cons]
        exact List.mem_append_left _ hy
    have htick := schedule_eq_tick h.current h.running hfirst hyready
    obtain rfl := Option.some.inj (htick.symm.trans call)
    have hzready := (tick_state_of_ne k.sys cur y hzy hzc).trans (h.ready z hzmem hzc)
    have hone := hcount z hzmem hzready
    obtain rfl := hwalk.unique hqueue.walk
    exact hzx (hsub z (List.count_pos_iff.mp (by omega)))

/-- A creation that is not safe loses a thread. -/
theorem safe_of_create (h : Invariant k cur q) {thr newest : τ} {sys : System τ}
    (fresh : thr ∉ k.created) (hc : Creates k.sys thr sys)
    (hnewest : k.sys.links.tqhLast .kernelThreads = .next newest)
    (hkept : NoReadyLost { sys := sys, created := k.created ++ [thr] }) :
    ∀ t ∈ behind q newest, k.sys.state t ≠ .ready := by
  intro t ht hready
  have hmem : newest ∈ q := by
    by_contra hmem
    rw [behind_eq_nil hmem] at ht
    exact absurd ht List.not_mem_nil
  obtain ⟨xs, ys, rfl⟩ := List.append_of_mem hmem
  have hnodup := h.queue.nodup
  have hnx : newest ∉ xs :=
    fun hx => (List.nodup_append.mp hnodup).2.2 newest hx newest (by simp) rfl
  rw [behind_append hnx] at ht
  have hqueue := createLinks_queue_cut h.queue hnewest fun hthr => fresh (h.queued thr hthr)
  rw [← hc.links] at hqueue
  have htmem : t ∈ k.created := h.queued t (by simp [ht])
  have htthr : t ≠ thr := fun he => fresh (he ▸ htmem)
  have htxs : t ∉ xs ++ [newest] := by
    intro hx
    rw [List.append_cons] at hnodup
    exact (List.nodup_append.mp hnodup).2.2 t hx t ht rfl
  have hready' : sys.state t = .ready := by
    unfold System.state at hready ⊢
    rw [hc.threads t htthr, hready]
  obtain ⟨q', hwalk, hcount⟩ := hkept
  have hone := hcount t (List.mem_append_left _ htmem) hready'
  obtain rfl := hwalk.unique hqueue.walk
  have htq : t ∈ xs ++ [newest, thr] := List.count_pos_iff.mp (by omega)
  simp only [List.mem_append, List.mem_cons, List.not_mem_nil, or_false] at htq htxs
  tauto

theorem safe_of_noReadyLost (h : Invariant k cur q) {e : Event τ} (hstep : Step k e k')
    (hkept : NoReadyLost k') : Safe k e := by
  cases hstep with
  | @create name startFunc newThread stack r sys fresh call =>
    rcases threadCreate_cases call with ⟨-, -, -, hfail, -⟩ | ⟨thr, -, -, rfl, rfl, hc⟩
    · rcases hfail with hfail | hfail | hfail
      · exact .inl hfail
      · exact .inr (.inl hfail)
      · exact .inr (.inr (.inl hfail))
    · refine .inr (.inr (.inr ⟨q, h.queue.walk, ?_⟩))
      obtain ⟨newest, hlast, hnewest⟩ := h.newest
      intro newest' hlast'
      obtain rfl : newest = newest' := Option.some.inj (hlast.symm.trans hlast')
      exact h.safe_of_create (fresh thr rfl) hc hnewest hkept
  | @schedule sys call =>
    refine ⟨q, h.queue.walk, ?_⟩
    intro cur' hcur'
    obtain rfl : cur = cur' := Option.some.inj (h.current.symm.trans hcur')
    exact h.safe_of_schedule call hkept

end Invariant

/-- A run of creations and ticks keeps every ready thread in the queue, after each call,
exactly when all its calls are safe. -/
theorem noReadyLost_iff_safe (k : Kernel τ) (hk : Booted k) (p : List (Event τ × Kernel τ))
    (hp : Path Step k p) : (∀ x ∈ p, NoReadyLost x.2) ↔ Guarded Safe k p := by
  obtain ⟨idle, -, hinv⟩ := invariant_of_booted hk
  refine Path.forall_states_iff_guarded (I := fun k => ∃ cur q, Invariant k cur q) ?_ ?_ ?_ hp
    ⟨idle, [], hinv⟩
  · intro k hs
    obtain ⟨cur, q, h⟩ := hs
    exact h.noReadyLost
  · intro k e k' hs hsafe hstep
    obtain ⟨cur, q, h⟩ := hs
    exact h.step hsafe hstep
  · intro k e k' hs hstep hkept
    obtain ⟨cur, q, h⟩ := hs
    exact h.safe_of_noReadyLost hstep hkept

theorem noReadyLost_iff_safe_one : ∃ (k : Kernel ℕ) (p : List (Event ℕ × Kernel ℕ)),
    Booted k ∧ Path Step k p ∧ p.map Prod.fst = [createAt 1, .schedule] ∧
      ((∀ x ∈ p, NoReadyLost x.2) ↔ Guarded Safe k p) := by
  have hp : Path Step bootedKernel [(createAt 1, _), (.schedule, _)] :=
    .cons (.create (createAt_fresh (by decide)) rfl) (.cons (.schedule rfl) (.nil _))
  exact ⟨_, _, booted_bootedKernel, hp, rfl, noReadyLost_iff_safe _ booted_bootedKernel _ hp⟩

/-- Two threads, a tick and a third thread: the idle thread leaves the queue. -/
theorem idle_lost : ¬ ∀ (k : Kernel ℕ) (p : List (Event ℕ × Kernel ℕ)), Booted k → Path Step k p →
    ∀ x ∈ p, NoReadyLost x.2 := by
  intro h
  have hp : Path Step bootedKernel
      [(createAt 1, _), (createAt 2, _), (.schedule, _), (createAt 3, _)] :=
    .cons (.create (createAt_fresh (by decide)) rfl)
      (.cons (.create (createAt_fresh (by decide)) rfl)
        (.cons (.schedule rfl) (.cons (.create (createAt_fresh (by decide)) rfl) (.nil _))))
  obtain ⟨q, hwalk, hcount⟩ := h _ _ booted_bootedKernel hp _ (List.mem_of_getLast? rfl)
  obtain rfl : q = [2, 3] := hwalk.unique ⟨⟨rfl, rfl, trivial⟩, rfl⟩
  exact absurd (hcount 0 (by decide) rfl) (by decide)

end Einherjar.Threading
