import Einherjar.Lib.Run
import Einherjar.Threading.KernelRun

/-! The list of all threads. It has its link field in common with the ready queue, and keeps its
threads only as long as the two lists lead the same way. -/
namespace Einherjar.Threading
open Einherjar.Lib Einherjar.Lib.TailQueue

variable {τ : Type*} [DecidableEq τ]

/-- The kernel after the set-up of memory in which the head of the ready queue is zero, as it is
before the first instruction of the kernel. -/
def ColdBooted (k : Kernel τ) : Prop :=
  ∃ prior idleThread idle stack sys, prior.links.tqhLast .readyThreadsQueue = .null ∧
    threadingSetup prior idleThread (some idle) stack = some sys ∧
    k = { sys := schedulerSetup sys, created := [idle] }

omit [DecidableEq τ] in
/-- A walk along `kernel_threads` meets every thread once, in the order of creation. -/
def Registered (k : Kernel τ) : Prop :=
  k.created.Nodup ∧ Walk k.sys.links (.first .kernelThreads) k.created

/-- Every creation keeps the walk. A tick keeps it when no tick has come before, so that the
running thread is not in the ready queue, and there is at most one thread besides it. -/
def KeepsRegistry (k : Kernel τ) : Event τ → Prop
  | .create .. => True
  | .schedule => k.created.length ≤ 2 ∧
      ∃ q, Walk k.sys.links (.first .readyThreadsQueue) q ∧
        ∀ cur ∈ k.sys.gCurrentThread, cur ∉ q

/-- The threads are on a walk along `kernel_threads`, and the ready queue joins that walk: behind
the running thread before the first tick, and at its beginning afterwards. -/
structure Registry (k : Kernel τ) (cur : τ) (q : List τ) : Prop where
  inv : Invariant k cur q
  walk : Walk k.sys.links (.first .kernelThreads) k.created
  shape : k.created = cur :: q ∨ q = k.created

section links

variable {m : Links ThreadList τ} {cur x : τ}

/-- A tick does not change the first thread of the registry. -/
theorem tickLinks_first_kernelThreads (hp : HeadPrev m .readyThreadsQueue)
    (hlast : m.tqhLast .readyThreadsQueue ≠ .first .kernelThreads)
    (hfirst : first (insertTail m .readyThreadsQueue cur) .readyThreadsQueue = some x) :
    (tickLinks m cur x).load (.first .kernelThreads) = m.load (.first .kernelThreads) := by
  set m₁ := insertTail m .readyThreadsQueue cur with hm₁
  have hprev : m₁.tqePrev x ≠ .first .kernelThreads := by
    rw [hm₁, insertTail_tqePrev]
    by_cases hxc : x = cur
    · rwa [hxc, Function.update_self]
    · rw [Function.update_of_ne hxc]
      have hload : m.load (.first .readyThreadsQueue) = some x := by
        unfold first at hfirst
        rw [hm₁, insertTail_load] at hfirst
        by_cases hempty : m.tqhLast .readyThreadsQueue = .first .readyThreadsQueue
        · rw [hempty, Function.update_self] at hfirst
          exact absurd (Option.some.inj hfirst).symm hxc
        · rwa [Function.update_of_ne (Ne.symm hempty),
            Function.update_of_ne (first_ne_next _ _)] at hfirst
      rw [hp x hload]
      nofun
  have hlast₂ : (remove m₁ .readyThreadsQueue x).tqhLast .readyThreadsQueue ≠
      .first .kernelThreads := by
    cases hnext : m₁.load (.next x) with
    | none =>
      rw [remove_tqhLast_of_none _ _ _ hnext, Function.update_self]
      exact hprev
    | some y =>
      rw [remove_tqhLast_of_some _ _ _ hnext, hm₁, insertTail_tqhLast, Function.update_self]
      nofun
  unfold tickLinks
  rw [← hm₁, insertTail_load, Function.update_of_ne hlast₂.symm,
    Function.update_of_ne (first_ne_next _ _), remove_load, Function.update_of_ne hprev.symm,
    hm₁, insertTail_load, Function.update_of_ne hlast.symm,
    Function.update_of_ne (first_ne_next _ _)]

end links

namespace Registry

variable {k k' : Kernel τ} {cur : τ} {q : List τ}

omit [DecidableEq τ] in
theorem registered (h : Registry k cur q) : Registered k := ⟨h.walk.nodup, h.walk⟩

omit [DecidableEq τ] in
theorem chained (h : Registry k cur q) : Chained k.sys.links .kernelThreads k.created := by
  obtain ⟨newest, hnewest, hlast⟩ := h.inv.newest
  obtain ⟨xs, hxs⟩ := List.getLast?_eq_some_iff.mp hnewest
  refine ⟨h.walk.1, ?_⟩
  rw [hlast, hxs, endSlot_concat]

omit [DecidableEq τ] in
/-- The ready queue is empty, or both lists end at the newest thread. -/
theorem ends {newest : τ} (h : Registry k cur q) (hnewest : k.created.getLast? = some newest) :
    q = [] ∨ ∃ xs, q = xs ++ [newest] := by
  obtain ⟨xs, hxs⟩ := List.getLast?_eq_some_iff.mp hnewest
  rcases h.shape with hshape | rfl
  · rcases q.eq_nil_or_concat' with rfl | ⟨ys, y, rfl⟩
    · exact .inl rfl
    · rw [hshape, ← List.cons_append] at hxs
      obtain ⟨-, hy⟩ := List.append_inj' hxs rfl
      obtain rfl : y = newest := List.singleton_inj.mp hy
      exact .inr ⟨ys, rfl⟩
  · exact .inr ⟨xs, hxs⟩

omit [DecidableEq τ] in
theorem last_ne (h : Registry k cur q) :
    k.sys.links.tqhLast .readyThreadsQueue ≠ .first .kernelThreads := by
  rw [h.inv.queue.1.2]
  rcases endSlot_eq (.first ThreadList.readyThreadsQueue) q with ⟨he, -⟩ | ⟨x, -, he⟩
  · rw [he]
    nofun
  · rw [he]
    nofun

/-- A new thread is appended to both lists, which end at the same one. -/
theorem create (h : Registry k cur q) {thr : τ} {sys : System τ} (fresh : thr ∉ k.created)
    (hc : Creates k.sys thr sys) :
    Registry { sys := sys, created := k.created ++ [thr] } cur (q ++ [thr]) := by
  obtain ⟨newest, hnewest, hlast⟩ := h.inv.newest
  have hends := h.ends hnewest
  have hne : k.sys.links.tqhLast .kernelThreads ≠ .next thr := by
    rw [hlast]
    intro he
    exact fresh (Slot.next.inj he ▸ List.mem_of_getLast? hnewest)
  refine ⟨?_, ?_, ?_⟩
  · rcases hends with rfl | ⟨xs, rfl⟩
    · exact h.inv.create_outside fresh hc hlast List.not_mem_nil
    · have hinv := h.inv.create_behind fresh hc hlast (fun t ht => absurd ht List.not_mem_nil)
      rwa [List.append_assoc]
  · change Walk sys.links _ _
    have hsame : k.sys.links.tqhLast .readyThreadsQueue = .first .readyThreadsQueue ∨
        k.sys.links.tqhLast .readyThreadsQueue = k.sys.links.tqhLast .kernelThreads := by
      rw [h.inv.queue.1.2, hlast]
      rcases hends with rfl | ⟨xs, rfl⟩
      · exact .inl rfl
      · exact .inr (endSlot_concat _ _ _)
    have hload := fun c => insertTail_load_again (n := thr) hne lists_ne hsame (c := c)
    have happend := (h.chained.append h.walk.nodup fresh).walk
    rw [hc.links]
    exact happend.congr (hload _ nofun) fun x _ => hload _ nofun
  · rcases h.shape with hshape | rfl
    · exact .inl (by rw [hshape, List.cons_append])
    · exact .inr rfl

/-- The first tick, with at most one thread besides the running one: the ready queue comes to
hold the threads in the order of their creation. -/
theorem tick (h : Registry k cur q) (hlen : k.created.length ≤ 2) (hcur : cur ∉ q) :
    ∃ x, schedule k.sys = some (Threading.tick k.sys cur x) ∧
      Registry { k with sys := Threading.tick k.sys cur x } x k.created := by
  have hshape : k.created = cur :: q :=
    h.shape.resolve_right fun hq => hcur (hq ▸ h.inv.cur_mem)
  have hwalk := h.walk
  rw [hshape] at hwalk
  obtain ⟨x, rest, hx, hqueue⟩ : ∃ x rest, q ++ [cur] = x :: rest ∧ rest ++ [x] = k.created := by
    rw [hshape] at hlen ⊢
    match q with
    | [] => exact ⟨cur, [], rfl, rfl⟩
    | [t] => exact ⟨t, [cur], rfl, rfl⟩
    | _ :: _ :: _ => simp at hlen
  obtain ⟨hschedule, hinv⟩ := h.inv.tick hcur (.inl rfl) hx
  have hfirst := (tickLinks_queue h.inv.queue h.inv.headPrev hcur (.inl rfl) hx).1
  rw [hqueue] at hinv
  refine ⟨x, hschedule, hinv, ?_, .inr rfl⟩
  have hready := hinv.queue.walk
  change Walk (tickLinks k.sys.links cur x) _ k.created
  change Walk (tickLinks k.sys.links cur x) _ k.created at hready
  rw [hshape] at hready ⊢
  rw [walk_cons] at hready hwalk ⊢
  rw [tickLinks_first_kernelThreads h.inv.headPrev h.last_ne hfirst]
  exact ⟨hwalk.1, hready.2⟩

theorem step (h : Registry k cur q) {e : Event τ} (hkeeps : KeepsRegistry k e)
    (hstep : Step k e k') : ∃ cur' q', Registry k' cur' q' := by
  cases hstep with
  | @create name startFunc newThread stack r sys fresh call =>
    rcases threadCreate_cases call with ⟨rfl, hlinks, hcurrent, -, hthreads⟩ |
        ⟨thr, -, -, rfl, rfl, hc⟩
    · rw [Option.toList_none, List.append_nil]
      refine ⟨cur, q, h.inv.create_failed fresh hlinks hcurrent hthreads, ?_, h.shape⟩
      exact hlinks ▸ h.walk
    · exact ⟨cur, _, h.create (fresh thr rfl) hc⟩
  | @schedule sys call =>
    obtain ⟨hlen, q', hwalk, hcur⟩ := hkeeps
    obtain rfl := hwalk.unique h.inv.queue.walk
    obtain ⟨x, htick, hnext⟩ := h.tick hlen (hcur cur h.inv.current)
    obtain rfl := Option.some.inj (htick.symm.trans call)
    exact ⟨x, _, hnext⟩

/-- A tick on a ready queue that begins with the first thread of the registry puts this thread
last, and the walk ends with it or goes round. -/
theorem not_registered_of_queued (h : Registry k cur k.created) {sys : System τ}
    (call : schedule k.sys = some sys) : ¬ Registered { k with sys := sys } := by
  rintro ⟨-, hkept⟩
  obtain ⟨x, ys, hcreated⟩ := List.exists_cons_of_ne_nil (List.ne_nil_of_mem h.inv.cur_mem)
  have hqueue := h.inv.queue
  have hwalk := h.walk
  rw [hcreated] at hqueue hwalk
  have hlast : k.sys.links.tqhLast .readyThreadsQueue ≠ .first .readyThreadsQueue := by
    rw [hqueue.1.2]
    exact endSlot_ne_first (List.cons_ne_nil x ys)
  have hfirst : first (insertTail k.sys.links .readyThreadsQueue cur) .readyThreadsQueue =
      some x := by
    rw [first, insertTail_load, Function.update_of_ne hlast.symm,
      Function.update_of_ne (first_ne_next _ _)]
    exact hqueue.1.1.1
  have hready : x = cur ∨ k.sys.state x = .ready := by
    by_cases hxc : x = cur
    · exact .inl hxc
    · exact .inr (h.inv.ready x (hcreated ▸ List.mem_cons_self) hxc)
  have htick := schedule_eq_tick h.inv.current h.inv.running hfirst hready
  obtain rfl := Option.some.inj (htick.symm.trans call)
  change Walk (tickLinks k.sys.links cur x) _ k.created at hkept
  have hkernel := tickLinks_first_kernelThreads h.inv.headPrev h.last_ne hfirst
  rw [hcreated] at hkept
  rcases insertTail_load_self (remove (insertTail k.sys.links .readyThreadsQueue cur)
    .readyThreadsQueue x) .readyThreadsQueue x with hend | hself
  · have halone : Walk (tickLinks k.sys.links cur x) (.first .kernelThreads) [x] :=
      walk_cons.mpr ⟨hkernel.trans hwalk.1.1, walk_nil.mpr hend⟩
    obtain rfl : ys = [] := (List.cons.inj (hkept.unique halone)).2
    obtain rfl : cur = x := List.mem_singleton.mp (hcreated ▸ h.inv.cur_mem)
    have hself := (tickLinks_self hqueue.1.1.1 hqueue.1.2).2.2.1
    exact absurd (hself.symm.trans hend) (Option.some_ne_none _)
  · exact not_walk_of_self hself ys (walk_cons.mp hkept).2

/-- The first tick with several threads waiting: the walk ends behind the one that it
dispatches. -/
theorem length_le_of_registered (h : Registry k cur q) (hshape : k.created = cur :: q)
    {sys : System τ} (call : schedule k.sys = some sys) (hkept : Registered { k with sys := sys }) :
    k.created.length ≤ 2 := by
  have hcur : cur ∉ q := (List.nodup_cons.mp (hshape ▸ h.walk.nodup)).1
  have hwalk := h.walk
  rw [hshape] at hwalk ⊢
  match q with
  | [] => simp
  | [t] => simp
  | x :: y :: ys =>
    exfalso
    have hsplit : x :: y :: ys ++ [cur] = x :: (y :: ys ++ [cur]) := rfl
    obtain ⟨htick, hinv⟩ := h.inv.tick hcur (.inl rfl) hsplit
    have hfirst := (tickLinks_queue h.inv.queue h.inv.headPrev hcur (.inl rfl) hsplit).1
    obtain rfl := Option.some.inj (htick.symm.trans call)
    have hready := hinv.queue.walk
    rw [List.append_assoc] at hready
    have hnext := hready.suffix
    have hkernel := tickLinks_first_kernelThreads h.inv.headPrev h.last_ne hfirst
    have hshort : Walk (tickLinks k.sys.links cur x) (.first .kernelThreads) [cur, x] :=
      walk_cons.mpr ⟨hkernel.trans hwalk.1.1, hnext⟩
    have heq := hkept.2.unique hshort
    change k.created = [cur, x] at heq
    rw [hshape] at heq
    simp at heq

theorem keepsRegistry_of_registered (h : Registry k cur q) {e : Event τ} (hstep : Step k e k')
    (hkept : Registered k') : KeepsRegistry k e := by
  cases hstep with
  | create => trivial
  | @schedule sys call =>
    rcases h.shape with hshape | rfl
    · refine ⟨h.length_le_of_registered hshape call hkept, q, h.inv.queue.walk, ?_⟩
      intro cur' hcur'
      obtain rfl : cur = cur' := Option.some.inj (h.inv.current.symm.trans hcur')
      exact (List.nodup_cons.mp (hshape ▸ h.walk.nodup)).1
    · exact absurd hkept (h.not_registered_of_queued call)

end Registry

/-- The insertion of the idle thread in the ready queue, which has not been set up yet, writes
through a null pointer and leaves the registry alone. -/
theorem registry_of_coldBooted {k : Kernel τ} (h : ColdBooted k) :
    ∃ idle, Registry k idle [] := by
  obtain ⟨prior, idleThread, idle, stack, sys, hnull, hset, rfl⟩ := h
  obtain ⟨idle', hcreated, hinv⟩ :=
    invariant_of_booted ⟨prior, idleThread, idle, stack, sys, hset, rfl⟩
  obtain rfl : idle = idle' := List.singleton_inj.mp hcreated
  refine ⟨idle, hinv, ?_, .inl hcreated⟩
  have hload : ∀ c : Slot ThreadList τ, c ≠ .null → c ≠ .first .readyThreadsQueue →
      (schedulerSetup sys).links.load c =
        (insertTail (init prior.links .kernelThreads) .kernelThreads idle).load c := by
    intro c hcnull hcready
    have hlast : (insertTail (init prior.links .kernelThreads) .kernelThreads idle).tqhLast
        .readyThreadsQueue = .null := by
      simp [init, hnull]
    change Function.update sys.links.load _ none c = _
    rw [Function.update_of_ne hcready, (threadingSetup_spec hset).1, createLinks, insertTail_load,
      hlast, Function.update_of_ne hcnull]
    by_cases hc : c = .next idle
    · rw [hc, Function.update_self, insertTail_load]
      simp [init]
    · rw [Function.update_of_ne hc]
  have hqueue := (queue_init prior.links ThreadList.kernelThreads).1.append (n := idle)
    List.nodup_nil List.not_mem_nil
  change Walk _ _ [idle]
  exact hqueue.walk.congr (hload _ (by simp) (by simp [lists_ne]))
    fun x _ => hload _ (by simp) (by simp)

/-- In a run of creations and ticks, the registry keeps its threads in the order of creation,
after each call, exactly when there is at most one tick, with at most one thread besides the idle
one. -/
theorem registered_iff_keeps (k : Kernel τ) (hk : ColdBooted k) (p : List (Event τ × Kernel τ))
    (hp : Path Step k p) :
    Registered k ∧ ((∀ x ∈ p, Registered x.2) ↔ Guarded KeepsRegistry k p) := by
  obtain ⟨idle, hstart⟩ := registry_of_coldBooted hk
  refine ⟨hstart.registered, ?_⟩
  refine Path.forall_states_iff_guarded (I := fun k => ∃ cur q, Registry k cur q) ?_ ?_ ?_ hp
    ⟨idle, [], hstart⟩
  · intro k hs
    obtain ⟨cur, q, h⟩ := hs
    exact h.registered
  · intro k e k' hs hkeeps hstep
    obtain ⟨cur, q, h⟩ := hs
    exact h.step hkeeps hstep
  · intro k e k' hs hstep hkept
    obtain ⟨cur, q, h⟩ := hs
    exact h.keepsRegistry_of_registered hstep hkept

section ConcreteRegistry

theorem coldBooted_bootedKernel : ColdBooted bootedKernel :=
  ⟨clearedSystem, 0x100400, 0, 0x200000, _, rfl, rfl, rfl⟩

theorem registered_iff_keeps_two : ∃ p : List (Event ℕ × Kernel ℕ), Path Step bootedKernel p ∧
    p.map Prod.fst = [createAt 1, .schedule, createAt 2] ∧
    Registered bootedKernel ∧
      ((∀ x ∈ p, Registered x.2) ↔ Guarded KeepsRegistry bootedKernel p) := by
  have hp : Path Step bootedKernel [(createAt 1, _), (.schedule, _), (createAt 2, _)] :=
    .cons (.create (createAt_fresh (by decide)) rfl)
      (.cons (.schedule rfl) (.cons (.create (createAt_fresh (by decide)) rfl) (.nil _)))
  exact ⟨_, hp, rfl, registered_iff_keeps _ coldBooted_bootedKernel _ hp⟩

/-- Two threads and a tick: the second thread is on the walk no more. -/
theorem second_unregistered : ¬ ∀ (k : Kernel ℕ) (p : List (Event ℕ × Kernel ℕ)), ColdBooted k →
    Path Step k p → ∀ x ∈ p, Registered x.2 := by
  intro h
  have hp : Path Step bootedKernel [(createAt 1, _), (createAt 2, _), (.schedule, _)] :=
    .cons (.create (createAt_fresh (by decide)) rfl)
      (.cons (.create (createAt_fresh (by decide)) rfl) (.cons (.schedule rfl) (.nil _)))
  obtain ⟨-, hwalk⟩ := h _ _ coldBooted_bootedKernel hp _ (List.mem_of_getLast? rfl)
  have hshort : [0, 1, 2] = [0, 1] := hwalk.unique ⟨⟨rfl, rfl, trivial⟩, rfl⟩
  simp at hshort

end ConcreteRegistry

end Einherjar.Threading
