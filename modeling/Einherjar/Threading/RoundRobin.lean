import Mathlib.Data.List.Rotate
import Einherjar.Lib.Run
import Einherjar.Threading.KernelRun

/-! Ticks over a fixed set of threads: all creations come before the first tick, and the
threads then take turns. -/
namespace Einherjar.Threading
open Einherjar.Lib Einherjar.Lib.TailQueue

variable {τ : Type*} [DecidableEq τ]

/-- The threads that `n` calls of `schedule` dispatch, unless an assertion fails. -/
def dispatches : ℕ → System τ → Option (List τ)
  | 0, _ => some []
  | n + 1, s => do
    let s ← schedule s
    let thr ← s.gCurrentThread
    let rest ← dispatches n s
    some (thr :: rest)

/-- Before the first tick: the idle thread runs, and the others wait in the order of their
creation. -/
def Unscheduled (k : Kernel τ) : Prop :=
  ∃ idle ts, k.created = idle :: ts ∧ (idle :: ts).Nodup ∧ Invariant k idle ts

theorem Unscheduled.step {k k' : Kernel τ} {e : Event τ} (h : Unscheduled k) (he : e ≠ .schedule)
    (hstep : Step k e k') : Unscheduled k' := by
  obtain ⟨idle, ts, hcreated, hnodup, hinv⟩ := h
  cases hstep with
  | schedule => exact absurd rfl he
  | @create name startFunc newThread stack r sys fresh call =>
    rcases threadCreate_cases call with ⟨rfl, hlinks, hcurrent, -, hthreads⟩ |
        ⟨thr, -, -, rfl, rfl, hc⟩
    · refine ⟨idle, ts, ?_, hnodup, ?_⟩
      · simpa using hcreated
      · rw [Option.toList_none, List.append_nil]
        exact hinv.create_failed fresh hlinks hcurrent hthreads
    · have hthr := fresh thr rfl
      refine ⟨idle, ts ++ [thr], ?_, ?_, ?_⟩
      · simp [hcreated]
      · rw [hcreated] at hthr
        rw [← List.cons_append]
        refine List.nodup_append.mpr ⟨hnodup, by simp, ?_⟩
        intro t ht u hu heq
        rw [List.mem_singleton.mp hu] at heq
        exact hthr (heq ▸ ht)
      · -- The newest thread is the last one that waits, or there is only the idle thread
        obtain ⟨newest, hlast, hnewest⟩ := hinv.newest
        rw [hcreated] at hlast
        rcases ts.eq_nil_or_concat' with rfl | ⟨xs, z, rfl⟩
        · exact hinv.create_outside hthr hc hnewest List.not_mem_nil
        · obtain rfl : z = newest := by
            rw [← List.cons_append, List.getLast?_concat] at hlast
            exact Option.some.inj hlast
          have hlastInv : Invariant k idle (xs ++ z :: []) := hinv
          have hnew := hlastInv.create_behind hthr hc hnewest (by simp)
          simpa using hnew

/-- The threads of the list take the next turns, in this order and from then on again. -/
inductive Turns : Kernel τ → List τ → Prop
  | several {k : Kernel τ} {cur : τ} {q waiting : List τ} (inv : Invariant k cur q)
      (hcur : cur ∉ waiting) (shape : q = waiting ∨ q = waiting ++ [cur] ∧ waiting ≠ []) :
      Turns k (waiting ++ [cur])
  | alone {k : Kernel τ} {cur : τ} (current : k.sys.gCurrentThread = some cur)
      (running : k.sys.state cur = .running)
      (first : k.sys.links.load (.first .readyThreadsQueue) = some cur)
      (last : k.sys.links.tqhLast .readyThreadsQueue = .next cur) : Turns k [cur]

theorem Turns.schedule {k : Kernel τ} {x : τ} {rest : List τ} (h : Turns k (x :: rest)) :
    ∃ sys, schedule k.sys = some sys ∧ sys.gCurrentThread = some x ∧
      Turns { k with sys := sys } (rest ++ [x]) := by
  generalize hc : x :: rest = c at h
  cases h with
  | several inv hcur shape =>
    obtain ⟨htick, hinv⟩ := inv.tick hcur shape hc.symm
    refine ⟨_, htick, rfl, ?_⟩
    cases rest with
    | nil =>
      refine .alone hinv.current hinv.running hinv.queue.1.1.1 ?_
      simpa using hinv.queue.1.2
    | cons y ys =>
      refine .several hinv ?_ (.inr ⟨rfl, List.cons_ne_nil y ys⟩)
      have hnodup := hinv.queue.nodup
      intro hx
      exact (List.nodup_append.mp hnodup).2.2 x hx x (by simp) rfl
  | alone current running hfirst last =>
    obtain ⟨rfl, rfl⟩ := List.cons.inj hc
    obtain ⟨hfront, hhead, -, hlast⟩ := tickLinks_self hfirst last
    have htick := schedule_eq_tick current running hfront (.inl rfl)
    exact ⟨_, htick, rfl, .alone rfl (tick_state_self ..) hhead hlast⟩

omit [DecidableEq τ] in
theorem Turns.ne_nil {k : Kernel τ} {turns : List τ} (h : Turns k turns) : turns ≠ [] := by
  cases h <;> simp

/-- The `m`-th of `n` ticks dispatches the `m`-th thread of the cycle. -/
theorem Turns.dispatches {k : Kernel τ} {turns : List τ} (h : Turns k turns) (n : ℕ) :
    ∃ ds, dispatches n k.sys = some ds ∧ ds.length = n ∧
      ∀ m < n, ds[m]? = turns[m % turns.length]? := by
  induction n generalizing k turns with
  | zero => exact ⟨[], rfl, rfl, fun m hm => absurd hm (Nat.not_lt_zero m)⟩
  | succ n ih =>
    obtain ⟨x, rest, rfl⟩ := List.exists_cons_of_ne_nil h.ne_nil
    obtain ⟨sys, hsched, hcurrent, hnext⟩ := h.schedule
    obtain ⟨ds, hds, hlen, hget⟩ := ih hnext
    refine ⟨x :: ds, ?_, by simp [hlen], ?_⟩
    · unfold Threading.dispatches
      simp only [hsched, hcurrent, hds, Option.bind_eq_bind, Option.bind_some]
    · intro m hm
      cases m with
      | zero => simp
      | succ m =>
        have hrot : rest ++ [x] = (x :: rest).rotate 1 := by simp
        have hpos : 0 < (x :: rest).length := Nat.succ_pos _
        rw [List.getElem?_cons_succ, hget m (by omega), hrot, List.length_rotate,
          List.getElem?_rotate (Nat.mod_lt _ hpos), Nat.mod_add_mod]

omit [DecidableEq τ] in
/-- As many consecutive ticks as there are threads dispatch each thread once. -/
theorem window_perm {turns ds : List τ} {n i : ℕ}
    (hget : ∀ m < n, ds[m]? = turns[m % turns.length]?) (hi : i + turns.length ≤ n) :
    ((ds.drop i).take turns.length).Perm turns := by
  have hrot : (ds.drop i).take turns.length = turns.rotate i := by
    apply List.ext_getElem?
    intro j
    by_cases hj : j < turns.length
    · rw [List.getElem?_take_of_lt hj, List.getElem?_drop, hget _ (by omega),
        List.getElem?_rotate hj, Nat.add_comm]
    · rw [List.getElem?_eq_none (by simp; omega), List.getElem?_eq_none (by simp; omega)]
  rw [hrot]
  exact List.rotate_perm turns i

/-- After the set-up and any creations, the ticks dispatch the created threads in the order
of their creation, then the idle thread, and so on, without a failed assertion. -/
theorem schedule_roundRobin (k : Kernel τ) (hk : Booted k) (p : List (Event τ × Kernel τ))
    (hp : Path Step k p) (hcreate : .schedule ∉ p.map Prod.fst) (n : ℕ) :
    ∃ idle ts ds, (finalState k p).created = idle :: ts ∧ (ts ++ [idle]).Nodup ∧
      dispatches n (finalState k p).sys = some ds ∧ ds.length = n ∧
      (∀ m < n, ds[m]? = (ts ++ [idle])[m % (ts.length + 1)]?) ∧
      ∀ i, i + (ts.length + 1) ≤ n →
        ((ds.drop i).take (ts.length + 1)).Perm (ts ++ [idle]) := by
  have hfresh : Unscheduled (finalState k p) := by
    obtain ⟨idle, hidle, hinv⟩ := invariant_of_booted hk
    have hstart : Unscheduled k := ⟨idle, [], hidle, List.nodup_singleton idle, hinv⟩
    clear hk hidle hinv
    induction hp with
    | nil => exact hstart
    | cons step rest ih =>
      rw [List.map_cons, List.mem_cons, not_or] at hcreate
      exact ih hcreate.2 (hstart.step (Ne.symm hcreate.1) step)
  obtain ⟨idle, ts, hcreated, hnodup, hinv⟩ := hfresh
  obtain ⟨hidle, -⟩ := List.nodup_cons.mp hnodup
  have hcycle : (ts ++ [idle]).length = ts.length + 1 := List.length_append
  obtain ⟨ds, hds, hlen, hget⟩ := (Turns.several hinv hidle (.inl rfl)).dispatches n
  refine ⟨idle, ts, ds, hcreated, ?_, hds, hlen, ?_, ?_⟩
  · exact (List.perm_append_singleton idle ts).nodup_iff.mpr hnodup
  · rwa [hcycle] at hget
  · intro i hi
    rw [← hcycle] at hi ⊢
    exact window_perm hget hi

theorem schedule_roundRobin_two : ∃ p : List (Event ℕ × Kernel ℕ), Path Step bootedKernel p ∧
    p.map Prod.fst = [createAt 1, createAt 2] ∧
    ∃ idle ts ds, (finalState bootedKernel p).created = idle :: ts ∧ (ts ++ [idle]).Nodup ∧
      dispatches 7 (finalState bootedKernel p).sys = some ds ∧ ds.length = 7 ∧
      (∀ m < 7, ds[m]? = (ts ++ [idle])[m % (ts.length + 1)]?) ∧
      ∀ i, i + (ts.length + 1) ≤ 7 →
        ((ds.drop i).take (ts.length + 1)).Perm (ts ++ [idle]) := by
  have hp : Path Step bootedKernel [(createAt 1, _), (createAt 2, _)] :=
    .cons (.create (createAt_fresh (by decide)) rfl)
      (.cons (.create (createAt_fresh (by decide)) rfl) (.nil _))
  have hcreate : Event.schedule ∉ [createAt 1, createAt 2] := by simp [createAt]
  exact ⟨_, hp, rfl, schedule_roundRobin _ booted_bootedKernel _ hp hcreate 7⟩

end Einherjar.Threading
