import Einherjar.Arch.Preemption
import Einherjar.Threading.Starvation

/-! The scheduler on the machine: runs in which threads call `thread_create` and `schedule`, which
changes the lists of threads and switches the processor, with interrupts in between, also between
the two parts of `thread_create`. -/
namespace Einherjar.Threading
open Einherjar.Arch Einherjar.Lib

variable {τ : Type*}

/-- The lists of threads, and the machine that the threads run on. -/
structure MachineKernel (τ : Type*) where
  kernel : OpenKernel τ
  machine : PreemptiveState τ

inductive MachineEvent (τ : Type*) where
  /-- A step that calls neither `thread_create` nor `schedule`. -/
  | plain (e : PreemptiveEvent τ)
  | call (e : OpenEvent τ)

section Semantics

variable (L : StackLayout τ) (code : CodeAddresses) (link : IrqLinkage) (wrappers : IrqWrappers)
  (arith : BitVec 32 → BitVec 32 → BitVec 32) [DecidableEq τ]

/-- `thread_create` sets up the stack that it has got from `malloc` and inserts the thread; in a
step of its own it sets the thread ready. `schedule` calls
`cpu_context_switch(&current_thread->cpu_state, next_thread->cpu_state)` if the two threads differ;
which thread the processor really runs is not asked. -/
inductive MachineStep : MachineKernel τ → MachineEvent τ → MachineKernel τ → Prop
  | plain {s : MachineKernel τ} {e : PreemptiveEvent τ} {machine : PreemptiveState τ}
      (hplain : e = .run ∨ (∃ line, e = .interrupt line) ∨ e = .handlerReturn)
      (step : L.PreemptiveStep code link wrappers arith s.machine e machine) :
      MachineStep s (.plain e) { s with machine := machine }
  | inserted {s : MachineKernel τ} {name : Option (List (BitVec 8))} {startFunc : BitVec 32}
      {thr : τ} {stack : BitVec 32} {kernel : OpenKernel τ} (startArg : BitVec 32)
      (cpu : Processor) (mem₀ : Memory 32)
      (call : OpenStep s.kernel (.insert name startFunc (some thr) stack) kernel)
      (hcreated : kernel.created = s.kernel.created ++ [thr])
      (hstack : L.stackBase thr = stack) (hsize : L.stackSize thr = threadKernelStackSize)
      (hcpu : L.Decent s.machine cpu)
      (kstate : ∀ a, L.Owns thr a → cpu.machine.mem a =
        cpuKstateInit code mem₀ (L.cpuState thr) startFunc startArg stack threadKernelStackSize a) :
      MachineStep s (.call (.insert name startFunc (some thr) stack))
        { kernel := kernel
          machine := s.machine.create cpu thr startFunc startArg }
  | failed {s : MachineKernel τ} {name : Option (List (BitVec 8))} {startFunc : BitVec 32}
      {newThread : Option τ} {stack : BitVec 32} {kernel : OpenKernel τ} (cpu : Processor)
      (call : OpenStep s.kernel (.insert name startFunc newThread stack) kernel)
      (hcreated : kernel.created = s.kernel.created) (hcpu : L.Decent s.machine cpu) :
      MachineStep s (.call (.insert name startFunc newThread stack))
        { kernel := kernel
          machine := { s.machine with cpu := cpu } }
  | readied {s : MachineKernel τ} {kernel : OpenKernel τ} (cpu : Processor)
      (call : OpenStep s.kernel .setReady kernel) (hcpu : L.Decent s.machine cpu) :
      MachineStep s (.call .setReady)
        { kernel := kernel
          machine := { s.machine with cpu := cpu } }
  | stays {s : MachineKernel τ} {kernel : OpenKernel τ} {currentThread : τ} (cpu : Processor)
      (call : OpenStep s.kernel .schedule kernel)
      (hcurrent : s.kernel.sys.gCurrentThread = some currentThread)
      (hnext : kernel.sys.gCurrentThread = some currentThread) (hcpu : L.Decent s.machine cpu) :
      MachineStep s (.call .schedule)
        { kernel := kernel
          machine := { s.machine with cpu := cpu } }
  | switches {s : MachineKernel τ} {kernel : OpenKernel τ} {currentThread nextThread : τ}
      (callerIp : BitVec 32) (call : OpenStep s.kernel .schedule kernel)
      (hcurrent : s.kernel.sys.gCurrentThread = some currentThread)
      (hnext : kernel.sys.gCurrentThread = some nextThread) (hne : currentThread ≠ nextThread)
      (hcall : L.Calling currentThread s.machine.cpu.machine)
      (destination : s.machine.cpu.machine.mem.load32 (s.machine.cpu.machine.esp + 4) =
        s.machine.cpu.machine.mem.load32 (L.cpuState nextThread)) :
      MachineStep s (.call .schedule)
        { kernel := kernel
          machine := s.machine.transfer
            (cpuContextSwitch code arith (s.machine.cpu.machine.push32 callerIp)) nextThread
            callerIp }

/-- The current thread of the scheduler is the one that the processor runs. It alone is in the state
`THREAD_RUNNING`; the others are ready, and `THREAD_CREATED` as long as they are being created. An
assertion fails only in a tick that takes such a thread from the queue. -/
structure InStep (s : MachineKernel τ) : Prop where
  current : s.kernel.sys.gCurrentThread = some s.machine.running
  threads : s.machine.threads = s.kernel.created
  running : s.kernel.sys.state s.machine.running = .running
  ready : ∀ t ∈ s.kernel.created, t ≠ s.machine.running →
    (∀ c, s.kernel.creating c ≠ some t) → s.kernel.sys.state t = .ready
  unready : ∀ c t, s.kernel.creating c = some t → s.kernel.sys.state t = .created
  assertions : OpenAssertions s.kernel

/-- A thread that `schedule` switches to goes on as it was set up or as it has called `schedule`
itself, and the interrupted threads go on as they were. -/
def StepTransparent (s : MachineKernel τ) (e : MachineEvent τ) (s' : MachineKernel τ) : Prop :=
  match e with
  | .plain e => StackLayout.Transparent code link s.machine e s'.machine
  | .call _ => s'.machine.running = s.machine.running ∨
      Resumes code s'.machine.cpu.machine (s.machine.origin s'.machine.running)

end Semantics

section Coupling

variable {L : StackLayout τ} {code : CodeAddresses} {link : IrqLinkage} {wrappers : IrqWrappers}
  {arith : BitVec 32 → BitVec 32 → BitVec 32} {s s' : MachineKernel τ}

/-- The scheduler's lists and the stacks of the machine agree on which threads there are and which
of them is running. -/
structure Coupled (L : StackLayout τ) (code : CodeAddresses) (s : MachineKernel τ) : Prop where
  steady : OpenSteady s.kernel s.machine.running
  threads : s.machine.threads = s.kernel.created
  interleaved : L.Interleaved code s.machine

variable [DecidableEq τ]

theorem Coupled.inStep (h : Coupled L code s) : InStep s where
  current := h.steady.steady.current
  threads := h.threads
  running := h.steady.steady.running
  ready t ht htr hc := h.steady.steady.ready t ⟨ht, fun ⟨c, hct⟩ => hc c hct⟩ htr
  unready c t hc := h.steady.steady.state_unready t ⟨c, hc⟩
  assertions := h.steady.openAssertions

section calls

variable {k k' : OpenKernel τ} {cur thr : τ} {name : Option (List (BitVec 8))}
  {startFunc stack : BitVec 32} {newThread : Option τ} {e : OpenEvent τ}

/-- Only a tick changes which thread runs. -/
theorem OpenSteady.keep (h : OpenSteady k cur) (hstep : OpenStep k e k') (he : e ≠ .schedule) :
    OpenSteady k' cur := by
  obtain ⟨cur', hsteady, hcur⟩ := h.step hstep
  rwa [hcur he] at hsteady

/-- A tick, after which `cur` runs. -/
theorem OpenSteady.of_current {cur' : τ} (h : OpenSteady k cur) (hstep : OpenStep k e k')
    (hcurrent : k'.sys.gCurrentThread = some cur') : OpenSteady k' cur' := by
  obtain ⟨cur'', hsteady, -⟩ := h.step hstep
  rwa [← Option.some.inj (hsteady.steady.current.symm.trans hcurrent)]

/-- The new thread was not there before. -/
theorem OpenStep.fresh (hstep : OpenStep k (.insert name startFunc (some thr) stack) k') :
    thr ∉ k.created := by
  cases hstep with
  | insert hcur hnone fresh call => exact fresh thr rfl

theorem OpenStep.created_eq (hstep : OpenStep k e k')
    (he : ∀ name startFunc newThread stack, e ≠ .insert name startFunc newThread stack) :
    k'.created = k.created := by
  cases hstep with
  | insert => exact absurd rfl (he _ _ _ _)
  | setReady => rfl
  | schedule => rfl

end calls

/-- The steps that call neither function leave the threads alone. -/
theorem plain_keeps {m m' : PreemptiveState τ} {e : PreemptiveEvent τ}
    (hplain : e = .run ∨ (∃ line, e = .interrupt line) ∨ e = .handlerReturn)
    (step : L.PreemptiveStep code link wrappers arith m e m') :
    m'.running = m.running ∧ m'.threads = m.threads := by
  cases step with
  | run => exact ⟨rfl, rfl⟩
  | create => simp at hplain
  | transfer => simp at hplain
  | interrupt => exact ⟨rfl, rfl⟩
  | handlerReturn => exact ⟨rfl, rfl⟩

/-- Which thread runs, in the lists and on the processor. -/
theorem OpenSteady.machineStep {e : MachineEvent τ}
    (h : OpenSteady s.kernel s.machine.running)
    (hstep : MachineStep L code link wrappers arith s e s') :
    OpenSteady s'.kernel s'.machine.running := by
  cases hstep with
  | plain hplain step =>
    have hrunning := (plain_keeps hplain step).1
    rwa [← hrunning] at h
  | inserted startArg cpu mem₀ call => exact h.keep call nofun
  | failed cpu call => exact h.keep call nofun
  | readied cpu call => exact h.keep call nofun
  | @stays kernel currentThread cpu call hcurrent hnext =>
    obtain rfl : currentThread = s.machine.running :=
      Option.some.inj (hcurrent.symm.trans h.steady.current)
    exact h.of_current call hnext
  | switches callerIp call hcurrent hnext => exact h.of_current call hnext

omit [DecidableEq τ] in
/-- The processor runs the same thread as before, which has kept the stacks of the others. -/
theorem Coupled.decent {kernel : OpenKernel τ} {cpu : Processor} {e : OpenEvent τ}
    (h : Coupled L code s) (hcpu : L.Decent s.machine cpu)
    (hsteady : OpenSteady kernel s.machine.running) (hcreated : kernel.created = s.kernel.created) :
    Coupled L code { kernel := kernel, machine := { s.machine with cpu := cpu } } ∧
      StepTransparent code link s (.call e)
        { kernel := kernel, machine := { s.machine with cpu := cpu } } := by
  have hnested := h.interleaved.running.congr hcpu.saved hcpu.below
  refine ⟨⟨hsteady, h.threads.trans hcreated.symm, ?_⟩, .inl rfl⟩
  exact h.interleaved.keep rfl rfl rfl (fun _ _ => rfl) hcpu.frame hnested

/-- The processor has been switched to the next thread. -/
theorem switched {kernel : OpenKernel τ} {nextThread : τ} {m : Machine} {callerIp : BitVec 32}
    (hsteady : OpenSteady kernel nextThread) (hthreads : s.machine.threads = kernel.created)
    (hinter : L.Interleaved code (s.machine.transfer m nextThread callerIp))
    (hres : Resumes code m (s.machine.origin nextThread)) :
    Coupled L code { kernel := kernel, machine := s.machine.transfer m nextThread callerIp } ∧
      StepTransparent code link s (.call .schedule)
        { kernel := kernel, machine := s.machine.transfer m nextThread callerIp } :=
  ⟨⟨hsteady, hthreads, hinter⟩, .inr hres⟩

/-- One step keeps the lists and the machine together. -/
theorem Coupled.step {e : MachineEvent τ} (h : Coupled L code s)
    (hsmall : ∀ t, (L.stackSize t).toNat < 2 ^ 31)
    (htable : ∀ line, ∀ j < 4, ∀ t, ¬ L.OnStack t (link.slot line + BitVec.ofNat 32 j))
    (harith : KeepsIf arith) (hstep : MachineStep L code link wrappers arith s e s') :
    Coupled L code s' ∧ StepTransparent code link s e s' := by
  have hsteady := h.steady.machineStep hstep
  cases hstep with
  | plain hplain step =>
    obtain ⟨hinter, htrans⟩ := h.interleaved.step hsmall htable harith step
    obtain ⟨-, hthreads⟩ := plain_keeps hplain step
    exact ⟨⟨hsteady, hthreads.trans h.threads, hinter⟩, htrans⟩
  | @inserted name startFunc thr stack kernel startArg cpu mem₀ call hcreated hstack hsize hcpu
      kstate =>
    have fresh : thr ∉ s.machine.threads := h.threads ▸ call.fresh
    have prepared : L.Prepared code arith cpu.machine.mem thr (.created startFunc startArg) := by
      refine ⟨?_, mem₀, fun a ha => ?_⟩
      · rw [hsize]
        decide
      · rw [hstack, hsize]
        exact kstate a ha
    have hthreads : s.machine.threads ++ [thr] = kernel.created := by
      rw [hcreated, h.threads]
    have hinter := h.interleaved.create fresh hcpu prepared
    exact ⟨⟨hsteady, hthreads, hinter⟩, .inl rfl⟩
  | failed cpu call hcreated hcpu => exact h.decent hcpu hsteady hcreated
  | readied cpu call hcpu => exact h.decent hcpu hsteady (call.created_eq nofun)
  | stays cpu call hcurrent hnext hcpu => exact h.decent hcpu hsteady (call.created_eq nofun)
  | @switches kernel currentThread nextThread callerIp call hcurrent hnext hne hcall hdest =>
    obtain rfl : currentThread = s.machine.running :=
      Option.some.inj (hcurrent.symm.trans h.steady.steady.current)
    have hthreads : s.machine.threads = kernel.created :=
      h.threads.trans (call.created_eq nofun).symm
    have hmem : nextThread ∈ s.machine.threads := hthreads ▸ hsteady.steady.cur_mem
    obtain ⟨hres, hinter⟩ := @StackLayout.Interleaved.transfer _ _ _ arith _ _ h.interleaved hsmall
      _ callerIp hmem hne.symm hcall hdest
    exact switched hsteady hthreads hinter hres

end Coupling

section Runs

variable {L : StackLayout τ} {code : CodeAddresses} {link : IrqLinkage} {wrappers : IrqWrappers}
  {arith : BitVec 32 → BitVec 32 → BitVec 32} {s s' : MachineKernel τ}

/-- The machine after the set-up: the idle thread runs, and there is no other one. -/
structure MachineBooted [DecidableEq τ] (s : MachineKernel τ) : Prop where
  booted : OpenBooted s.kernel
  current : s.kernel.sys.gCurrentThread = some s.machine.running
  threads : s.machine.threads = s.kernel.created
  pending : ∀ t ∈ s.machine.threads, s.machine.pending t = []

variable [DecidableEq τ]

theorem MachineBooted.early (h : MachineBooted s) : Early s.kernel s.machine.running False := by
  obtain ⟨idle, hearly⟩ := h.booted.early
  rwa [← Option.some.inj (hearly.steady.steady.current.symm.trans h.current)]

theorem MachineBooted.coupled (h : MachineBooted s) : Coupled L code s := by
  have hsteady := h.early.steady
  obtain ⟨idle, hcreated, hinv⟩ := invariant_of_booted h.booted.booted
  obtain rfl : idle = s.machine.running := Option.some.inj (hinv.current.symm.trans h.current)
  have hthreads : s.machine.threads = [s.machine.running] := h.threads.trans hcreated
  refine ⟨hsteady, h.threads, ?_⟩
  refine @StackLayout.interleaved_of_prepared _ L code (fun x _ => x) _ ?_ ?_ h.pending
  · rw [hthreads]
    exact List.mem_singleton_self _
  · intro t ht htr
    rw [hthreads] at ht
    exact absurd (List.mem_singleton.mp ht) htr

/-- What a step does to the lists of threads. -/
theorem MachineStep.kernel {e : MachineEvent τ}
    (hstep : MachineStep L code link wrappers arith s e s') :
    (∃ e', e = .plain e' ∧ s'.kernel = s.kernel) ∨
      ∃ e', e = .call e' ∧ OpenStep s.kernel e' s'.kernel := by
  cases hstep with
  | plain => exact .inl ⟨_, rfl, rfl⟩
  | inserted _ _ _ call => exact .inr ⟨_, rfl, call⟩
  | failed _ call => exact .inr ⟨_, rfl, call⟩
  | readied _ call => exact .inr ⟨_, rfl, call⟩
  | stays _ call => exact .inr ⟨_, rfl, call⟩
  | switches _ call => exact .inr ⟨_, rfl, call⟩

/-- Until the first tick the idle thread runs, and the queue fills when a thread is set ready. -/
theorem early_before {idle : τ} {readied : Prop} (h : Early s.kernel idle readied)
    (hrunning : s.machine.running = idle) {p : List (MachineEvent τ × MachineKernel τ)}
    (hp : Path (MachineStep L code link wrappers arith) s p)
    (hfirst : .call .schedule ∉ p.map Prod.fst) :
    Early (finalState s p).kernel idle (readied ∨ .call .setReady ∈ p.map Prod.fst) ∧
      (finalState s p).machine.running = idle ∧ ∀ x ∈ p, x.2.machine.running = idle := by
  induction hp generalizing readied with
  | nil s => simpa [finalState, hrunning] using h
  | @cons s t e p step rest ih =>
    simp only [List.map_cons, List.mem_cons, not_or] at hfirst ⊢
    have hsteady : OpenSteady t.kernel t.machine.running := by
      refine OpenSteady.machineStep ?_ step
      rw [hrunning]
      exact h.steady
    obtain ⟨hearly, hsame⟩ : Early t.kernel idle (readied ∨ MachineEvent.call .setReady = e) ∧
        t.machine.running = idle := by
      rcases step.kernel with ⟨e', rfl, hkernel⟩ | ⟨e', rfl, hkernel⟩
      · have hnot : (readied ∨ MachineEvent.call .setReady = .plain e') = readied := by simp
        rw [hnot, hkernel]
        refine ⟨h, ?_⟩
        rw [hkernel] at hsteady
        exact Option.some.inj (hsteady.steady.current.symm.trans h.steady.steady.current)
      · have he : e' ≠ .schedule := fun he => hfirst.1 (he ▸ rfl)
        have hstep := h.step hkernel he
        have hsame : (MachineEvent.call .setReady = .call e') = (e' = .setReady) :=
          propext ⟨fun he => (MachineEvent.call.inj he).symm, fun he => he ▸ rfl⟩
        rw [hsame]
        have hcurrent := hsteady.steady.current.symm.trans hstep.steady.steady.current
        exact ⟨hstep, Option.some.inj hcurrent⟩
    obtain ⟨hfinal, hrun, hall⟩ := ih hearly hsame hfirst.2
    refine ⟨?_, hrun, ?_⟩
    · rwa [or_assoc] at hfinal
    · rintro x (rfl | hx)
      · exact hsame
      · exact hall x hx

/-- Once the idle thread is at the front it runs for ever. -/
theorem atFront_forever {idle : τ} (hsteady : OpenSteady s.kernel s.machine.running)
    (hfront : AtFront s.kernel.toKernel idle) {p : List (MachineEvent τ × MachineKernel τ)}
    (hp : Path (MachineStep L code link wrappers arith) s p) :
    s.machine.running = idle ∧ ∀ x ∈ p, x.2.machine.running = idle := by
  have hrunning : ∀ s : MachineKernel τ, OpenSteady s.kernel s.machine.running ∧
      AtFront s.kernel.toKernel idle → s.machine.running = idle :=
    fun s h => Option.some.inj (h.1.steady.current.symm.trans h.2.current)
  refine ⟨hrunning s ⟨hsteady, hfront⟩, fun x hx => hrunning x.2 ?_⟩
  refine hp.invariant (I := fun s => OpenSteady s.kernel s.machine.running ∧
    AtFront s.kernel.toKernel idle) ?_ ⟨hsteady, hfront⟩ x hx
  rintro s e s' ⟨hsteady, hfront⟩ hstep
  refine ⟨hsteady.machineStep hstep, ?_⟩
  rcases hstep.kernel with ⟨e', rfl, hkernel⟩ | ⟨e', rfl, hkernel⟩
  · rwa [hkernel]
  · rw [hrunning s ⟨hsteady, hfront⟩] at hsteady
    exact hfront.step hsteady hkernel

end Runs

section SecondThread

/-- The kernel after the set-up on cleared memory, with the idle thread at the first of the two
addresses. -/
def bootedOnMachine : MachineKernel Bool where
  kernel :=
    let cleared : System Bool :=
      { links := { load := fun _ => none, tqePrev := fun _ => .null, tqhLast := fun _ => .null }
        threads _ := clearedSystem.threads 0
        gCurrentThread := none }
    { sys := ((threadingSetup cleared 0x100200 (some false) 0x10000).map schedulerSetup).getD
        cleared
      created := [false]
      creating := fun _ => none }
  machine :=
    { cpu := ⟨StackLayout.beforeTransfer.machine, []⟩
      threads := [false]
      running := false
      origin _ := .created 0x100200 0
      pending _ := [] }

theorem bootedOnMachine_booted : MachineBooted bootedOnMachine where
  booted := ⟨⟨_, 0x100200, false, 0x10000, _, rfl, rfl⟩, fun _ => rfl⟩
  current := rfl
  threads := rfl
  pending _ _ := rfl

/-- The kernel when the second thread is in the list of all threads. -/
def secondInserted : OpenKernel Bool where
  sys := (insertNewThread bootedOnMachine.kernel.sys none 0x100400 (some true) 0x20000).2
  created := [false, true]
  creating := Function.update (fun _ => none) false (some true)

/-- The kernel when the second thread has been created. -/
def secondReadied : OpenKernel Bool where
  sys := secondInserted.sys.readied true
  created := [false, true]
  creating := Function.update secondInserted.creating false none

def secondCreated : MachineKernel Bool where
  kernel := secondInserted
  machine := bootedOnMachine.machine.create ⟨StackLayout.beforeTransfer.machine, []⟩ true 0x100400 5

def secondWaits : MachineKernel Bool where
  kernel := secondReadied
  machine := secondCreated.machine

def secondRuns : MachineKernel Bool where
  kernel := { secondReadied with sys := (schedule secondReadied.sys).getD secondReadied.sys }
  machine := secondWaits.machine.transfer
    (cpuContextSwitch StackLayout.codeAt (fun flags _ => flags)
      (secondWaits.machine.cpu.machine.push32 0x100304)) true 0x100304

/-- A second thread is created, and gets the processor. -/
theorem secondThread_path :
    Path (MachineStep StackLayout.twoStacks StackLayout.codeAt StackLayout.linkageAt wrappersAt
        fun flags _ => flags) bootedOnMachine
      [(.call (.insert none 0x100400 (some true) 0x20000), secondCreated),
        (.call .setReady, secondWaits), (.call .schedule, secondRuns)] := by
  have hinsert : OpenStep bootedOnMachine.kernel (.insert none 0x100400 (some true) 0x20000)
      secondInserted := by
    refine .insert (r := some true) rfl rfl ?_ rfl
    rintro thr ⟨⟩
    decide
  have hready : OpenStep secondInserted .setReady secondReadied :=
    @OpenStep.setReady _ _ _ false true _ _ rfl rfl (schedulerSetReady_created rfl)
  have hschedule : OpenStep secondReadied .schedule
      { secondReadied with sys := (schedule secondReadied.sys).getD secondReadied.sys } :=
    .schedule rfl
  have hcall : StackLayout.twoStacks.Calling false StackLayout.beforeTransfer.machine := by
    constructor
    · decide +kernel
    · intro i hi
      change (0x10800#32 - 60#32 + BitVec.ofNat 32 i - 0x10000#32).toNat < 0x1000
      bv_omega
  have hdecent : ∀ s : PreemptiveState Bool, s.cpu = ⟨StackLayout.beforeTransfer.machine, []⟩ →
      (∀ t, s.pending t = []) →
        StackLayout.twoStacks.Decent s ⟨StackLayout.beforeTransfer.machine, []⟩ := by
    intro s hcpu hpending
    refine ⟨fun _ _ _ _ _ => by rw [hcpu], ?_, ?_⟩
    · rw [hpending]
      exact fun _ hi => absurd hi List.not_mem_nil
    · rw [hpending]
      exact fun _ hi => absurd hi (Option.not_mem_none _)
  exact .cons (.inserted 5 _ _ hinsert rfl rfl rfl (hdecent _ rfl fun _ => rfl) fun _ _ => rfl)
    (.cons (.readied _ hready (hdecent _ rfl (by decide)))
      (.cons (.switches 0x100304 hschedule rfl rfl Bool.false_ne_true hcall (by decide +kernel))
        (.nil _)))

end SecondThread

/-- Along every run after the set-up, with threads created and scheduled and interrupts anywhere in
between, the current thread of the scheduler is the one that the processor runs, every thread goes
on where it was interrupted or has called `schedule`, and no assertion fails but in a tick that
takes a thread from the queue which is still being created. -/
theorem kernel_on_machine [DecidableEq τ] (L : StackLayout τ) (code : CodeAddresses)
    (link : IrqLinkage) (wrappers : IrqWrappers) (arith : BitVec 32 → BitVec 32 → BitVec 32)
    (hsmall : ∀ t, (L.stackSize t).toNat < 2 ^ 31)
    (htable : ∀ line, ∀ j < 4, ∀ t, ¬ L.OnStack t (link.slot line + BitVec.ofNat 32 j))
    (harith : KeepsIf arith) (s : MachineKernel τ) (hs : MachineBooted s)
    (p : List (MachineEvent τ × MachineKernel τ))
    (hp : Path (MachineStep L code link wrappers arith) s p) :
    Along (fun s e s' => InStep s' ∧ StepTransparent code link s e s') s p := by
  refine hp.along (I := Coupled L code) (fun s e s' h hstep => ?_) (fun s e s' h hstep => ?_)
    hs.coupled
  · exact (h.step hsmall htable harith hstep).1
  · obtain ⟨hcoupled, htrans⟩ := h.step hsmall htable harith hstep
    exact ⟨hcoupled.inStep, htrans⟩

theorem kernel_on_machine_second : secondRuns.kernel.sys.gCurrentThread = some true ∧
    Resumes StackLayout.codeAt secondRuns.machine.cpu.machine (.created 0x100400 5) := by
  obtain ⟨-, -, ⟨hstep, htrans⟩, -⟩ := kernel_on_machine StackLayout.twoStacks StackLayout.codeAt
    StackLayout.linkageAt wrappersAt (fun flags _ => flags) (by decide)
    StackLayout.linkageAt_outside (fun _ _ => rfl) bootedOnMachine bootedOnMachine_booted _
    secondThread_path
  have horigin : secondWaits.machine.origin true = .created 0x100400 5 := rfl
  have hres : Resumes StackLayout.codeAt secondRuns.machine.cpu.machine
      (secondWaits.machine.origin true) := htrans.resolve_left (by decide)
  rw [horigin] at hres
  exact ⟨hstep.current, hres⟩

/-- Another thread than the idle one ever gets the processor exactly when one has been set ready
before the first call of `schedule`: a tick that comes earlier, also inside the first creation, puts
the idle thread at the front of the ready queue, where it stays. -/
theorem others_run_iff [DecidableEq τ] (L : StackLayout τ) (code : CodeAddresses)
    (link : IrqLinkage) (wrappers : IrqWrappers) (arith : BitVec 32 → BitVec 32 → BitVec 32)
    (s s₁ : MachineKernel τ) (hs : MachineBooted s)
    (p q : List (MachineEvent τ × MachineKernel τ)) (hfirst : .call .schedule ∉ p.map Prod.fst)
    (hp : Path (MachineStep L code link wrappers arith) s (p ++ (.call .schedule, s₁) :: q)) :
    (∃ x ∈ p ++ (.call .schedule, s₁) :: q, x.2.machine.running ≠ s.machine.running) ↔
      .call .setReady ∈ p.map Prod.fst := by
  obtain ⟨hbefore, hafter⟩ := path_append.mp hp
  obtain ⟨hearly, hrun, hall⟩ := early_before hs.early rfl hbefore hfirst
  rw [false_or] at hearly
  cases hafter with
  | cons step rest =>
    have hsteady : OpenSteady s₁.kernel s₁.machine.running := by
      refine OpenSteady.machineStep ?_ step
      rw [hrun]
      exact hearly.steady
    obtain ⟨hfront, hother⟩ : (.call .setReady ∉ p.map Prod.fst →
        AtFront s₁.kernel.toKernel s.machine.running) ∧ (.call .setReady ∈ p.map Prod.fst →
          ∃ t ≠ s.machine.running, s₁.kernel.sys.gCurrentThread = some t) := by
      rcases step.kernel with ⟨e', he, -⟩ | ⟨e', he, hkernel⟩
      · cases he
      · cases he
        exact hearly.schedule hkernel
    constructor
    · rintro ⟨x, hx, hne⟩
      by_contra hnot
      obtain ⟨hrun₁, hforever⟩ := atFront_forever hsteady (hfront hnot) rest
      rcases List.mem_append.mp hx with hx | hx
      · exact hne (hall x hx)
      rcases List.mem_cons.mp hx with rfl | hx
      · exact hne hrun₁
      · exact hne (hforever x hx)
    · intro hready
      obtain ⟨t, ht, hcurrent⟩ := hother hready
      refine ⟨(.call .schedule, s₁), List.mem_append_right _ List.mem_cons_self, ?_⟩
      have hrunning := Option.some.inj (hsteady.steady.current.symm.trans hcurrent)
      change s₁.machine.running ≠ _
      rwa [hrunning]

theorem others_run_second :
    ∃ x ∈ [(MachineEvent.call (.insert none 0x100400 (some true) 0x20000), secondCreated),
        (.call .setReady, secondWaits), (.call .schedule, secondRuns)],
      x.2.machine.running ≠ false := by
  have hfirst : MachineEvent.call OpenEvent.schedule ∉
      [(MachineEvent.call (OpenEvent.insert none 0x100400 (some true) 0x20000), secondCreated),
        (.call .setReady, secondWaits)].map Prod.fst := by simp
  exact (others_run_iff StackLayout.twoStacks StackLayout.codeAt StackLayout.linkageAt wrappersAt
    (fun flags _ => flags) bootedOnMachine secondRuns bootedOnMachine_booted
    [(_, secondCreated), (_, secondWaits)] [] hfirst secondThread_path).mpr (by simp)

end Einherjar.Threading
