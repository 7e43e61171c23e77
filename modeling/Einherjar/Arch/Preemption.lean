import Einherjar.Arch.ContextSwitch
import Einherjar.Arch.IrqStubs

/-! Kernel threads under interrupts: a thread is interrupted, its handler may pass the processor
on, other threads are interrupted in turn, and each interrupted thread goes on as it was. -/
namespace Einherjar.Arch
open Einherjar.Lib

variable {τ : Type*}

/-- `threads` are the threads that exist, and `pending t` the interrupts of a thread whose handlers
have not returned, the innermost first: each as the machine that it has broken off. -/
structure PreemptiveState (τ : Type*) where
  cpu : Processor
  threads : List τ
  running : τ
  origin : τ → Origin
  pending : τ → List Machine

namespace PreemptiveState

variable [DecidableEq τ]

/-- Another thread has been set up. -/
def create (s : PreemptiveState τ) (cpu : Processor) (thr : τ) (startFunc startArg : BitVec 32) :
    PreemptiveState τ :=
  { s with
    cpu := cpu
    threads := s.threads ++ [thr]
    origin := Function.update s.origin thr (.created startFunc startArg)
    pending := Function.update s.pending thr [] }

/-- The running thread has called `cpu_context_switch`, and another one has been resumed. -/
def transfer (s : PreemptiveState τ) (machine : Machine) (target : τ) (callerIp : BitVec 32) :
    PreemptiveState τ :=
  { s with
    cpu := { s.cpu with machine := machine }
    running := target
    origin := Function.update s.origin s.running (.suspended s.cpu.machine callerIp) }

end PreemptiveState

inductive PreemptiveEvent (τ : Type*) where
  | run
  | create (thr : τ) (startFunc startArg : BitVec 32)
  | transfer (target : τ) (callerIp : BitVec 32)
  | interrupt (line : Fin x86IrqNum)
  | handlerReturn

namespace StackLayout

variable (L : StackLayout τ)

/-- How far an address lies above the base of the thread's stack. -/
def height (t : τ) (a : BitVec 32) : ℕ := (a - L.stackBase t).toNat

/-- The stack pointer is on the stack, with the given number of bytes below it. -/
structure Room (t : τ) (sp : BitVec 32) (n : ℕ) : Prop where
  below : n ≤ L.height t sp
  top : L.height t sp ≤ (L.stackSize t).toNat

section Semantics

variable (code : CodeAddresses) (link : IrqLinkage) (wrappers : IrqWrappers)
  (arith : BitVec 32 → BitVec 32 → BitVec 32) [DecidableEq τ]

/-- The running thread, or a handler that has interrupted it, leaves alone what belongs to the other
threads and what the wrappers of the thread have saved. As long as a handler runs the stack pointer
stays below its argument. -/
structure Decent (s : PreemptiveState τ) (cpu : Processor) : Prop where
  frame : ∀ t ∈ s.threads, t ≠ s.running → ∀ a, L.Owns t a →
    cpu.machine.mem a = s.cpu.machine.mem a
  saved : ∀ i ∈ s.pending s.running, ∀ k < 56,
    cpu.machine.mem (i.esp - 56 + BitVec.ofNat 32 k) =
      s.cpu.machine.mem (i.esp - 56 + BitVec.ofNat 32 k)
  below : ∀ i ∈ (s.pending s.running).head?,
    L.height s.running cpu.machine.esp ≤ L.height s.running (i.esp - 60)

/-- A thread runs, and may set up another thread. Or it calls `cpu_context_switch`, or an interrupt
comes, or the innermost handler returns into its wrapper. -/
inductive PreemptiveStep : PreemptiveState τ → PreemptiveEvent τ → PreemptiveState τ → Prop
  | run (s : PreemptiveState τ) (cpu : Processor) (hcpu : L.Decent s cpu) :
      PreemptiveStep s .run { s with cpu := cpu }
  | create (s : PreemptiveState τ) (thr : τ) (startFunc startArg : BitVec 32) (cpu : Processor)
      (fresh : thr ∉ s.threads) (hcpu : L.Decent s cpu)
      (prepared : L.Prepared code arith cpu.machine.mem thr (.created startFunc startArg)) :
      PreemptiveStep s (.create thr startFunc startArg)
        (s.create cpu thr startFunc startArg)
  | transfer (s : PreemptiveState τ) (target : τ) (callerIp : BitVec 32)
      (hmem : target ∈ s.threads) (htarget : target ≠ s.running)
      (hcall : L.Calling s.running s.cpu.machine)
      (destination : s.cpu.machine.mem.load32 (s.cpu.machine.esp + 4) =
        s.cpu.machine.mem.load32 (L.cpuState target)) :
      PreemptiveStep s (.transfer target callerIp)
        (s.transfer (cpuContextSwitch code arith (s.cpu.machine.push32 callerIp)) target callerIp)
  | interrupt (s : PreemptiveState τ) (line : Fin x86IrqNum) (gate : IdtEntry)
      (hif : s.cpu.machine.interruptible = true) (hgate : gate.LeadsTo (wrappers.address line))
      (room : L.Room s.running s.cpu.machine.esp 64) :
      PreemptiveStep s (.interrupt line)
        { s with
          cpu := execStub arith { s.cpu with machine := s.cpu.machine.enterGate gate }
            (x86IrqWrapperEntry link line)
          pending := Function.update s.pending s.running
            (s.cpu.machine :: s.pending s.running) }
  | handlerReturn (s : PreemptiveState τ) (i : Machine) (is : List Machine)
      (hpending : s.pending s.running = i :: is) (hesp : s.cpu.machine.esp = i.esp - 60) :
      PreemptiveStep s .handlerReturn
        { s with
          cpu := { s.cpu with machine := execBlock arith s.cpu.machine x86IrqWrapperExit }
          pending := Function.update s.pending s.running is }

/-- What a step promises: a handler is called as the wrapper of its line says, its return brings
back the processor state that the interrupt has found, and a thread that is transferred to
resumes as it was set up or suspended. -/
def Transparent (s : PreemptiveState τ) (e : PreemptiveEvent τ) (s' : PreemptiveState τ) : Prop :=
  match e with
  | .run | .create .. => True
  | .transfer target _ => Resumes code s'.cpu.machine (s.origin target)
  | .interrupt line => HandlerCalled link line s.cpu s'.cpu
  | .handlerReturn => ∀ i ∈ (s.pending s.running).head?, SameProcessor i s'.cpu.machine

end Semantics

/-- The interrupts of a thread lie on its stack one above the other, above the stack pointer. -/
def Nested (mem : Memory 32) (t : τ) : BitVec 32 → List Machine → Prop
  | _, [] => True
  | sp, i :: is => L.height t sp ≤ L.height t (i.esp - 60) ∧ L.Room t i.esp 64 ∧
      (∃ padding, mem.Holds (i.esp - 56) (interruptedState i padding).bytes) ∧
      Nested mem t i.esp is

section Heights

variable {L} {t : τ} {sp a : BitVec 32}

theorem Room.height_sub (h : L.Room t sp 64) {n : ℕ} (hn : n ≤ 64) :
    L.height t (sp - BitVec.ofNat 32 n) = L.height t sp - n := by
  obtain ⟨hbelow, -⟩ := h
  unfold height at *
  bv_omega

theorem Room.height_frame (h : L.Room t sp 64) {n k : ℕ} (hn : n ≤ 64) (hk : k < n) :
    L.height t (sp - BitVec.ofNat 32 n + BitVec.ofNat 32 k) = L.height t sp - n + k := by
  obtain ⟨hbelow, -⟩ := h
  unfold height at *
  bv_omega

theorem Room.onStack (h : L.Room t sp 64) {n k : ℕ} (hn : n ≤ 64) (hk : k < n) :
    L.OnStack t (sp - BitVec.ofNat 32 n + BitVec.ofNat 32 k) := by
  have hheight : L.height t (sp - BitVec.ofNat 32 n + BitVec.ofNat 32 k) = L.height t sp - n + k :=
    h.height_frame hn hk
  have hbelow := h.below
  have htop := h.top
  change L.height t _ < _
  omega

theorem Nested.head {mem : Memory 32} {is : List Machine} (h : L.Nested mem t sp is) :
    ∀ i ∈ is.head?, L.height t sp ≤ L.height t (i.esp - 60) := by
  intro i hi
  cases is with
  | nil => cases hi
  | cons j is =>
    cases hi
    exact h.1

/-- The interrupts survive what leaves the saved bytes alone. -/
theorem Nested.congr {mem mem' : Memory 32} {sp' : BitVec 32} {is : List Machine}
    (h : L.Nested mem t sp is)
    (hmem : ∀ i ∈ is, ∀ k < 56, mem' (i.esp - 56 + BitVec.ofNat 32 k) =
      mem (i.esp - 56 + BitVec.ofNat 32 k))
    (hsp : ∀ i ∈ is.head?, L.height t sp' ≤ L.height t (i.esp - 60)) : L.Nested mem' t sp' is := by
  induction is generalizing sp sp' with
  | nil => trivial
  | cons i is ih =>
    obtain ⟨-, hroom, ⟨padding, hholds⟩, hrest⟩ := h
    refine ⟨hsp i rfl, hroom, ⟨padding, hholds.congr ?_⟩, ?_⟩
    · exact hmem i List.mem_cons_self
    · exact ih hrest (fun j hj => hmem j (List.mem_cons_of_mem _ hj)) hrest.head

/-- What the wrappers of a thread have saved lies on its stack, above the stack pointer. -/
theorem Nested.above {mem : Memory 32} {is : List Machine} (h : L.Nested mem t sp is) :
    ∀ i ∈ is, ∀ k < 56, L.OnStack t (i.esp - 56 + BitVec.ofNat 32 k) ∧
      L.height t sp < L.height t (i.esp - 56 + BitVec.ofNat 32 k) := by
  induction is generalizing sp with
  | nil => simp
  | cons i is ih =>
    obtain ⟨hsp, hroom, -, hrest⟩ := h
    have h60 : L.height t (i.esp - 60) = L.height t i.esp - 60 :=
      hroom.height_sub (n := 60) (by omega)
    have hbelow := hroom.below
    intro j hj k hk
    rcases List.mem_cons.mp hj with rfl | hj
    · have h56 : L.height t (j.esp - 56 + BitVec.ofNat 32 k) = L.height t j.esp - 56 + k :=
        hroom.height_frame (n := 56) (by omega) hk
      refine ⟨hroom.onStack (n := 56) (by omega) hk, ?_⟩
      omega
    · obtain ⟨hon, hlt⟩ := ih hrest j hj k hk
      exact ⟨hon, by omega⟩

end Heights

section Steps

variable {L} {code : CodeAddresses} {link : IrqLinkage} {wrappers : IrqWrappers}
  {arith : BitVec 32 → BitVec 32 → BitVec 32}

/-- On a stack of less than 2 GiB the room of a call lies below the stack pointer. -/
theorem Calling.height_ge {t : τ} {m : Machine} (h : L.Calling t m)
    (hsmall : (L.stackSize t).toNat < 2 ^ 31) : 60 ≤ L.height t m.esp := by
  have h0 := h.room 0 (by omega)
  have h60 := h.room 60 (by omega)
  unfold OnStack InRegion at h0 h60
  unfold height
  bv_omega

/-- A call of `cpu_context_switch` writes below the stack pointer and to its caller's `cpu_state`
field. -/
theorem Calling.untouched {t : τ} {m : Machine} (h : L.Calling t m) (callerIp : BitVec 32)
    {a : BitVec 32} (hslot : ¬ InSlot (L.cpuState t) a)
    (ha : ∀ i < 60, a ≠ m.esp - 60 + BitVec.ofNat 32 i) :
    (exchanged code arith m callerIp).mem a = m.mem a := by
  obtain ⟨padding, hp⟩ : ∃ padding,
      Pushed m (execBlock arith (m.push32 callerIp) (saveContext code))
        ((savedState code m padding).bytes ++ Memory.bytes32 callerIp) := saved_pushed callerIp m
  have hlen : ((savedState code m padding).bytes ++ Memory.bytes32 callerIp).length = 60 := by simp
  obtain ⟨hesp, -, hmem, -, -⟩ := hp
  rw [hlen] at hmem hesp
  rw [exchanged_eq]
  generalize execBlock arith (m.push32 callerIp) (saveContext code) = m₁ at hesp hmem
  have h60 : m₁.esp + 60 = m.esp := by rw [hesp]; bv_omega
  have hsource : m₁.mem.load32 (m₁.esp + 60) + 0 = L.cpuState t := by
    rw [h60, ← h.source]
    apply (BitVec.add_zero _).trans
    apply load32_congr
    rintro c ⟨j, hj, rfl⟩
    apply hmem
    intro i hi
    rw [hesp]
    bv_omega
  rw [exchangeStacks_mem, hsource]
  have hstore : m₁.mem.store32 (L.cpuState t) m₁.esp a = m₁.mem a :=
    m₁.mem.storeBytes_of_ne fun j hj he => hslot ⟨j, hj, he⟩
  rw [hstore]
  apply hmem
  intro i hi
  rw [hesp]
  exact ha i hi

/-- The caller's interrupts survive its call of `cpu_context_switch`. -/
theorem Nested.exchanged {t : τ} {m : Machine} {is : List Machine}
    (h : L.Nested m.mem t m.esp is) (hcall : L.Calling t m)
    (hsmall : (L.stackSize t).toNat < 2 ^ 31) (callerIp : BitVec 32) :
    L.Nested (exchanged code arith m callerIp).mem t m.esp is := by
  have h60 : 60 ≤ L.height t m.esp := hcall.height_ge hsmall
  refine h.congr (fun i hi k hk => ?_) h.head
  obtain ⟨hon, hlt⟩ := h.above i hi k hk
  apply hcall.untouched callerIp
  · exact fun hslot => L.cpuState_outside hslot hon
  · rintro j hj he
    rw [he] at hlt
    unfold height at *
    bv_omega

/-- The interrupts of a thread survive what leaves its stack alone. -/
theorem Nested.frame {mem mem' : Memory 32} {t : τ} {sp : BitVec 32} {is : List Machine}
    (h : L.Nested mem t sp is) (hmem : ∀ a, L.OnStack t a → mem' a = mem a) :
    L.Nested mem' t sp is :=
  h.congr (fun i hi k hk => hmem _ (h.above i hi k hk).1) h.head

/-- The threads that are not running wait for their turn, and the interrupts of every thread lie
on its stack. A thread that has not run yet has none. -/
structure Interleaved (L : StackLayout τ) (code : CodeAddresses) (s : PreemptiveState τ) :
    Prop where
  exists_running : s.running ∈ s.threads
  waiting : ∀ t ∈ s.threads, t ≠ s.running → L.Waiting code s.cpu.machine.mem t (s.origin t)
  running : L.Nested s.cpu.machine.mem s.running s.cpu.machine.esp (s.pending s.running)
  suspended : ∀ t ∈ s.threads, t ≠ s.running → ∀ call callerIp,
    s.origin t = .suspended call callerIp → L.Nested s.cpu.machine.mem t call.esp (s.pending t)
  created : ∀ t ∈ s.threads, t ≠ s.running → ∀ startFunc startArg,
    s.origin t = .created startFunc startArg → s.pending t = []

/-- A step of the running thread that leaves the memory of the others alone. -/
theorem Interleaved.keep {s s' : PreemptiveState τ} (h : Interleaved L code s)
    (hthreads : s'.threads = s.threads) (hrun : s'.running = s.running)
    (horigin : s'.origin = s.origin) (hpending : ∀ t ≠ s.running, s'.pending t = s.pending t)
    (frame : ∀ t ∈ s.threads, t ≠ s.running → ∀ a, L.Owns t a →
      s'.cpu.machine.mem a = s.cpu.machine.mem a)
    (hnested : L.Nested s'.cpu.machine.mem s.running s'.cpu.machine.esp (s'.pending s.running)) :
    Interleaved L code s' := by
  constructor
  case exists_running =>
    rw [hthreads, hrun]
    exact h.exists_running
  case waiting =>
    rw [hthreads, hrun, horigin]
    exact fun t hmem ht => (h.waiting t hmem ht).congr (frame t hmem ht)
  case running =>
    rw [hrun]
    exact hnested
  case suspended =>
    rw [hthreads, hrun, horigin]
    intro t hmem ht call callerIp ho
    rw [hpending t ht]
    exact (h.suspended t hmem ht call callerIp ho).frame fun a ha => frame t hmem ht a (.inl ha)
  case created =>
    rw [hthreads, hrun, horigin]
    intro t hmem ht startFunc startArg ho
    rw [hpending t ht]
    exact h.created t hmem ht startFunc startArg ho

/-- What the wrapper of a line pushes lies on the stack of the interrupted thread. -/
theorem Room.stacked_outside {t : τ} {m m' : Machine} {bs : List (BitVec 8)}
    (h : L.Room t m.esp 64) (hs : Stacked m m' bs) (hlen : bs.length = 64) {a : BitVec 32}
    (ha : ¬ L.OnStack t a ∨ L.height t m.esp ≤ L.height t a) : m'.mem a = m.mem a := by
  apply hs.mem
  rintro i hi rfl
  rw [hs.esp, hlen] at ha
  rw [hlen] at hi
  have hon : L.OnStack t (m.esp - BitVec.ofNat 32 64 + BitVec.ofNat 32 i) :=
    h.onStack (Nat.le_refl _) hi
  have hheight : L.height t (m.esp - BitVec.ofNat 32 64 + BitVec.ofNat 32 i) =
      L.height t m.esp - 64 + i := h.height_frame (Nat.le_refl _) hi
  have hbelow := h.below
  rcases ha with ha | ha
  · exact ha hon
  · omega

/-- An interrupt adds itself to those of the running thread. -/
theorem Nested.interrupt {t : τ} {p p' : Processor} {line : Fin x86IrqNum} {is : List Machine}
    (h : L.Nested p.machine.mem t p.machine.esp is) (room : L.Room t p.machine.esp 64)
    (hcalled : HandlerCalled link line p p') :
    L.Nested p'.machine.mem t p'.machine.esp (p.machine :: is) ∧
      ∀ a, ¬ L.OnStack t a → p'.machine.mem a = p.machine.mem a := by
  obtain ⟨padding, hs⟩ := hcalled.frame
  have hout : ∀ a, (¬ L.OnStack t a ∨ L.height t p.machine.esp ≤ L.height t a) →
      p'.machine.mem a = p.machine.mem a := fun a => room.stacked_outside hs (by simp)
  have hesp : p'.machine.esp = p.machine.esp - 64 := hs.esp
  have hsp : L.height t (p.machine.esp - 64) = L.height t p.machine.esp - 64 :=
    room.height_sub (n := 64) (Nat.le_refl _)
  have h60 : L.height t (p.machine.esp - 60) = L.height t p.machine.esp - 60 :=
    room.height_sub (n := 60) (by omega)
  refine ⟨⟨?_, room, ⟨padding, ?_⟩, ?_⟩, fun a ha => hout a (.inl ha)⟩
  · rw [hesp]
    omega
  · have hframe := (Memory.holds_append.mp (Memory.holds_append.mp hs.holds).2).2
    have haddr : p'.machine.esp + BitVec.ofNat 32 (Memory.bytes32 (link.afterCall line)).length +
        BitVec.ofNat 32 (Memory.bytes32 (BitVec.ofNat 32 line.val)).length =
          p.machine.esp - 56 := by
      rw [hesp, Memory.bytes32_length, Memory.bytes32_length]
      bv_omega
    rw [haddr] at hframe
    exact hframe
  · refine h.congr (fun i hi k hk => hout _ (.inr ?_)) h.head
    exact (h.above i hi k hk).2.le

theorem resumes_esp {m call : Machine} {callerIp : BitVec 32}
    (h : Resumes code m (.suspended call callerIp)) : m.esp = call.esp := by
  obtain ⟨hreg, -⟩ := h
  exact hreg .esp

/-- The other thread resumes from what waits on its stack. The restoring half of a transfer does not
write to memory. -/
theorem Waiting.transfer {m : Machine} {t target : τ} {o : Origin} (callerIp : BitVec 32)
    (h : L.Waiting code m.mem target o) (htarget : target ≠ t) (hcall : L.Calling t m)
    (hdest : m.mem.load32 (m.esp + 4) = m.mem.load32 (L.cpuState target)) :
    Resumes code (cpuContextSwitch code arith (m.push32 callerIp)) o ∧
      (cpuContextSwitch code arith (m.push32 callerIp)).mem =
        (exchanged code arith m callerIp).mem := by
  obtain ⟨-, hesp, hout⟩ :
      L.Waiting code (exchanged code arith m callerIp).mem t (.suspended m callerIp) ∧
        (exchanged code arith m callerIp).esp = m.mem.load32 (m.esp + 4) ∧
        ∀ a, ¬ L.Owns t a → (exchanged code arith m callerIp).mem a = m.mem a :=
    hcall.waiting callerIp
  have hwaiting : L.Waiting code (exchanged code arith m callerIp).mem target o :=
    h.congr fun a ha => hout a (not_owns htarget ha)
  apply hwaiting.resumes callerIp
  rw [hesp, hdest]
  symm
  exact load32_congr fun c hc => hout c (not_owns htarget (.inr hc))

variable [DecidableEq τ]

/-- The caller waits with its interrupts, and the other thread has resumed with its own. -/
theorem Interleaved.transferred {s : PreemptiveState τ} (h : Interleaved L code s) {m : Machine}
    {target : τ} {callerIp : BitVec 32} (hmem : target ∈ s.threads) (htarget : target ≠ s.running)
    (hres : Resumes code m (s.origin target))
    (hfrom : L.Waiting code m.mem s.running (.suspended s.cpu.machine callerIp))
    (hout : ∀ a, ¬ L.Owns s.running a → m.mem a = s.cpu.machine.mem a)
    (hcaller : L.Nested m.mem s.running s.cpu.machine.esp (s.pending s.running)) :
    Interleaved L code (s.transfer m target callerIp) := by
  have hframe : ∀ t ≠ s.running, ∀ a, L.Owns t a → m.mem a = s.cpu.machine.mem a :=
    fun t ht a ha => hout a (not_owns ht ha)
  constructor
  case exists_running => exact hmem
  case waiting =>
    intro t hts htt
    change L.Waiting code m.mem t
      (Function.update s.origin s.running (.suspended s.cpu.machine callerIp) t)
    by_cases htr : t = s.running
    · subst htr
      rw [Function.update_self]
      exact hfrom
    · rw [Function.update_of_ne htr]
      exact (h.waiting t hts htr).congr (hframe t htr)
  case running =>
    -- the thread that resumes has its interrupts where its own call has left them
    change L.Nested m.mem target m.esp (s.pending target)
    cases ho : s.origin target with
    | created startFunc startArg =>
      rw [h.created target hmem htarget startFunc startArg ho]
      trivial
    | suspended call ip =>
      rw [ho] at hres
      have hesp : m.esp = call.esp := resumes_esp hres
      rw [hesp]
      exact (h.suspended target hmem htarget call ip ho).frame
        fun a ha => hframe target htarget a (.inl ha)
  case suspended =>
    intro t hts ht call ip ho
    change Function.update s.origin s.running (.suspended s.cpu.machine callerIp) t =
      .suspended call ip at ho
    change L.Nested m.mem t call.esp (s.pending t)
    by_cases htr : t = s.running
    · subst htr
      rw [Function.update_self] at ho
      cases ho
      exact hcaller
    · rw [Function.update_of_ne htr] at ho
      exact (h.suspended t hts htr call ip ho).frame fun a ha => hframe t htr a (.inl ha)
  case created =>
    intro t hts ht startFunc startArg ho
    change Function.update s.origin s.running (.suspended s.cpu.machine callerIp) t =
      .created startFunc startArg at ho
    by_cases htr : t = s.running
    · subst htr
      rw [Function.update_self] at ho
      cases ho
    · rw [Function.update_of_ne htr] at ho
      exact h.created t hts htr startFunc startArg ho

/-- A transfer by `cpu_context_switch`. -/
theorem Interleaved.transfer {s : PreemptiveState τ} (h : Interleaved L code s)
    (hsmall : ∀ t, (L.stackSize t).toNat < 2 ^ 31) {target : τ} {callerIp : BitVec 32}
    (hmem : target ∈ s.threads) (htarget : target ≠ s.running)
    (hcall : L.Calling s.running s.cpu.machine)
    (hdest : s.cpu.machine.mem.load32 (s.cpu.machine.esp + 4) =
      s.cpu.machine.mem.load32 (L.cpuState target)) :
    Resumes code (cpuContextSwitch code arith (s.cpu.machine.push32 callerIp)) (s.origin target) ∧
      Interleaved L code (s.transfer
        (cpuContextSwitch code arith (s.cpu.machine.push32 callerIp)) target callerIp) := by
  obtain ⟨hres, hwritten⟩ :
      Resumes code (cpuContextSwitch code arith (s.cpu.machine.push32 callerIp))
          (s.origin target) ∧
        (cpuContextSwitch code arith (s.cpu.machine.push32 callerIp)).mem =
          (exchanged code arith s.cpu.machine callerIp).mem :=
    (h.waiting target hmem htarget).transfer callerIp htarget hcall hdest
  obtain ⟨hfrom, -, hout⟩ :
      L.Waiting code (exchanged code arith s.cpu.machine callerIp).mem s.running
          (.suspended s.cpu.machine callerIp) ∧
        (exchanged code arith s.cpu.machine callerIp).esp =
          s.cpu.machine.mem.load32 (s.cpu.machine.esp + 4) ∧
        ∀ a, ¬ L.Owns s.running a →
          (exchanged code arith s.cpu.machine callerIp).mem a = s.cpu.machine.mem a :=
    hcall.waiting callerIp
  have hcaller : L.Nested (exchanged code arith s.cpu.machine callerIp).mem s.running
      s.cpu.machine.esp (s.pending s.running) := h.running.exchanged hcall (hsmall _) callerIp
  rw [← hwritten] at hfrom hout hcaller
  exact ⟨hres, h.transferred hmem htarget hres hfrom hout hcaller⟩

/-- A thread that has been set up waits with the others. -/
theorem Interleaved.create {s : PreemptiveState τ} (h : Interleaved L code s) {thr : τ}
    {startFunc startArg : BitVec 32} {cpu : Processor} (fresh : thr ∉ s.threads)
    (hcpu : L.Decent s cpu)
    (prepared : L.Prepared code arith cpu.machine.mem thr (.created startFunc startArg)) :
    Interleaved L code (s.create cpu thr startFunc startArg) := by
  have hrun : s.running ≠ thr := fun he => fresh (he ▸ h.exists_running)
  have hold : ∀ t ∈ s.threads ++ [thr], t ≠ thr → t ∈ s.threads := by
    intro t ht hne
    exact (List.mem_append.mp ht).resolve_right fun h => hne (List.mem_singleton.mp h)
  constructor
  case exists_running => exact List.mem_append_left _ h.exists_running
  case waiting =>
    intro t hts ht
    change L.Waiting code cpu.machine.mem t
      (Function.update s.origin thr (.created startFunc startArg) t)
    by_cases htt : t = thr
    · subst htt
      rw [Function.update_self]
      exact prepared.waiting
    · rw [Function.update_of_ne htt]
      exact (h.waiting t (hold t hts htt) ht).congr (hcpu.frame t (hold t hts htt) ht)
  case running =>
    change L.Nested cpu.machine.mem s.running cpu.machine.esp
      (Function.update s.pending thr [] s.running)
    rw [Function.update_of_ne hrun]
    exact h.running.congr hcpu.saved hcpu.below
  case suspended =>
    intro t hts ht call ip ho
    change Function.update s.origin thr (.created startFunc startArg) t = .suspended call ip at ho
    change L.Nested cpu.machine.mem t call.esp (Function.update s.pending thr [] t)
    by_cases htt : t = thr
    · subst htt
      rw [Function.update_self] at ho
      cases ho
    · rw [Function.update_of_ne htt] at ho ⊢
      exact (h.suspended t (hold t hts htt) ht call ip ho).frame
        fun a ha => hcpu.frame t (hold t hts htt) ht a (.inl ha)
  case created =>
    intro t hts ht func arg ho
    change Function.update s.origin thr (.created startFunc startArg) t = .created func arg at ho
    change Function.update s.pending thr [] t = []
    by_cases htt : t = thr
    · subst htt
      exact Function.update_self ..
    · rw [Function.update_of_ne htt] at ho ⊢
      exact h.created t (hold t hts htt) ht func arg ho

/-- One step of the threads and their interrupts. -/
theorem Interleaved.step {s s' : PreemptiveState τ} {e : PreemptiveEvent τ}
    (h : Interleaved L code s) (hsmall : ∀ t, (L.stackSize t).toNat < 2 ^ 31)
    (htable : ∀ line, ∀ j < 4, ∀ t, ¬ L.OnStack t (link.slot line + BitVec.ofNat 32 j))
    (harith : KeepsIf arith) (hstep : L.PreemptiveStep code link wrappers arith s e s') :
    Interleaved L code s' ∧ Transparent code link s e s' := by
  cases hstep with
  | run cpu hcpu =>
    have hnested := h.running.congr hcpu.saved hcpu.below
    exact ⟨h.keep rfl rfl rfl (fun _ _ => rfl) hcpu.frame hnested, trivial⟩
  | create thr startFunc startArg cpu fresh hcpu prepared =>
    exact ⟨h.create fresh hcpu prepared, trivial⟩
  | transfer target callerIp hmem htarget hcall hdest =>
    exact (h.transfer hsmall hmem htarget hcall hdest).symm
  | interrupt line gate hif hgate room =>
    have hcalled : HandlerCalled link line s.cpu
        (execStub arith { s.cpu with machine := s.cpu.machine.enterGate gate }
          (x86IrqWrapperEntry link line)) := by
      apply wrapperEntry_called arith link line s.cpu gate harith
      rintro j hj i hi he
      apply htable line j hj s.running
      rw [he]
      exact room.onStack (n := 60) (by omega) hi
    generalize execStub arith { s.cpu with machine := s.cpu.machine.enterGate gate }
      (x86IrqWrapperEntry link line) = p at hcalled ⊢
    obtain ⟨hnested, hout⟩ := h.running.interrupt room hcalled
    refine ⟨h.keep rfl rfl rfl ?_ ?_ ?_, hcalled⟩
    · exact fun t ht => Function.update_of_ne ht ..
    · exact fun t _ ht a ha => hout a fun hon => not_owns ht ha (.inl hon)
    · change L.Nested p.machine.mem s.running p.machine.esp
        (Function.update s.pending s.running _ s.running)
      rw [Function.update_self]
      exact hnested
  | handlerReturn i is hpending hesp =>
    have hrunning := h.running
    rw [hpending] at hrunning
    obtain ⟨-, -, hframe, hrest⟩ := hrunning
    obtain ⟨hsame, hmem⟩ := wrapperExit_resumes arith (HandlerReturned.mk hesp hframe)
    generalize execBlock arith s.cpu.machine x86IrqWrapperExit = m at hsame hmem ⊢
    refine ⟨h.keep rfl rfl rfl ?_ ?_ ?_, ?_⟩
    · exact fun t ht => Function.update_of_ne ht ..
    · exact fun t _ ht a ha => congrFun hmem a
    · change L.Nested m.mem s.running m.esp (Function.update s.pending s.running is s.running)
      have hback : m.esp = i.esp := hsame.reg .esp
      rw [Function.update_self, hmem, hback]
      exact hrest
    · rw [Transparent, hpending]
      intro j hj
      cases hj
      exact hsame

omit [DecidableEq τ] in
/-- Before the first interrupt the other threads wait for their turn. -/
theorem interleaved_of_prepared {s : PreemptiveState τ} (hrunning : s.running ∈ s.threads)
    (hs : ∀ t ∈ s.threads, t ≠ s.running → L.Prepared code arith s.cpu.machine.mem t (s.origin t))
    (hpending : ∀ t ∈ s.threads, s.pending t = []) : Interleaved L code s := by
  constructor
  case exists_running => exact hrunning
  case waiting => exact fun t hmem ht => (hs t hmem ht).waiting
  case running =>
    rw [hpending _ hrunning]
    trivial
  case suspended =>
    intro t hmem ht call callerIp ho
    rw [hpending t hmem]
    trivial
  case created => exact fun t hmem _ _ _ _ => hpending t hmem

end Steps

/-- Along every interleaving of threads, their creation, transfers of the processor and nested
interrupts, each handler is called by its line with interrupts disabled, each interrupted thread
goes on with the processor state that the interrupt has found, and each thread that is transferred
to resumes as it was set up or suspended. -/
theorem preemption_transparent [DecidableEq τ] (L : StackLayout τ) (code : CodeAddresses)
    (link : IrqLinkage) (wrappers : IrqWrappers) (arith : BitVec 32 → BitVec 32 → BitVec 32)
    (hsmall : ∀ t, (L.stackSize t).toNat < 2 ^ 31)
    (htable : ∀ line, ∀ j < 4, ∀ t, ¬ L.OnStack t (link.slot line + BitVec.ofNat 32 j))
    (harith : KeepsIf arith) (s : PreemptiveState τ) (hrunning : s.running ∈ s.threads)
    (hs : ∀ t ∈ s.threads, t ≠ s.running → L.Prepared code arith s.cpu.machine.mem t (s.origin t))
    (hpending : ∀ t ∈ s.threads, s.pending t = [])
    (p : List (PreemptiveEvent τ × PreemptiveState τ))
    (hp : Path (L.PreemptiveStep code link wrappers arith) s p) :
    Along (Transparent code link) s p := by
  refine hp.along (fun s a t h hstep => ?_) (fun s a t h hstep => ?_)
    (interleaved_of_prepared hrunning hs hpending)
  · exact (h.step hsmall htable harith hstep).1
  · exact (h.step hsmall htable harith hstep).2

section Keystroke

/-- `IRQ_KEYBOARD` -/
def irqKeyboard : Fin x86IrqNum := ⟨1, by decide⟩

def linkageAt : IrqLinkage := ⟨0x8000, fun _ => 0x100700⟩

theorem linkageAt_outside : ∀ line, ∀ j < 4, ∀ t,
    ¬ twoStacks.OnStack t (linkageAt.slot line + BitVec.ofNat 32 j) := by
  intro line j hj t hon
  have hline : line.val < 16 := line.isLt
  change (0x8000#32 + 4 * BitVec.ofNat 32 line.val + BitVec.ofNat 32 j -
    (if t then 0x20000#32 else 0x10000#32)).toNat < 0x1000 at hon
  cases t with
  | false =>
    rw [if_neg Bool.false_ne_true] at hon
    bv_omega
  | true =>
    rw [if_pos rfl] at hon
    bv_omega

def keyboardGate : IdtEntry :=
  (clearedIdt (idtLine irqKeyboard)).setHandler (wrappersAt.address irqKeyboard)

/-- The first of the two threads, with interrupts enabled. -/
def beforeKeystroke : PreemptiveState Bool where
  cpu := ⟨beforeTransfer.machine, []⟩
  threads := [false, true]
  running := false
  origin := beforeTransfer.origin
  pending _ := []

/-- The processor in the handler of the keyboard. -/
def inKeyboardHandler : Processor :=
  execStub (fun flags _ => flags)
    { beforeKeystroke.cpu with machine := beforeKeystroke.cpu.machine.enterGate keyboardGate }
    (x86IrqWrapperEntry linkageAt irqKeyboard)

/-- The handler has returned at once. -/
def keyboardHandlerDone : Processor :=
  { inKeyboardHandler with
    machine := execBlock (fun flags _ => flags) inKeyboardHandler.machine [.ret] }

theorem preemption_transparent_keystroke :
    ∃ s₁ s₂ s₃, Path (twoStacks.PreemptiveStep codeAt linkageAt wrappersAt fun flags _ => flags)
        beforeKeystroke [(.interrupt irqKeyboard, s₁), (.run, s₂), (.handlerReturn, s₃)] ∧
      SameProcessor beforeTransfer.machine s₃.cpu.machine := by
  have hgate : keyboardGate.LeadsTo (wrappersAt.address irqKeyboard) :=
    setHandler_leadsTo _ (wrappersAt.address_ne irqKeyboard)
  have hroom : twoStacks.Room false beforeKeystroke.cpu.machine.esp 64 :=
    ⟨by decide +kernel, by decide +kernel⟩
  have hprep : ∀ t ∈ beforeKeystroke.threads, t ≠ beforeKeystroke.running →
      twoStacks.Prepared codeAt (fun flags _ => flags) beforeKeystroke.cpu.machine.mem t
        (beforeKeystroke.origin t) := by
    intro t _ ht
    obtain rfl : t = true := Bool.eq_true_of_not_eq_false ht
    exact ⟨by decide, _, fun _ _ => rfl⟩
  have hpath : Path (twoStacks.PreemptiveStep codeAt linkageAt wrappersAt fun flags _ => flags)
      beforeKeystroke [(.interrupt irqKeyboard, _), (.run, _), (.handlerReturn, _)] :=
    .cons (.interrupt beforeKeystroke irqKeyboard keyboardGate rfl hgate hroom)
      (.cons (.run _ keyboardHandlerDone
          ⟨fun _ _ _ _ _ => rfl, fun _ _ _ _ => rfl, by decide +kernel⟩)
        (.cons (.handlerReturn _ beforeTransfer.machine [] rfl (by decide +kernel)) (.nil _)))
  have halong := preemption_transparent twoStacks codeAt linkageAt wrappersAt
    (fun flags _ => flags) (by decide) linkageAt_outside (fun _ _ => rfl) beforeKeystroke
    (by decide) hprep (fun _ _ => rfl) _ hpath
  exact ⟨_, _, _, hpath, halong.2.2.1 _ rfl⟩

end Keystroke

end StackLayout

end Einherjar.Arch
