import Einherjar.Arch.ContextFrames
import Einherjar.Arch.Transfer

/-! The frame that waits on the stack of a thread which is not running: a call of
`cpu_context_switch` puts it there, and a later one resumes the thread from it. -/
namespace Einherjar.Arch
open Einherjar.Lib

variable {τ : Type*}

namespace Origin

/-- The bytes that wait on the stack: a context, and what `core_routine` or the caller of
`cpu_context_switch` finds above it. -/
def Frame (code : CodeAddresses) (bs : List (BitVec 8)) : Origin → Prop
  | .created startFunc startArg => bs = (initialState code).bytes ++
      (Memory.bytes32 0 ++ (Memory.bytes32 startFunc ++ Memory.bytes32 startArg))
  | .suspended call callerIp => ∃ padding,
      bs = (savedState code call padding).bytes ++ Memory.bytes32 callerIp

/-- The address of the context. -/
def pointer (stackBase stackSize : BitVec 32) : Origin → BitVec 32
  | .created _ _ => kstateAddress stackBase stackSize
  | .suspended call _ => call.esp - 60

end Origin

namespace StackLayout

variable (L : StackLayout τ) (code : CodeAddresses) (arith : BitVec 32 → BitVec 32 → BitVec 32)

/-- The context of a thread that is not running lies on its stack, and its `cpu_state` field
points there. -/
structure Waiting (mem : Memory 32) (t : τ) (o : Origin) : Prop where
  pointer : mem.load32 (L.cpuState t) = o.pointer (L.stackBase t) (L.stackSize t)
  frame : ∃ bs, o.Frame code bs ∧ mem.Holds (o.pointer (L.stackBase t) (L.stackSize t)) bs ∧
    ∀ i < bs.length, L.OnStack t (o.pointer (L.stackBase t) (L.stackSize t) + BitVec.ofNat 32 i)

variable {L code arith}

theorem load32_congr {mem mem' : Memory 32} {a : BitVec 32}
    (h : ∀ c, InSlot a c → mem' c = mem c) : mem'.load32 a = mem.load32 a :=
  Memory.load32_of_bytes fun i hi => h _ ⟨i, hi, rfl⟩

/-- A waiting thread is not disturbed by changes outside what it owns. -/
theorem Waiting.congr {mem mem' : Memory 32} {t : τ} {o : Origin} (h : L.Waiting code mem t o)
    (heq : ∀ a, L.Owns t a → mem' a = mem a) : L.Waiting code mem' t o := by
  obtain ⟨bs, hbs, hholds, hon⟩ := h.frame
  constructor
  · rw [load32_congr fun c hc => heq c (.inr hc)]
    exact h.pointer
  · exact ⟨bs, hbs, hholds.congr fun i hi => heq _ (.inl (hon i hi)), hon⟩

/-- `cpu_kstate_init` makes a thread wait. -/
theorem waiting_created {mem : Memory 32} {t : τ} (startFunc startArg : BitVec 32)
    (hsize : 68 ≤ (L.stackSize t).toNat) :
    L.Waiting code (cpuKstateInit code mem (L.cpuState t) startFunc startArg (L.stackBase t)
      (L.stackSize t)) t (.created startFunc startArg) := by
  have hon : ∀ i < 68, L.OnStack t
      (kstateAddress (L.stackBase t) (L.stackSize t) + BitVec.ofNat 32 i) :=
    fun i hi => kstateAddress_inRegion _ _ hsize hi
  constructor
  · exact Memory.load32_store32 _ _ _
  · refine ⟨_, rfl, cpuKstateInit_holds code mem _ _ _ _ _ fun i hi j hj he => ?_, ?_⟩
    · exact L.cpuState_outside ⟨j, hj, he⟩ (hon i hi)
    · exact fun i hi => hon i (by simpa using hi)

section Transfer

variable {m : Machine} {t : τ} (callerIp : BitVec 32)

theorem exchanged_eq : exchanged code arith m callerIp =
    execBlock arith (execBlock arith (m.push32 callerIp) (saveContext code)) exchangeStacks :=
  execBlock_append ..

/-- The context and the return address come to lie below the arguments of the call. -/
theorem saved_pushed (m : Machine) : ∃ padding,
    Pushed m (execBlock arith (m.push32 callerIp) (saveContext code))
      ((savedState code m padding).bytes ++ Memory.bytes32 callerIp) := by
  obtain ⟨padding, h⟩ := saveContext_pushed code arith (m.push32 callerIp)
  exact ⟨padding, (pushed_push32 m callerIp).trans h (by simp)⟩

theorem exchangeStacks_mem (m : Machine) : (execBlock arith m exchangeStacks).mem =
    m.mem.store32 (m.mem.load32 (m.esp + 60) + 0) m.esp := rfl

theorem exchangeStacks_esp (m : Machine) : (execBlock arith m exchangeStacks).esp =
    (execBlock arith m exchangeStacks).mem.load32 (m.esp + 64) := by
  -- the last instruction, on the machine after the other two
  have hload : ∀ n : Machine, (execBlock arith n [.load .esp .esp 64]).esp =
      (execBlock arith n [.load .esp .esp 64]).mem.load32 (n.esp + 64) := fun _ => rfl
  exact hload (execBlock arith m [.load .ebx .esp 60, .store .ebx 0 .esp])

/-- A call puts the context on the caller's stack, its address in the caller's `cpu_state`
field, and nothing elsewhere. The new stack is that of the second argument. -/
theorem Calling.waiting (h : L.Calling t m) :
    L.Waiting code (exchanged code arith m callerIp).mem t (.suspended m callerIp) ∧
      (exchanged code arith m callerIp).esp = m.mem.load32 (m.esp + 4) ∧
      ∀ a, ¬ L.Owns t a → (exchanged code arith m callerIp).mem a = m.mem a := by
  obtain ⟨padding, hp⟩ : ∃ padding,
      Pushed m (execBlock arith (m.push32 callerIp) (saveContext code))
        ((savedState code m padding).bytes ++ Memory.bytes32 callerIp) := saved_pushed callerIp m
  have hlen : ((savedState code m padding).bytes ++ Memory.bytes32 callerIp).length = 60 := by simp
  obtain ⟨hesp, hholds, hmem, -, -⟩ := hp
  rw [hlen] at hmem hesp
  rw [exchanged_eq]
  generalize execBlock arith (m.push32 callerIp) (saveContext code) = m₁ at hesp hholds hmem
  have h60 : m₁.esp + 60 = m.esp := by rw [hesp]; bv_omega
  have h64 : m₁.esp + 64 = m.esp + 4 := by rw [hesp]; bv_omega
  have hon : ∀ i < 60, L.OnStack t (m₁.esp + BitVec.ofNat 32 i) := by
    intro i hi
    rw [hesp]
    exact h.room i (by omega)
  -- The arguments lie above what the call has pushed
  have harg : ∀ k < 8, m₁.mem (m.esp + BitVec.ofNat 32 k) = m.mem (m.esp + BitVec.ofNat 32 k) := by
    intro k hk
    apply hmem
    intro i hi
    rw [hesp]
    bv_omega
  have hsource : m₁.mem.load32 (m₁.esp + 60) + 0 = L.cpuState t := by
    rw [h60, ← h.source]
    apply (BitVec.add_zero _).trans
    apply load32_congr
    rintro c ⟨j, hj, rfl⟩
    exact harg j (by omega)
  have hstore : (execBlock arith m₁ exchangeStacks).mem =
      m₁.mem.store32 (L.cpuState t) m₁.esp := by
    rw [exchangeStacks_mem, hsource]
  have hout : ∀ a, ¬ InSlot (L.cpuState t) a →
      (execBlock arith m₁ exchangeStacks).mem a = m₁.mem a := by
    intro a ha
    rw [hstore]
    exact m₁.mem.storeBytes_of_ne fun j hj he => ha ⟨j, hj, he⟩
  refine ⟨⟨?_, _, ⟨padding, rfl⟩, ?_, ?_⟩, ?_, ?_⟩
  · rw [hstore, Memory.load32_store32, hesp]
    rfl
  · have hstack : (execBlock arith m₁ exchangeStacks).mem.Holds m₁.esp _ :=
      hholds.congr fun i hi => hout _ fun hs => L.cpuState_outside hs (hon i (hlen ▸ hi))
    rwa [hesp] at hstack
  · intro i hi
    have := hon i (hlen ▸ hi)
    rwa [hesp] at this
  · rw [exchangeStacks_esp, h64]
    apply load32_congr
    rintro c ⟨j, hj, rfl⟩
    have hcj : m.esp + 4 + BitVec.ofNat 32 j = m.esp + BitVec.ofNat 32 (4 + j) := by
      rw [BitVec.ofNat_add, BitVec.add_assoc]
      rfl
    have hroom : L.OnStack t (m.esp + BitVec.ofNat 32 (4 + j)) := by
      have := h.room (64 + j) (by omega)
      have he : m.esp - 60 + BitVec.ofNat 32 (64 + j) = m.esp + BitVec.ofNat 32 (4 + j) := by
        bv_omega
      rwa [he] at this
    rw [hcj, hout _ fun hs => L.cpuState_outside hs hroom]
    exact harg (4 + j) (by omega)
  · intro a ha
    rw [hout a fun hs => ha (.inr hs)]
    apply hmem
    intro i hi he
    exact ha (.inl (he ▸ hon i hi))

theorem cpuContextSwitch_eq : cpuContextSwitch code arith (m.push32 callerIp) =
    if (execBlock arith (exchanged code arith m callerIp) restoreContext).eip = code.resumePc
    then execBlock arith (execBlock arith (exchanged code arith m callerIp) restoreContext) [.ret]
    else execBlock arith (exchanged code arith m callerIp) restoreContext := by
  unfold cpuContextSwitch exchanged
  rw [← execBlock_append]

/-- On the stack of a thread whose context `cpu_kstate_init` made, the routine ends at
`core_routine`. -/
theorem Waiting.resumes_created {startFunc startArg : BitVec 32}
    (h : L.Waiting code (exchanged code arith m callerIp).mem t (.created startFunc startArg))
    (hesp : (exchanged code arith m callerIp).esp =
      (exchanged code arith m callerIp).mem.load32 (L.cpuState t)) :
    Resumes code (cpuContextSwitch code arith (m.push32 callerIp)) (.created startFunc startArg) ∧
      (cpuContextSwitch code arith (m.push32 callerIp)).mem =
        (exchanged code arith m callerIp).mem := by
  obtain ⟨bs, rfl, hholds, -⟩ := h.frame
  rw [← h.pointer, ← hesp] at hholds
  obtain ⟨hres, hesp', hmem, hcall⟩ := restoreContext_restored arith _ _ _ hholds
  have heip : (execBlock arith (exchanged code arith m callerIp) restoreContext).eip =
      code.coreRoutine := hres.eip
  rw [cpuContextSwitch_eq, heip, if_neg code.distinct]
  obtain ⟨hzero, hcall⟩ := hcall.load32
  obtain ⟨hfunc, hcall⟩ := hcall.load32
  rw [← List.append_nil (Memory.bytes32 startArg)] at hcall
  obtain ⟨harg, -⟩ := hcall.load32
  refine ⟨⟨heip, ?_, ?_, ?_, ?_⟩, hmem⟩
  · rw [hmem, hesp']
    exact hzero
  · rw [hmem, hesp']
    exact hfunc
  · rw [hmem, hesp', ← harg, BitVec.add_assoc _ 4 4]
    rfl
  · rw [hres.eflags, show (initialState code).eflags = 1#32 <<< 9 from rfl]
    decide

theorem ret_effect (arith : BitVec 32 → BitVec 32 → BitVec 32) (m : Machine) :
    (∀ r, r ≠ .esp → (execBlock arith m [.ret]).reg r = m.reg r) ∧
      (execBlock arith m [.ret]).reg .esp = m.esp + 4 ∧
      (execBlock arith m [.ret]).seg = m.seg ∧ (execBlock arith m [.ret]).eflags = m.eflags ∧
      (execBlock arith m [.ret]).eip = m.mem.load32 m.esp ∧
      (execBlock arith m [.ret]).mem = m.mem :=
  ⟨fun _ hr => Function.update_of_ne hr .., rfl, rfl, rfl, rfl, rfl⟩

/-- On the stack of a suspended thread, the routine ends behind that thread's call, with the
registers of that call. -/
theorem Waiting.resumes_suspended {call : Machine} {ip : BitVec 32}
    (h : L.Waiting code (exchanged code arith m callerIp).mem t (.suspended call ip))
    (hesp : (exchanged code arith m callerIp).esp =
      (exchanged code arith m callerIp).mem.load32 (L.cpuState t)) :
    Resumes code (cpuContextSwitch code arith (m.push32 callerIp)) (.suspended call ip) ∧
      (cpuContextSwitch code arith (m.push32 callerIp)).mem =
        (exchanged code arith m callerIp).mem := by
  obtain ⟨bs, ⟨padding, rfl⟩, hholds, -⟩ := h.frame
  rw [← h.pointer, ← hesp, ← List.append_nil (Memory.bytes32 ip)] at hholds
  obtain ⟨hres, hesp', hmem, hcall⟩ := restoreContext_restored arith _ _ _ hholds
  obtain ⟨hip, -⟩ := hcall.load32
  rw [h.pointer] at hesp
  have heip : (execBlock arith (exchanged code arith m callerIp) restoreContext).eip =
      code.resumePc := hres.eip
  rw [cpuContextSwitch_eq, if_pos heip]
  generalize execBlock arith (exchanged code arith m callerIp) restoreContext = m₁ at *
  obtain ⟨hret, hretEsp, hretSeg, hretFlags, hretEip, hretMem⟩ := ret_effect arith m₁
  have hback : call.esp - 60 + 56 + 4 = call.esp := by bv_omega
  refine ⟨⟨?_, ?_, ?_, ?_⟩, hretMem.trans hmem⟩
  · intro r
    cases r with
    | esp =>
      rw [hretEsp, hesp', hesp]
      exact hback
    | eax => exact (hret _ (by decide)).trans hres.eax
    | ebx => exact (hret _ (by decide)).trans hres.ebx
    | ecx => exact (hret _ (by decide)).trans hres.ecx
    | edx => exact (hret _ (by decide)).trans hres.edx
    | esi => exact (hret _ (by decide)).trans hres.esi
    | edi => exact (hret _ (by decide)).trans hres.edi
    | ebp => exact (hret _ (by decide)).trans hres.ebp
  · intro g
    rw [hretSeg]
    cases g with
    | cs =>
      apply hres.cs.trans
      exact BitVec.setWidth_setWidth_of_le _ (by decide)
    | ds => exact hres.ds
    | es => exact hres.es
    | fs => exact hres.fs
    | gs => exact hres.gs
    | ss => exact hres.ss
  · rw [hretFlags]
    exact hres.eflags
  · rw [hretEip, hmem, hesp']
    exact hip

theorem Waiting.resumes {o : Origin}
    (h : L.Waiting code (exchanged code arith m callerIp).mem t o)
    (hesp : (exchanged code arith m callerIp).esp =
      (exchanged code arith m callerIp).mem.load32 (L.cpuState t)) :
    Resumes code (cpuContextSwitch code arith (m.push32 callerIp)) o ∧
      (cpuContextSwitch code arith (m.push32 callerIp)).mem =
        (exchanged code arith m callerIp).mem := by
  cases o with
  | created => exact h.resumes_created callerIp hesp
  | suspended => exact h.resumes_suspended callerIp hesp

end Transfer

end StackLayout

end Einherjar.Arch
