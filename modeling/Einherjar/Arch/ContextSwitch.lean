import Einherjar.Arch.WaitingThread
import Einherjar.Lib.Run

/-! Any chain of context switches between kernel threads: each thread resumes as it has been set
up or as it has been suspended. -/
namespace Einherjar.Arch
open Einherjar.Lib

variable {τ : Type*}

namespace StackLayout

variable (L : StackLayout τ) (code : CodeAddresses) (arith : BitVec 32 → BitVec 32 → BitVec 32)

section Run

/-- Every thread that is not running waits for its turn. -/
def AllWaiting (s : KernelState τ) : Prop :=
  ∀ t ≠ s.running, L.Waiting code s.machine.mem t (s.origin t)

variable {L code arith}

theorem Prepared.waiting {mem : Memory 32} {t : τ} {o : Origin}
    (h : L.Prepared code arith mem t o) : L.Waiting code mem t o := by
  cases o with
  | created startFunc startArg =>
    obtain ⟨hsize, mem₀, hmem⟩ := h
    have hcreated : L.Waiting code (cpuKstateInit code mem₀ (L.cpuState t) startFunc startArg
        (L.stackBase t) (L.stackSize t)) t (.created startFunc startArg) :=
      waiting_created startFunc startArg hsize
    exact hcreated.congr hmem
  | suspended call callerIp =>
    obtain ⟨hcall, hmem⟩ := h
    have hwaiting : L.Waiting code (exchanged code arith call callerIp).mem t
        (.suspended call callerIp) := (hcall.waiting callerIp).1
    exact hwaiting.congr hmem

theorem not_owns {t u : τ} {a : BitVec 32} (htu : t ≠ u) (h : L.Owns t a) : ¬ L.Owns u a := by
  rintro (hu | hu) <;> rcases h with h | h
  · exact htu (L.stacks_disjoint h hu)
  · exact L.cpuState_outside h hu
  · exact L.cpuState_outside hu h
  · exact htu (L.cpuStates_disjoint h hu)

variable [DecidableEq τ]

/-- What a transfer does to the threads: the caller waits, the other one resumes, and the
rest wait on. -/
theorem AllWaiting.transfer {s : KernelState τ} {target : τ} {callerIp : BitVec 32}
    (h : L.AllWaiting code s) (htarget : target ≠ s.running)
    (hcall : L.Calling s.running s.machine)
    (hdest : s.machine.mem.load32 (s.machine.esp + 4) =
      s.machine.mem.load32 (L.cpuState target)) :
    Resumes code (cpuContextSwitch code arith (s.machine.push32 callerIp)) (s.origin target) ∧
      ∀ t ≠ target, L.Waiting code (cpuContextSwitch code arith (s.machine.push32 callerIp)).mem t
        (Function.update s.origin s.running (.suspended s.machine callerIp) t) := by
  obtain ⟨hfrom, hesp, hout⟩ :
      L.Waiting code (exchanged code arith s.machine callerIp).mem s.running
          (.suspended s.machine callerIp) ∧
        (exchanged code arith s.machine callerIp).esp = s.machine.mem.load32 (s.machine.esp + 4) ∧
        ∀ a, ¬ L.Owns s.running a →
          (exchanged code arith s.machine callerIp).mem a = s.machine.mem a :=
    hcall.waiting callerIp
  have hothers : ∀ t ≠ s.running,
      L.Waiting code (exchanged code arith s.machine callerIp).mem t (s.origin t) :=
    fun t ht => (h t ht).congr fun a ha => hout a (not_owns ht ha)
  have hpointer : (exchanged code arith s.machine callerIp).esp =
      (exchanged code arith s.machine callerIp).mem.load32 (L.cpuState target) := by
    rw [hesp, hdest]
    symm
    exact load32_congr fun c hc => hout c (not_owns htarget (.inr hc))
  obtain ⟨hres, hmem⟩ := (hothers target htarget).resumes callerIp hpointer
  refine ⟨hres, fun t ht => ?_⟩
  rw [hmem]
  by_cases htr : t = s.running
  · subst htr
    rwa [Function.update_self]
  · rw [Function.update_of_ne htr]
    exact hothers t htr

theorem step_allWaiting {s s' : KernelState τ} {e : Event τ} (h : L.AllWaiting code s)
    (hstep : L.Step code arith s e s') : L.AllWaiting code s' := by
  cases hstep with
  | run m frame => exact fun t ht => (h t ht).congr (frame t ht)
  | transfer target callerIp htarget hcall hdest =>
    exact (h.transfer htarget hcall hdest).2

theorem step_resumes {s s' : KernelState τ} {e : Event τ} (h : L.AllWaiting code s)
    (hstep : L.Step code arith s e s') : TransferResumes code s e s' := by
  cases hstep with
  | run m frame => trivial
  | transfer target callerIp htarget hcall hdest =>
    exact (h.transfer htarget hcall hdest).1

/-- Along every chain of transfers each thread resumes as it has been set up or with the
processor state of its own call. `cpu_kstate_init`, which sets a thread up, changes its
stack and the pointer to the context only. -/
theorem contextSwitch_lossless (L : StackLayout τ) (code : CodeAddresses)
    (arith : BitVec 32 → BitVec 32 → BitVec 32) (s : KernelState τ)
    (hs : ∀ t ≠ s.running, L.Prepared code arith s.machine.mem t (s.origin t))
    (p : List (Event τ × KernelState τ)) (hp : Path (L.Step code arith) s p) :
    Along (TransferResumes code) s p ∧
      ∀ (mem : Memory 32) (ctxt startFunc startArg stackBase stackSize : BitVec 32),
        68 ≤ stackSize.toNat → ∀ c, ¬ InRegion stackBase stackSize c → ¬ InSlot ctxt c →
          cpuKstateInit code mem ctxt startFunc startArg stackBase stackSize c = mem c := by
  constructor
  · have hwait : L.AllWaiting code s := fun t ht => (hs t ht).waiting
    exact hp.along (fun _ _ _ => step_allWaiting) (fun _ _ _ => step_resumes) hwait
  · intro mem ctxt startFunc startArg stackBase stackSize hsize c hc hslot
    exact cpuKstateInit_outside _ _ _ _ _ _ _ hsize hc fun j hj he => hslot ⟨j, hj, he⟩

section TwoThreads

def codeAt : CodeAddresses := ⟨0x100100, 0x100200, by decide⟩

/-- Two stacks of a page each. -/
def twoStacks : StackLayout Bool where
  stackBase t := if t then 0x20000 else 0x10000
  stackSize _ := 0x1000
  cpuState t := if t then 0x5010 else 0x5000
  stacks_disjoint := by
    intro t u a ht hu
    unfold InRegion at ht hu
    cases t <;> cases u <;> simp only [Bool.false_eq_true, if_true, if_false] at * <;> bv_omega
  cpuState_outside := by
    rintro t u a ⟨j, hj, rfl⟩ hu
    unfold InRegion at hu
    cases t <;> cases u <;> simp only [Bool.false_eq_true, if_true, if_false] at * <;> bv_omega
  cpuStates_disjoint := by
    rintro t u a ⟨j, hj, rfl⟩ ⟨k, hk, he⟩
    cases t <;> cases u <;> simp only [Bool.false_eq_true, if_true, if_false] at * <;> bv_omega

/-- The first thread is about to hand over to the second, which has just been created. -/
def beforeTransfer : KernelState Bool where
  machine :=
    { reg := fun r => if r = .esp then 0x10800 else 7
      seg := fun _ => 8
      eip := 0x100300
      eflags := 0x202
      mem := cpuKstateInit codeAt
        (Memory.store32 (Memory.store32 (fun _ => 0) 0x10800 0x5000) 0x10804
          (kstateAddress 0x20000 0x1000)) 0x5010 0x100400 5 0x20000 0x1000 }
  running := false
  origin _ := .created 0x100400 5

theorem contextSwitch_lossless_twoStacks :
    ∃ s', Path (twoStacks.Step codeAt fun flags _ => flags) beforeTransfer
        [(.transfer true 0x100304, s')] ∧
      TransferResumes codeAt beforeTransfer (.transfer true 0x100304) s' := by
  have hcall : twoStacks.Calling false beforeTransfer.machine := by
    constructor
    · decide +kernel
    · intro i hi
      change (0x10800#32 - 60#32 + BitVec.ofNat 32 i - 0x10000#32).toNat < 0x1000
      bv_omega
  have hprep : ∀ t ≠ beforeTransfer.running, twoStacks.Prepared codeAt (fun flags _ => flags)
      beforeTransfer.machine.mem t (beforeTransfer.origin t) := by
    intro t ht
    obtain rfl : t = true := Bool.eq_true_of_not_eq_false ht
    exact ⟨by decide, _, fun _ _ => rfl⟩
  have hpath : Path (twoStacks.Step codeAt fun flags _ => flags) beforeTransfer
      [(.transfer true 0x100304, _)] :=
    .cons (.transfer beforeTransfer true 0x100304 (by decide) hcall (by decide +kernel)) (.nil _)
  exact ⟨_, hpath, (contextSwitch_lossless _ _ _ _ hprep _ hpath).1.1⟩

/-- The pointer to the context is itself written outside the stack. -/
theorem cpuKstateInit_writes_ctxt :
    ¬ ∀ (mem : Memory 32) (ctxt startFunc startArg stackBase stackSize : BitVec 32),
      68 ≤ stackSize.toNat → ∀ c, ¬ InRegion stackBase stackSize c →
        cpuKstateInit codeAt mem ctxt startFunc startArg stackBase stackSize c = mem c := by
  intro h
  have hptr := h (fun _ => 0) 0x5010 0x100400 5 0x20000 0x1000 (by decide) 0x5010
    (by unfold InRegion; decide)
  revert hptr
  decide +kernel

end TwoThreads

end Run

end StackLayout

end Einherjar.Arch
