import Einherjar.Arch.CpuContext

/-! Kernel threads that pass the processor to each other: where their stacks lie, how each of
them was set up or suspended, and what a thread finds when it is resumed. -/
namespace Einherjar.Arch
open Einherjar.Lib

variable {τ : Type*}

/-- The four bytes of a pointer variable. -/
def InSlot (slot a : BitVec 32) : Prop := ∃ j < 4, a = slot + BitVec.ofNat 32 j

/-- Where the threads have their stacks and their `cpu_state` fields. -/
structure StackLayout (τ : Type*) where
  stackBase : τ → BitVec 32
  stackSize : τ → BitVec 32
  /-- `&thread->cpu_state` -/
  cpuState : τ → BitVec 32
  stacks_disjoint : ∀ {t u a}, InRegion (stackBase t) (stackSize t) a →
    InRegion (stackBase u) (stackSize u) a → t = u
  cpuState_outside : ∀ {t u a}, InSlot (cpuState t) a → ¬ InRegion (stackBase u) (stackSize u) a
  cpuStates_disjoint : ∀ {t u a}, InSlot (cpuState t) a → InSlot (cpuState u) a → t = u

/-- How a thread that is not running has got its saved context: from `cpu_kstate_init`, or
from a call of `cpu_context_switch` that it made in the given processor state, with the
given return address. -/
inductive Origin where
  | created (startFunc startArg : BitVec 32)
  | suspended (call : Machine) (callerIp : BitVec 32)

structure KernelState (τ : Type*) where
  machine : Machine
  running : τ
  origin : τ → Origin

inductive Event (τ : Type*) where
  | run
  | transfer (target : τ) (callerIp : BitVec 32)

namespace StackLayout

variable (L : StackLayout τ)

def OnStack (t : τ) (a : BitVec 32) : Prop := InRegion (L.stackBase t) (L.stackSize t) a

/-- The memory that belongs to a thread which is not running. -/
def Owns (t : τ) (a : BitVec 32) : Prop := L.OnStack t a ∨ InSlot (L.cpuState t) a

/-- The thread stands before `call cpu_context_switch`: the first argument is on top of its
stack, and the stack has room for the return address and the context. -/
structure Calling (t : τ) (m : Machine) : Prop where
  source : m.mem.load32 m.esp = L.cpuState t
  room : ∀ i < 68, L.OnStack t (m.esp - 60 + BitVec.ofNat 32 i)

section Semantics

variable (code : CodeAddresses) (arith : BitVec 32 → BitVec 32 → BitVec 32) [DecidableEq τ]

/-- The processor on the new stack, before the context there is restored. -/
def exchanged (m : Machine) (callerIp : BitVec 32) : Machine :=
  execBlock arith (m.push32 callerIp) (saveContext code ++ exchangeStacks)

/-- The memory of the thread is as its origin has left it. -/
def Prepared (mem : Memory 32) (t : τ) : Origin → Prop
  | .created startFunc startArg => 68 ≤ (L.stackSize t).toNat ∧ ∃ mem₀ : Memory 32,
      ∀ a, L.Owns t a → mem a =
        cpuKstateInit code mem₀ (L.cpuState t) startFunc startArg (L.stackBase t) (L.stackSize t) a
  | .suspended call callerIp => L.Calling t call ∧
      ∀ a, L.Owns t a → mem a = (exchanged code arith call callerIp).mem a

/-- A thread runs, as long as it leaves alone what belongs to the others, or it calls
`cpu_context_switch(&from->cpu_state, to->cpu_state)`. -/
inductive Step : KernelState τ → Event τ → KernelState τ → Prop
  | run (s : KernelState τ) (m : Machine)
      (frame : ∀ t ≠ s.running, ∀ a, L.Owns t a → m.mem a = s.machine.mem a) :
      Step s .run { s with machine := m }
  | transfer (s : KernelState τ) (target : τ) (callerIp : BitVec 32) (htarget : target ≠ s.running)
      (hcall : L.Calling s.running s.machine)
      (destination : s.machine.mem.load32 (s.machine.esp + 4) =
        s.machine.mem.load32 (L.cpuState target)) :
      Step s (.transfer target callerIp)
        { machine := cpuContextSwitch code arith (s.machine.push32 callerIp)
          running := target
          origin := Function.update s.origin s.running (.suspended s.machine callerIp) }

end Semantics

end StackLayout

/-- What a thread of the given origin finds when it is resumed. -/
def Resumes (code : CodeAddresses) (m' : Machine) : Origin → Prop
  | .created startFunc startArg =>
      m'.eip = code.coreRoutine ∧ m'.mem.load32 m'.esp = 0 ∧
      m'.mem.load32 (m'.esp + 4) = startFunc ∧ m'.mem.load32 (m'.esp + 8) = startArg ∧
      m'.eflags.getLsbD 9 = true
  | .suspended call callerIp =>
      (∀ r, m'.reg r = call.reg r) ∧ (∀ g, m'.seg g = call.seg g) ∧
      m'.eflags = call.eflags ∧ m'.eip = callerIp

/-- The thread that a transfer leads to resumes as its origin says. -/
def TransferResumes (code : CodeAddresses) (s : KernelState τ) (e : Event τ)
    (s' : KernelState τ) : Prop :=
  match e with
  | .run => True
  | .transfer target _ => Resumes code s'.machine (s.origin target)

end Einherjar.Arch
