import Einherjar.Lib.TailQueue
import Einherjar.Arch.CpuContext

/-! Kernel threads as `thread.c` keeps them: the thread structure, the current thread, and
the two lists that share its link field. -/
namespace Einherjar.Threading
open Einherjar.Lib.TailQueue

inductive ThreadState where
  | created | ready | running | blocked | zombie
  deriving DecidableEq

/-- The heads of the two lists threaded through the link field `next`. -/
inductive ThreadList where
  | kernelThreads | readyThreadsQueue
  deriving DecidableEq

/-- `THREAD_MAX_NAMELEN` -/
def threadMaxNamelen : ℕ := 32

/-- `THREAD_KERNEL_STACK_SIZE`: one page. -/
def threadKernelStackSize : BitVec 32 := 1 * 4096

/-- Copy a string, without its terminator in the list, to the array `dst`: at most `len`
bytes with the terminator. -/
def strzcpy : List (BitVec 8) → List (BitVec 8) → ℕ → List (BitVec 8)
  | dst, _, 0 => dst
  | [], _, _ + 1 => []
  | _ :: dst, [], _ + 1 => 0 :: dst
  | _ :: dst, _ :: _, 1 => 0 :: dst
  | _ :: dst, c :: src, len + 2 => c :: strzcpy dst src (len + 1)

theorem strzcpy_length (dst src : List (BitVec 8)) (len : ℕ) :
    (strzcpy dst src len).length = dst.length := by
  induction dst, src, len using strzcpy.induct with
  | case5 _ _ _ _ _ ih => simp [strzcpy, ih]
  | _ => simp [strzcpy]

/-- The array `name` of a thread. -/
abbrev ThreadName := { name : List (BitVec 8) // name.length = threadMaxNamelen }

/-- `struct thread` without its link field. -/
structure Thread where
  stackBaseAddress : BitVec 32
  stackSize : BitVec 32
  name : ThreadName
  state : ThreadState
  cpuState : BitVec 32

/-- The memory that the functions share. `τ` stands for the addresses at which `malloc` can
place a thread, so `threads` has a value also where there is no thread (yet). -/
structure System (τ : Type*) where
  links : Links ThreadList τ
  threads : τ → Thread
  gCurrentThread : Option τ

variable {τ : Type*}

namespace System

/-- The content of the field `state`. -/
def state (s : System τ) (thr : τ) : ThreadState := (s.threads thr).state

def setState [DecidableEq τ] (s : System τ) (thr : τ) (state : ThreadState) : System τ :=
  { s with threads := Function.update s.threads thr { s.threads thr with state := state } }

section

variable [DecidableEq τ] (s : System τ) (thr : τ) (st : ThreadState)

@[simp] theorem setState_links : (s.setState thr st).links = s.links := rfl

@[simp] theorem setState_gCurrentThread :
    (s.setState thr st).gCurrentThread = s.gCurrentThread := rfl

@[simp] theorem setState_state_self : (s.setState thr st).state thr = st := by
  simp [state, setState]

theorem setState_state_of_ne {t : τ} (h : t ≠ thr) : (s.setState thr st).state t = s.state t := by
  simp [state, setState, h]

end

end System

/-- A failed assertion, or a read through NULL, ends the kernel: the result is `none`. -/
def threadSetCurrent [DecidableEq τ] (s : System τ) (currentThread : τ) : Option (System τ) :=
  if s.state currentThread = .ready then
    some ({ s with gCurrentThread := some currentThread }.setState currentThread .running)
  else none

def threadGetCurrent (s : System τ) : Option τ :=
  match s.gCurrentThread with
  | none => none
  | some thr => if s.state thr = .running then some thr else none

end Einherjar.Threading
