import Einherjar.Threading.Thread

/-! The scheduler, the creation of threads, and the set-up of both. -/
namespace Einherjar.Threading
open Einherjar.Lib.TailQueue

variable {τ : Type*} [DecidableEq τ]

def kernelOk : BitVec 32 := 0

def schedulerSetup (s : System τ) : System τ :=
  { s with links := init s.links .readyThreadsQueue }

def addInReadyQueue (s : System τ) (thr : τ) (insertAtTail : Bool) : Option (System τ) :=
  if s.state thr = .created ∨ s.state thr = .running ∨ s.state thr = .blocked then
    let s := s.setState thr .ready
    if insertAtTail then some { s with links := insertTail s.links .readyThreadsQueue thr }
    else some { s with links := insertHead s.links .readyThreadsQueue thr }
  else none

def schedulerSetReady (s : System τ) (thr : τ) : Option (BitVec 32 × System τ) :=
  if s.state thr = .ready then some (kernelOk, s)
  else (addInReadyQueue s thr true).map fun s => (kernelOk, s)

/-- The part of `schedule` between its two assertions about the current thread: the first
thread of the queue goes to the end and becomes the current one. -/
def dispatchFirst (s : System τ) : Option (System τ) :=
  match first s.links .readyThreadsQueue with
  | none => none
  | some nextThread =>
    let links := remove s.links .readyThreadsQueue nextThread
    let links := insertTail links .readyThreadsQueue nextThread
    threadSetCurrent { s with links := links } nextThread

/-- `schedule` up to the transfer of control, which leaves this state alone. -/
def schedule (s : System τ) : Option (System τ) :=
  match threadGetCurrent s with
  | none => none
  | some currentThread =>
    if s.state currentThread ≠ .blocked then
      (addInReadyQueue s currentThread true).bind dispatchFirst
    else dispatchFirst s

/-- What `schedule` asserts when a thread that it switched away from is resumed. -/
def scheduleResumed (s : System τ) (currentThread : τ) : Prop :=
  threadGetCurrent s = some currentThread ∧ s.state currentThread = .running

/-- The bytes of "[NONAME]". -/
def noName : List (BitVec 8) := [0x5b, 0x4e, 0x4f, 0x4e, 0x41, 0x4d, 0x45, 0x5d]

/-- `thread_create` up to the insertion in `kernel_threads`, behind which interrupts are enabled
again. The answers of the two calls of `malloc` are arguments: an address for the thread or NULL,
and an address for the stack or 0. The result is the thread, which is not ready yet, or NULL. -/
def insertNewThread (s : System τ) (name : Option (List (BitVec 8))) (startFunc : BitVec 32)
    (newThread : Option τ) (stack : BitVec 32) : Option τ × System τ :=
  if startFunc = 0 then (none, s)
  else match newThread with
    | none => (none, s)
    | some thr =>
      let prior := s.threads thr
      let thread : Thread :=
        { prior with
          name := ⟨strzcpy prior.name (name.getD noName) threadMaxNamelen,
            (strzcpy_length ..).trans prior.name.2⟩
          state := .created
          stackBaseAddress := stack
          stackSize := threadKernelStackSize }
      if stack = 0 then (none, { s with threads := Function.update s.threads thr thread })
      else
        -- cpu_kstate_init(&new_thread->cpu_state, ...)
        let thread := { thread with
          cpuState := Arch.kstateAddress thread.stackBaseAddress thread.stackSize }
        (some thr,
          { s with
            threads := Function.update s.threads thr thread
            links := insertTail s.links .kernelThreads thr })

/-- `thread_create`. The result is the thread or NULL; on a failure the memory goes back to the
allocator. -/
def threadCreate (s : System τ) (name : Option (List (BitVec 8))) (startFunc : BitVec 32)
    (newThread : Option τ) (stack : BitVec 32) : Option (Option τ × System τ) :=
  match insertNewThread s name startFunc newThread stack with
  | (none, s) => some (none, s)
  | (some thr, s) =>
    match schedulerSetReady s thr with
    | none => none
    | some (status, s) => if status ≠ kernelOk then some (none, s) else some (some thr, s)

/-- The bytes of "idle". -/
def idleName : List (BitVec 8) := [0x69, 0x64, 0x6c, 0x65]

/-- `threading_setup`, where `idleThread` is the address of the idle thread's function. -/
def threadingSetup (s : System τ) (idleThread : BitVec 32) (newThread : Option τ)
    (stack : BitVec 32) : Option (System τ) :=
  let s := { s with links := init s.links .kernelThreads }
  match threadCreate s (some idleName) idleThread newThread stack with
  | some (some idle, s) => threadSetCurrent (s.setState idle .ready) idle
  | _ => none

end Einherjar.Threading
