import Einherjar.Arch.ContextFrames
import Einherjar.Memory.FlatLists
import Einherjar.Threading.Scheduler

/-! `thread_create` in the memory that the allocator manages: the fields of the thread and the links
of its lists are bytes there, like those of the allocator itself. -/
namespace Einherjar.Threading
open Einherjar.Lib Einherjar.Memory

inductive ThreadField where
  | stackBaseAddress | stackSize | name | state | cpuState | next
  deriving DecidableEq

namespace ThreadField

/-- The fields of `struct thread` in the order of their declaration. -/
def declared : List ThreadField := [.stackBaseAddress, .stackSize, .name, .state, .cpuState, .next]

/-- The link field has two pointers. -/
def size : ThreadField → ℕ
  | .name => threadMaxNamelen
  | .next => 8
  | _ => 4

def offset (f : ThreadField) : ℕ := ((declared.takeWhile (· ≠ f)).map size).sum

end ThreadField

/-- `sizeof(struct thread)` -/
def sizeofThread : BitVec 32 := BitVec.ofNat 32 (ThreadField.declared.map ThreadField.size).sum

/-- The values of the enumeration. -/
def ThreadState.code : ThreadState → BitVec 32
  | .created => 0
  | .ready => 1
  | .running => 2
  | .blocked => 3
  | .zombie => 4

/-- Where the linker has put the variables that `thread_create` uses, and the string "[NONAME]". -/
structure KernelData extends HeapData where
  /-- `&kernel_threads` and `&ready_threads_queue` -/
  threadList : ThreadList → BitVec 32
  noName : BitVec 32

namespace KernelData

/-- `offsetof(struct thread, next)` -/
def next : BitVec 32 := BitVec.ofNat 32 (ThreadField.offset .next)

def field (thr : BitVec 32) (f : ThreadField) : BitVec 32 := thr + BitVec.ofNat 32 f.offset

/-- The loop of `strzcpy` at the index `i`, with `n` bytes to go. The answer says whether the
function has returned. -/
def strzcpyLoop (dst src : BitVec 32) : ℕ → ℕ → Memory 32 → Bool × Memory 32
  | 0, _, mem => (false, mem)
  | n + 1, i, mem =>
    let mem := Function.update mem (dst + BitVec.ofNat 32 i) (mem (src + BitVec.ofNat 32 i))
    if mem (src + BitVec.ofNat 32 i) = 0 then (true, mem) else strzcpyLoop dst src n (i + 1) mem

def strzcpy (mem : Memory 32) (dst src : BitVec 32) (len : ℕ) : Memory 32 :=
  if len = 0 then mem
  else match strzcpyLoop dst src len 0 mem with
    | (true, mem) => mem
    | (false, mem) => Function.update mem (dst + BitVec.ofNat 32 (len - 1)) 0

/-- The attributes that do not depend on the stack. -/
def initializeAttributes (mem : Memory 32) (newThread name : BitVec 32) : Memory 32 :=
  let mem := strzcpy mem (field newThread .name) name threadMaxNamelen
  mem.store32 (field newThread .state) ThreadState.created.code

def setStack (mem : Memory 32) (newThread stack : BitVec 32) : Memory 32 :=
  let mem := mem.store32 (field newThread .stackBaseAddress) stack
  mem.store32 (field newThread .stackSize) threadKernelStackSize

section calls

variable (D : KernelData)

/-- The first context of the thread, and its place in the global list. -/
def addThread (code : Arch.CodeAddresses) (mem : Memory 32)
    (newThread startFunc startArg : BitVec 32) : Memory 32 :=
  let mem := Arch.cpuKstateInit code mem (field newThread .cpuState) startFunc startArg
    (mem.load32 (field newThread .stackBaseAddress)) (mem.load32 (field newThread .stackSize))
  mem.tailqInsertTail next (D.threadList .kernelThreads) newThread

/-- A failed assertion ends the kernel: the result is `none`. -/
def addInReadyQueue (mem : Memory 32) (thr : BitVec 32) (insertAtTail : Bool) :
    Option (Memory 32) :=
  let state := mem.load32 (field thr .state)
  if ThreadState.created.code = state ∨ ThreadState.running.code = state ∨
      ThreadState.blocked.code = state then
    let mem := mem.store32 (field thr .state) ThreadState.ready.code
    if insertAtTail then some (mem.tailqInsertTail next (D.threadList .readyThreadsQueue) thr)
    else some (mem.tailqInsertHead next (D.threadList .readyThreadsQueue) thr)
  else none

def schedulerSetReady (mem : Memory 32) (thr : BitVec 32) : Option (BitVec 32 × Memory 32) :=
  if ThreadState.ready.code = mem.load32 (field thr .state) then some (kernelOk, mem)
  else (D.addInReadyQueue mem thr true).map fun mem => (kernelOk, mem)

/-- The label `undo_creation`. -/
def undoCreation (fuel : ℕ) (mem : Memory 32) (newThread : BitVec 32) : Option (Memory 32) :=
  let stack := mem.load32 (field newThread .stackBaseAddress)
  (if stack ≠ 0 then D.heapFree fuel mem stack else some mem).bind fun mem =>
    D.heapFree fuel mem newThread

/-- `thread_create`, where no interrupt comes between; the result is the address of the thread or
NULL, and the memory. A name of 0 is NULL. -/
def threadCreate (code : Arch.CodeAddresses) (fuel : ℕ) (mem : Memory 32)
    (name startFunc startArg : BitVec 32) : Option (BitVec 32 × Memory 32) :=
  if startFunc = 0 then some (0, mem)
  else
    (D.heapAlloc fuel mem sizeofThread).bind fun (newThread, mem) =>
      if newThread = 0 then some (0, mem)
      else
        let mem := initializeAttributes mem newThread (if name ≠ 0 then name else D.noName)
        (D.heapAlloc fuel mem threadKernelStackSize).bind fun (stack, mem) =>
          let mem := setStack mem newThread stack
          if mem.load32 (field newThread .stackBaseAddress) = 0 then
            (D.undoCreation fuel mem newThread).map fun mem => (0, mem)
          else
            let mem := D.addThread code mem newThread startFunc startArg
            (D.schedulerSetReady mem newThread).bind fun (status, mem) =>
              if status ≠ kernelOk then
                (D.undoCreation fuel mem newThread).map fun mem => (0, mem)
              else some (newThread, mem)

end calls

section fields

variable {thr : BitVec 32} {f g : ThreadField}

/-- The bytes of a field. -/
def fieldBytes (thr : BitVec 32) (f : ThreadField) : Set (BitVec 32) :=
  Memory.extent (field thr f) f.size

/-- The bytes of a thread structure. -/
def threadBytes (thr : BitVec 32) : Set (BitVec 32) := Memory.extent thr sizeofThread.toNat

theorem offset_add_size (f : ThreadField) : f.offset + f.size ≤ sizeofThread.toNat := by
  cases f <;> decide

theorem fieldBytes_subset (thr : BitVec 32) (f : ThreadField) :
    fieldBytes thr f ⊆ threadBytes thr :=
  Memory.extent_sub (offset_add_size f)

theorem offset_behind (h : f ≠ g) :
    f.offset + f.size ≤ g.offset ∨ g.offset + g.size ≤ f.offset := by
  revert h
  cases f <;> cases g <;> decide

theorem fieldBytes_disjoint (thr : BitVec 32) (h : f ≠ g) :
    Disjoint (fieldBytes thr f) (fieldBytes thr g) := by
  have hf := offset_add_size f
  have hg := offset_add_size g
  have hsize : sizeofThread.toNat = 56 := rfl
  rcases offset_behind h with hbehind | hbehind
  · exact Memory.extent_disjoint hbehind (by omega)
  · exact (Memory.extent_disjoint hbehind (by omega)).symm

/-- A field of one word that lies elsewhere. -/
theorem load_field {region : Set (BitVec 32)} {mem mem' : Memory 32}
    (h : Memory.SameOutside region mem mem') (hsize : f.size = 4)
    (hf : Disjoint (fieldBytes thr f) region) :
    mem'.load32 (field thr f) = mem.load32 (field thr f) := by
  apply h.load32
  rwa [fieldBytes, hsize] at hf

end fields

section strings

variable {dst src : BitVec 32} {len n i : ℕ} {mem : Memory 32} {text : List (BitVec 8)}

/-- The loop writes to the array only, and what it returns early ends with a NUL. -/
theorem strzcpyLoop_spec (hi : i + n ≤ len) :
    Memory.SameOutside (Memory.extent dst len) mem (strzcpyLoop dst src n i mem).2 ∧
      ((strzcpyLoop dst src n i mem).1 = true →
        ∃ j < len, (strzcpyLoop dst src n i mem).2 (dst + BitVec.ofNat 32 j) = 0) := by
  induction n generalizing i mem with
  | zero => exact ⟨.refl _ _, fun h => absurd h (by simp [strzcpyLoop])⟩
  | succ n ih =>
    let mem' := Function.update mem (dst + BitVec.ofNat 32 i) (mem (src + BitVec.ofNat 32 i))
    have hwrite : Memory.SameOutside (Memory.extent dst len) mem mem' :=
      Memory.update_outside mem (Memory.mem_extent_offset (by omega)) _
    have hcopied : mem' (dst + BitVec.ofNat 32 i) = mem' (src + BitVec.ofNat 32 i) := by
      by_cases hsame : src + BitVec.ofNat 32 i = dst + BitVec.ofNat 32 i
      · rw [hsame]
      · simp only [mem', Function.update_self, Function.update_of_ne hsame]
    unfold strzcpyLoop
    by_cases hnul : mem' (src + BitVec.ofNat 32 i) = 0
    · simp only [mem'] at hnul
      simp only [hnul, if_true]
      exact ⟨hwrite, fun _ => ⟨i, by omega, hcopied.trans hnul⟩⟩
    · simp only [mem'] at hnul
      simp only [hnul, if_false]
      obtain ⟨hout, hend⟩ := @ih (i + 1) mem' (by omega)
      exact ⟨hwrite.trans hout, hend⟩

/-- `strzcpy` writes to the array only, and leaves a NUL in it. -/
theorem strzcpy_spec (mem : Memory 32) (dst src : BitVec 32) (hpos : 0 < len) :
    Memory.SameOutside (Memory.extent dst len) mem (strzcpy mem dst src len) ∧
      ∃ i < len, strzcpy mem dst src len (dst + BitVec.ofNat 32 i) = 0 := by
  obtain ⟨hout, hend⟩ := @strzcpyLoop_spec dst src len len 0 mem (by omega)
  rw [strzcpy, if_neg hpos.ne']
  rcases hloop : strzcpyLoop dst src len 0 mem with ⟨returned, mem'⟩
  rw [hloop] at hout hend
  cases returned with
  | true => exact ⟨hout, hend rfl⟩
  | false =>
    have hlast : dst + BitVec.ofNat 32 (len - 1) ∈ Memory.extent dst len :=
      Memory.mem_extent_offset (by omega)
    exact ⟨hout.trans (Memory.update_outside mem' hlast 0), len - 1, by omega,
      Function.update_self ..⟩

/-- A string that lies elsewhere is copied; the loop returns when its NUL fits in. -/
theorem strzcpyLoop_copies (hi : i + n = len) (hlen : len ≤ 2 ^ 32) (hle : i ≤ text.length)
    (hsrc : mem.Holds src (text ++ [0])) (hnonzero : ∀ c ∈ text, c ≠ 0)
    (hapart : Disjoint (Memory.extent src (text ++ [0]).length) (Memory.extent dst len))
    (hdone : mem.Holds dst (text.take i)) :
    (strzcpyLoop dst src n i mem).2.Holds dst ((text ++ [0]).take len) ∧
      (strzcpyLoop dst src n i mem).1 = decide (text.length < len) := by
  induction n generalizing i mem with
  | zero =>
    obtain rfl : i = len := hi
    rw [strzcpyLoop, List.take_append_of_le_length hle, decide_eq_false (by omega)]
    exact ⟨hdone, rfl⟩
  | succ n ih =>
    have hlength : (text ++ [0]).length = text.length + 1 := List.length_append
    have hlt : i < (text ++ [0]).length := by omega
    let mem' : Memory 32 :=
      Function.update mem (dst + BitVec.ofNat 32 i) (mem (src + BitVec.ofNat 32 i))
    have hwrite : Memory.SameOutside (Memory.extent dst len) mem mem' :=
      Memory.update_outside mem (Memory.mem_extent_offset (by omega)) _
    have hsrc' : mem'.Holds src (text ++ [0]) := hwrite.holds hapart hsrc
    have hbyte : mem' (src + BitVec.ofNat 32 i) = (text ++ [0])[i] :=
      Memory.holds_iff.mp hsrc' i hlt
    have hdone' : mem'.Holds dst ((text ++ [0]).take (i + 1)) := by
      rw [← List.take_append_getElem hlt, List.take_append_of_le_length hle, Memory.holds_append,
        List.length_take_of_le hle]
      refine ⟨hdone.congr fun j hj => Function.update_of_ne ?_ _ _, ?_, trivial⟩
      · rw [List.length_take] at hj
        exact Memory.offset_ne (by omega) (by omega) (by omega)
      · exact (Function.update_self ..).trans (Memory.holds_iff.mp hsrc i hlt)
    unfold strzcpyLoop
    change (if mem' (src + BitVec.ofNat 32 i) = 0 then _ else _ : Bool × Memory 32).2.Holds _ _ ∧
      (if mem' (src + BitVec.ofNat 32 i) = 0 then _ else _ : Bool × Memory 32).1 = _
    rw [hbyte]
    rcases hle.eq_or_lt with rfl | hmore
    · rw [List.getElem_concat_length rfl, if_pos rfl, decide_eq_true (by omega)]
      rw [List.take_of_length_le (by omega)] at hdone' ⊢
      exact ⟨hdone', rfl⟩
    · have hchar : (text ++ [0])[i] = text[i] := List.getElem_append_left hmore
      rw [hchar, if_neg (hnonzero _ (List.getElem_mem hmore))]
      rw [List.take_append_of_le_length hmore] at hdone'
      exact ih (by omega) hmore hsrc' hdone'

/-- `strzcpy` copies a string that lies elsewhere, as far as there is room. -/
theorem strzcpy_copies (hpos : 0 < len) (hlen : len ≤ 2 ^ 32) (hsrc : mem.Holds src (text ++ [0]))
    (hnonzero : ∀ c ∈ text, c ≠ 0)
    (hapart : Disjoint (Memory.extent src (text ++ [0]).length) (Memory.extent dst len)) :
    (strzcpy mem dst src len).Holds dst (text.take (len - 1) ++ [0]) := by
  obtain ⟨hcopied, hreturned⟩ := @strzcpyLoop_copies dst src len len 0 mem text (by omega) hlen
    (Nat.zero_le _) hsrc hnonzero hapart trivial
  rw [strzcpy, if_neg hpos.ne']
  rcases hloop : strzcpyLoop dst src len 0 mem with ⟨returned, mem'⟩
  rw [hloop] at hcopied hreturned
  dsimp only at hcopied hreturned
  by_cases hfits : text.length < len
  · rw [decide_eq_true hfits] at hreturned
    rw [List.take_of_length_le (by simpa using Nat.succ_le_of_lt hfits)] at hcopied
    rw [hreturned, List.take_of_length_le (by omega)]
    exact hcopied
  · rw [decide_eq_false hfits] at hreturned
    rw [hreturned, Memory.holds_append, List.length_take_of_le (by omega)]
    have hshort : mem'.Holds dst (text.take (len - 1)) := by
      rw [List.take_append_of_le_length (by omega),
        ← List.take_append_drop (len - 1) (text.take len), List.take_take,
        Nat.min_eq_left (by omega)] at hcopied
      exact (Memory.holds_append.mp hcopied).1
    refine ⟨hshort.congr fun j hj => Function.update_of_ne ?_ _ _, Function.update_self .., trivial⟩
    rw [List.length_take] at hj
    exact Memory.offset_ne (by omega) (by omega) (by omega)

end strings

section steps

variable (mem : Memory 32) (thr stack name : BitVec 32)

theorem initializeAttributes_outside :
    Memory.SameOutside (fieldBytes thr .name ∪ fieldBytes thr .state) mem
      (initializeAttributes mem thr name) := by
  have hname := (strzcpy_spec mem (field thr .name) name (show 0 < threadMaxNamelen by decide)).1
  exact (hname.mono fun _ hc => .inl hc).trans
    ((Memory.store32_outside _ _ _).mono fun _ hc => .inr hc)

theorem initializeAttributes_state :
    (initializeAttributes mem thr name).load32 (field thr .state) = ThreadState.created.code :=
  Memory.load32_store32 ..

theorem initializeAttributes_name : ∃ i < threadMaxNamelen,
    initializeAttributes mem thr name (field thr .name + BitVec.ofNat 32 i) = 0 := by
  obtain ⟨i, hi, hnul⟩ := (strzcpy_spec mem (field thr .name) name
    (show 0 < threadMaxNamelen by decide)).2
  refine ⟨i, hi, ?_⟩
  have hmem : field thr .name + BitVec.ofNat 32 i ∈ fieldBytes thr .name :=
    Memory.mem_extent_offset hi
  have hnot : field thr .name + BitVec.ofNat 32 i ∉ fieldBytes thr .state :=
    Set.disjoint_left.mp (fieldBytes_disjoint thr (by decide)) hmem
  exact (Memory.store32_outside _ _ _ _ hnot).trans hnul

/-- The name is the given string, cut to the size of the array. -/
theorem initializeAttributes_copies {text : List (BitVec 8)} (hname : mem.Holds name (text ++ [0]))
    (hnonzero : ∀ c ∈ text, c ≠ 0)
    (hapart : Disjoint (Memory.extent name (text ++ [0]).length) (fieldBytes thr .name)) :
    (initializeAttributes mem thr name).Holds (field thr .name)
      (text.take (threadMaxNamelen - 1) ++ [0]) := by
  have hcopied := strzcpy_copies (show 0 < threadMaxNamelen by decide) (by decide) hname hnonzero
    hapart
  refine (Memory.store32_outside _ _ _).holds ?_ hcopied
  refine (fieldBytes_disjoint thr (f := .name) (by decide)).mono_left (Memory.extent_mono ?_)
  rw [List.length_append, List.length_take, List.length_singleton]
  exact Nat.succ_le_of_lt (Nat.lt_of_le_of_lt (Nat.min_le_left _ _) (by decide))

theorem setStack_outside :
    Memory.SameOutside (fieldBytes thr .stackBaseAddress ∪ fieldBytes thr .stackSize) mem
      (setStack mem thr stack) :=
  ((Memory.store32_outside _ _ _).mono fun _ hc => .inl hc).trans
    ((Memory.store32_outside _ _ _).mono fun _ hc => .inr hc)

theorem setStack_size :
    (setStack mem thr stack).load32 (field thr .stackSize) = threadKernelStackSize :=
  Memory.load32_store32 ..

theorem setStack_baseAddress :
    (setStack mem thr stack).load32 (field thr .stackBaseAddress) = stack := by
  have hout := Memory.store32_outside
    (mem.store32 (field thr .stackBaseAddress) stack) (field thr .stackSize) threadKernelStackSize
  have hapart : Disjoint (fieldBytes thr .stackBaseAddress) (fieldBytes thr .stackSize) :=
    fieldBytes_disjoint thr (by decide)
  exact (load_field hout rfl hapart).trans (Memory.load32_store32 ..)

end steps

section lists

variable {D : KernelData} {code : Arch.CodeAddresses} {mem : Memory 32} {list : ThreadList}
  {thr stack : BitVec 32}

/-- The bytes of a stack. -/
def stackBytes (stack : BitVec 32) : Set (BitVec 32) :=
  Memory.extent stack threadKernelStackSize.toNat

/-- The word at the end of a list, and the pointer to it. -/
def tailBytes (D : KernelData) (mem : Memory 32) (list : ThreadList) : Set (BitVec 32) :=
  Memory.extent (mem.load32 (D.threadList list + 4)) 4 ∪ Memory.extent (D.threadList list + 4) 4

theorem insertTail_outside (hthr : Disjoint (threadBytes thr) (D.tailBytes mem list)) :
    Memory.SameOutside (fieldBytes thr .next ∪ D.tailBytes mem list) mem
      (mem.tailqInsertTail next (D.threadList list) thr) := by
  apply Memory.tailqInsertTail_outside
  exact hthr.mono (fieldBytes_subset thr .next) fun _ hc => .inr hc

/-- The first context of a thread goes to its stack. -/
theorem cpuKstateInit_spec (code : Arch.CodeAddresses) (mem : Memory 32)
    (thr stack startFunc startArg : BitVec 32) :
    Memory.SameOutside (stackBytes stack ∪ fieldBytes thr .cpuState) mem
        (Arch.cpuKstateInit code mem (field thr .cpuState) startFunc startArg stack
          threadKernelStackSize) ∧
      (Arch.cpuKstateInit code mem (field thr .cpuState) startFunc startArg stack
        threadKernelStackSize).load32 (field thr .cpuState) =
        Arch.kstateAddress stack threadKernelStackSize := by
  refine ⟨fun c hc => ?_, Memory.load32_store32 ..⟩
  rw [Set.mem_union, not_or] at hc
  refine Arch.cpuKstateInit_outside code mem _ _ _ _ _ (by decide) hc.1 fun j hj he => hc.2 ?_
  rw [he]
  exact Memory.mem_extent_offset hj

/-- The context goes to the stack, and the thread to the end of the list. -/
theorem addThread_spec (startFunc startArg : BitVec 32)
    (hbase : mem.load32 (field thr .stackBaseAddress) = stack)
    (hsize : mem.load32 (field thr .stackSize) = threadKernelStackSize)
    (hthr : Disjoint (threadBytes thr) (D.tailBytes mem .kernelThreads))
    (hstack : Disjoint (stackBytes stack) (D.tailBytes mem .kernelThreads)) :
    Memory.SameOutside (stackBytes stack ∪ fieldBytes thr .cpuState ∪
        (fieldBytes thr .next ∪ D.tailBytes mem .kernelThreads)) mem
        (D.addThread code mem thr startFunc startArg) ∧
      (D.addThread code mem thr startFunc startArg).load32 (field thr .cpuState) =
        Arch.kstateAddress stack threadKernelStackSize := by
  obtain ⟨hinit, hctx⟩ := cpuKstateInit_spec code mem thr stack startFunc startArg
  have hlast : Disjoint (Memory.extent (D.threadList .kernelThreads + 4) 4)
      (stackBytes stack ∪ fieldBytes thr .cpuState) := by
    have hsub : Memory.extent (D.threadList .kernelThreads + 4) 4 ⊆
        D.tailBytes mem .kernelThreads := fun _ hc => .inr hc
    refine (Disjoint.union_left ?_ ?_).symm
    · exact hstack.mono_right hsub
    · exact hthr.mono (fieldBytes_subset thr .cpuState) hsub
  rw [addThread, hbase, hsize]
  generalize Arch.cpuKstateInit code mem (field thr .cpuState) startFunc startArg stack
    threadKernelStackSize = mem' at *
  have htail : D.tailBytes mem' .kernelThreads = D.tailBytes mem .kernelThreads := by
    rw [tailBytes, tailBytes, hinit.load32 hlast]
  have hinsert := @insertTail_outside D mem' .kernelThreads thr (by rwa [htail])
  rw [htail] at hinsert
  constructor
  · exact (hinit.mono fun _ hc => .inl hc).trans (hinsert.mono fun _ hc => .inr hc)
  · have hapart : Disjoint (fieldBytes thr .cpuState)
        (fieldBytes thr .next ∪ D.tailBytes mem .kernelThreads) := by
      refine Disjoint.union_right (fieldBytes_disjoint thr (by decide)) ?_
      exact hthr.mono_left (fieldBytes_subset thr .cpuState)
    rw [load_field hinsert rfl hapart]
    exact hctx

/-- The thread is ready, and at the end of the queue. -/
def readied (D : KernelData) (mem : Memory 32) (thr : BitVec 32) : Memory 32 :=
  (mem.store32 (field thr .state) ThreadState.ready.code).tailqInsertTail next
    (D.threadList .readyThreadsQueue) thr

theorem schedulerSetReady_created
    (hstate : mem.load32 (field thr .state) = ThreadState.created.code) :
    D.schedulerSetReady mem thr = some (kernelOk, D.readied mem thr) := by
  rw [schedulerSetReady, addInReadyQueue, hstate, if_neg (by decide), if_pos (.inl rfl)]
  rfl

theorem readied_spec (hthr : Disjoint (threadBytes thr) (D.tailBytes mem .readyThreadsQueue)) :
    Memory.SameOutside (fieldBytes thr .state ∪
        (fieldBytes thr .next ∪ D.tailBytes mem .readyThreadsQueue)) mem (D.readied mem thr) ∧
      (D.readied mem thr).load32 (field thr .state) = ThreadState.ready.code := by
  let mem' := mem.store32 (field thr .state) ThreadState.ready.code
  have hstate : Memory.SameOutside (fieldBytes thr .state) mem mem' :=
    Memory.store32_outside _ _ _
  have hlast : Disjoint (Memory.extent (D.threadList .readyThreadsQueue + 4) 4)
      (fieldBytes thr .state) := by
    refine (hthr.mono (fieldBytes_subset thr .state) ?_).symm
    exact fun _ hc => .inr hc
  have htail : D.tailBytes mem' .readyThreadsQueue = D.tailBytes mem .readyThreadsQueue := by
    rw [tailBytes, tailBytes, hstate.load32 hlast]
  have hinsert := @insertTail_outside D mem' .readyThreadsQueue thr (by rwa [htail])
  rw [htail] at hinsert
  constructor
  · exact (hstate.mono fun _ hc => .inl hc).trans (hinsert.mono fun _ hc => .inr hc)
  · have hapart : Disjoint (fieldBytes thr .state)
        (fieldBytes thr .next ∪ D.tailBytes mem .readyThreadsQueue) := by
      refine Disjoint.union_right (fieldBytes_disjoint thr (by decide)) ?_
      exact hthr.mono_left (fieldBytes_subset thr .state)
    exact (load_field hinsert rfl hapart).trans (Memory.load32_store32 ..)

end lists

end KernelData

end Einherjar.Threading
