import Einherjar.Threading.ThreadMemory

/-! A creation is all or nothing: when one of the two allocations fails, the other one is undone. -/
namespace Einherjar.Threading
open Einherjar.Lib Einherjar.Memory

namespace KernelData

/-- The first `n` threads that a walk from a pointer visits. -/
def threadsFrom (mem : Memory 32) : ℕ → BitVec 32 → List (BitVec 32)
  | 0, _ => []
  | n + 1, thr => if thr = 0 then [] else thr :: threadsFrom mem n (mem.load32 (field thr .next))

variable (D : KernelData)

def threadsOn (mem : Memory 32) (n : ℕ) (list : ThreadList) : List (BitVec 32) :=
  threadsFrom mem n (mem.load32 (D.threadList list))

/-- The bytes of the two lists: their heads, the words at their ends, and the link fields of their
threads. -/
def listBytes (mem : Memory 32) : Set (BitVec 32) :=
  { c | ∃ list, c ∈ Memory.extent (D.threadList list) 8 ∨ c ∈ D.tailBytes mem list ∨
    ∃ n, ∃ thr ∈ D.threadsOn mem n list, c ∈ fieldBytes thr .next }

/-- The bytes that free ranges cover. -/
def freeBytes (mem : Memory 32) : Set (BitVec 32) :=
  { c | c.toNat ∈ coveredFree (D.heapOf mem) }

/-- The bytes of the allocator's variables and descriptors, with the descriptors that
`thread_create` may make. -/
def heapBytes (mem : Memory 32) : Set (BitVec 32) :=
  D.data (HeapData.descriptors 2 (D.heapOf mem))

/-- The lists of threads overlap neither the allocator's data nor free ranges, and the end of one of
them is not the pointer to the end of the other. -/
structure ListsPlaced (mem : Memory 32) : Prop where
  outside : ∀ c ∈ D.listBytes mem, c ∉ D.heapBytes mem ∧ c ∉ D.freeBytes mem
  apart : Disjoint (D.tailBytes mem .kernelThreads)
    (Memory.extent (D.threadList .readyThreadsQueue + 4) 4)

/-- Nothing that the rest of the kernel sees has changed. -/
structure Unchanged (mem mem' : Memory 32) : Prop where
  threads : ∀ n list, D.threadsOn mem' n list = D.threadsOn mem n list
  lists : ∀ c ∈ D.listBytes mem, mem' c = mem c
  live : liveChunks (D.heapOf mem') = liveChunks (D.heapOf mem)
  free : coveredFree (D.heapOf mem') = coveredFree (D.heapOf mem)

/-- The stack of a thread, as a chunk. -/
def stackOf (mem : Memory 32) (thr : BitVec 32) : MemoryRange :=
  ⟨mem.load32 (field thr .stackBaseAddress), threadKernelStackSize⟩

/-- The thread and its stack are the two new chunks, and the thread is ready to run on its stack. -/
structure HasThread (mem mem' : Memory 32) (thr : BitVec 32) : Prop where
  live : liveChunks (D.heapOf mem') =
    insert (stackOf mem' thr) (insert ⟨thr, sizeofThread⟩ (liveChunks (D.heapOf mem)))
  freshThread : (⟨thr, sizeofThread⟩ : MemoryRange) ∉ liveChunks (D.heapOf mem)
  freshStack : stackOf mem' thr ∉ insert ⟨thr, sizeofThread⟩ (liveChunks (D.heapOf mem))
  name : ∃ i < threadMaxNamelen, mem' (field thr .name + BitVec.ofNat 32 i) = 0
  ready : mem'.load32 (field thr .state) = ThreadState.ready.code
  context : ∀ i < Arch.sizeofCpuKstate,
    (mem'.load32 (field thr .cpuState)).toNat + i ∈ (stackOf mem' thr).bytes

/-- A call that returns NULL changes nothing; otherwise there is a new thread. -/
def AllOrNothing (mem mem' : Memory 32) (r : BitVec 32) : Prop :=
  if r = 0 then D.Unchanged mem mem' else D.HasThread mem mem' r

section calls

variable {D} {code : Arch.CodeAddresses} {fuel : ℕ} {mem mem₁ mem₂ mem₃ : Memory 32}
  {name startFunc startArg thr stack : BitVec 32}

theorem threadCreate_noThread (hf : startFunc ≠ 0)
    (h : D.heapAlloc fuel mem sizeofThread = some (0, mem₁)) :
    D.threadCreate code fuel mem name startFunc startArg = some (0, mem₁) := by
  rw [threadCreate, if_neg hf, h]
  rfl

/-- The memory after the second call of `malloc`, and the memory after the call of `free`. -/
theorem threadCreate_noStack (hf : startFunc ≠ 0)
    (h₁ : D.heapAlloc fuel mem sizeofThread = some (thr, mem₁)) (hthr : thr ≠ 0)
    (h₂ : D.heapAlloc fuel (initializeAttributes mem₁ thr (if name ≠ 0 then name else D.noName))
      threadKernelStackSize = some (0, mem₂))
    (h₃ : D.heapFree fuel (setStack mem₂ thr 0) thr = some mem₃) :
    D.threadCreate code fuel mem name startFunc startArg = some (0, mem₃) := by
  have hbase := setStack_baseAddress mem₂ thr 0
  rw [threadCreate, if_neg hf, h₁]
  simp only [Option.bind_some, if_neg hthr, h₂, hbase, if_true, undoCreation, ne_eq,
    not_true_eq_false, if_false, h₃, Option.map_some]

theorem threadCreate_created (hf : startFunc ≠ 0)
    (h₁ : D.heapAlloc fuel mem sizeofThread = some (thr, mem₁)) (hthr : thr ≠ 0)
    (h₂ : D.heapAlloc fuel (initializeAttributes mem₁ thr (if name ≠ 0 then name else D.noName))
      threadKernelStackSize = some (stack, mem₂)) (hs : stack ≠ 0)
    (hstate : (D.addThread code (setStack mem₂ thr stack) thr startFunc startArg).load32
      (field thr .state) = ThreadState.created.code) :
    D.threadCreate code fuel mem name startFunc startArg =
      some (thr, D.readied (D.addThread code (setStack mem₂ thr stack) thr startFunc startArg)
        thr) := by
  have hbase := setStack_baseAddress mem₂ thr stack
  rw [threadCreate, if_neg hf, h₁]
  simp only [Option.bind_some, if_neg hthr, h₂, hbase, if_neg hs,
    schedulerSetReady_created hstate]
  rfl

end calls

section unchanged

variable {D} {mem mem' : Memory 32}

theorem threadsFrom_congr {n : ℕ} {thr : BitVec 32}
    (h : ∀ t ∈ threadsFrom mem n thr, mem'.load32 (field t .next) = mem.load32 (field t .next)) :
    threadsFrom mem' n thr = threadsFrom mem n thr := by
  induction n generalizing thr with
  | zero => rfl
  | succ n ih =>
    unfold threadsFrom at h ⊢
    by_cases hthr : thr = 0
    · rw [if_pos hthr, if_pos hthr]
    · rw [if_neg hthr] at h
      rw [if_neg hthr, if_neg hthr, h thr List.mem_cons_self,
        ih fun t ht => h t (List.mem_cons_of_mem _ ht)]

/-- What stays within the allocator's data and the free ranges leaves the lists of threads alone. -/
theorem ListsPlaced.unchanged (h : D.ListsPlaced mem)
    (hsame : Memory.SameOutside (D.heapBytes mem ∪ D.freeBytes mem) mem mem')
    (hlive : liveChunks (D.heapOf mem') = liveChunks (D.heapOf mem))
    (hfree : coveredFree (D.heapOf mem') = coveredFree (D.heapOf mem)) : D.Unchanged mem mem' := by
  have hlists : ∀ c ∈ D.listBytes mem, mem' c = mem c := by
    intro c hc
    obtain ⟨hheap, hfree⟩ := h.outside c hc
    exact hsame c fun hm => hm.elim hheap hfree
  refine ⟨fun n list => ?_, hlists, hlive, hfree⟩
  have hhead : mem'.load32 (D.threadList list) = mem.load32 (D.threadList list) :=
    Memory.load32_congr fun c hc =>
      hlists c ⟨list, .inl (Memory.extent_mono (show 4 ≤ 8 by omega) hc)⟩
  rw [threadsOn, threadsOn, hhead]
  refine threadsFrom_congr fun t ht => Memory.load32_congr fun c hc => ?_
  exact hlists c ⟨list, .inr (.inr ⟨n, t, ht, Memory.extent_mono (show 4 ≤ 8 by omega) hc⟩)⟩

end unchanged

end KernelData

/-- The first context of a thread lies in its stack. -/
theorem kstateAddress_mem {stack : BitVec 32}
    (hproper : MemoryRange.Proper ⟨stack, threadKernelStackSize⟩) {i : ℕ}
    (hi : i < Arch.sizeofCpuKstate) :
    (Arch.kstateAddress stack threadKernelStackSize).toNat + i ∈
      MemoryRange.bytes ⟨stack, threadKernelStackSize⟩ := by
  have hsize : threadKernelStackSize.toNat = 4096 := rfl
  have htop : stack.toNat + threadKernelStackSize.toNat ≤ 2 ^ 32 := hproper.2
  have hkstate : (Arch.kstateAddress stack threadKernelStackSize).toNat = stack.toNat + 4028 := by
    rw [Arch.kstateAddress_eq]
    bv_omega
  rw [Arch.sizeofCpuKstate_eq] at hi
  change stack.toNat ≤ _ ∧ _ < stack.toNat + threadKernelStackSize.toNat
  omega

namespace KernelData

section created

variable {D : KernelData} {code : Arch.CodeAddresses} {mem mem₁ mem' : Memory 32}
  {startFunc startArg thr stack : BitVec 32}

/-- The fields of a thread before it is added to the lists, with the name as it is in the first
memory. -/
structure Initialized (named mem : Memory 32) (thr stack : BitVec 32) : Prop where
  stackBaseAddress : mem.load32 (field thr .stackBaseAddress) = stack
  stackSize : mem.load32 (field thr .stackSize) = threadKernelStackSize
  name : ∀ c ∈ fieldBytes thr .name, mem c = named c
  state : mem.load32 (field thr .state) = ThreadState.created.code

/-- The bytes that a thread and its stack get are of free ranges, and apart from each other. -/
structure Chunks (D : KernelData) (mem : Memory 32) (thr stack : BitVec 32) : Prop where
  threadFree : threadBytes thr ⊆ D.freeBytes mem
  stackFree : stackBytes stack ⊆ D.freeBytes mem
  apart : Disjoint (threadBytes thr) (stackBytes stack)

theorem tailBytes_subset (D : KernelData) (mem : Memory 32) (list : ThreadList) :
    D.tailBytes mem list ⊆ D.listBytes mem := fun _ hc => ⟨list, .inr (.inl hc)⟩

theorem ListsPlaced.disjoint (h : D.ListsPlaced mem) :
    Disjoint (D.listBytes mem) (D.heapBytes mem ∪ D.freeBytes mem) :=
  Set.disjoint_left.mpr fun c hc hm => hm.elim (h.outside c hc).1 (h.outside c hc).2

/-- The ends of the lists are where they were. -/
theorem ListsPlaced.tailBytes_eq (h : D.ListsPlaced mem)
    (hsame : Memory.SameOutside (D.heapBytes mem ∪ D.freeBytes mem) mem mem') (list : ThreadList) :
    D.tailBytes mem' list = D.tailBytes mem list := by
  have hlast : Disjoint (Memory.extent (D.threadList list + 4) 4)
      (D.heapBytes mem ∪ D.freeBytes mem) := by
    refine h.disjoint.mono_left (Set.Subset.trans ?_ (D.tailBytes_subset mem list))
    exact fun _ hc => .inr hc
  rw [tailBytes, tailBytes, hsame.load32 hlast]

theorem ListsPlaced.apart_of_free (h : D.ListsPlaced mem) {bytes : Set (BitVec 32)}
    (hfree : bytes ⊆ D.freeBytes mem) (list : ThreadList) :
    Disjoint bytes (D.tailBytes mem list) :=
  (h.disjoint.mono (D.tailBytes_subset mem list) (hfree.trans Set.subset_union_right)).symm

/-- An insertion in a list leaves the other fields of the thread alone. -/
theorem Chunks.field_apart (h : D.Chunks mem thr stack) (hl : D.ListsPlaced mem)
    {f : ThreadField} (list : ThreadList) (hnext : f ≠ .next) :
    Disjoint (fieldBytes thr f) (fieldBytes thr .next ∪ D.tailBytes mem list) :=
  Disjoint.union_right (fieldBytes_disjoint thr hnext)
    (hl.apart_of_free ((fieldBytes_subset thr f).trans h.threadFree) list)

/-- What the creation writes after the second allocation has succeeded. -/
def addedBytes (D : KernelData) (mem : Memory 32) (thr stack : BitVec 32) : Set (BitVec 32) :=
  stackBytes stack ∪ fieldBytes thr .cpuState ∪
    (fieldBytes thr .next ∪ D.tailBytes mem .kernelThreads)

def readiedBytes (D : KernelData) (mem : Memory 32) (thr : BitVec 32) : Set (BitVec 32) :=
  fieldBytes thr .state ∪ (fieldBytes thr .next ∪ D.tailBytes mem .readyThreadsQueue)

theorem Chunks.field_added (h : D.Chunks mem thr stack) (hl : D.ListsPlaced mem) {f : ThreadField}
    (hcpu : f ≠ .cpuState) (hnext : f ≠ .next) :
    Disjoint (fieldBytes thr f) (D.addedBytes mem thr stack) :=
  Disjoint.union_right
    (Disjoint.union_right (h.apart.mono_left (fieldBytes_subset thr f))
      (fieldBytes_disjoint thr hcpu))
    (h.field_apart hl _ hnext)

theorem Chunks.field_readied (h : D.Chunks mem thr stack) (hl : D.ListsPlaced mem) {f : ThreadField}
    (hstate : f ≠ .state) (hnext : f ≠ .next) :
    Disjoint (fieldBytes thr f) (D.readiedBytes mem thr) :=
  Disjoint.union_right (fieldBytes_disjoint thr hstate) (h.field_apart hl _ hnext)

/-- The thread is initialized, ready, and has its first context on its stack. -/
structure Started (mem : Memory 32) (thr stack : BitVec 32) : Prop where
  stackBaseAddress : mem.load32 (field thr .stackBaseAddress) = stack
  name : ∃ i < threadMaxNamelen, mem (field thr .name + BitVec.ofNat 32 i) = 0
  state : mem.load32 (field thr .state) = ThreadState.ready.code
  cpuState : mem.load32 (field thr .cpuState) = Arch.kstateAddress stack threadKernelStackSize

/-- Behind the second allocation: `mem` is the memory before the call. -/
theorem Initialized.added {name : BitVec 32}
    (h : Initialized (initializeAttributes mem₁ thr name) mem' thr stack) (hl : D.ListsPlaced mem)
    (hc : D.Chunks mem thr stack)
    (hsame : Memory.SameOutside (D.heapBytes mem ∪ D.freeBytes mem) mem mem') :
    (D.addThread code mem' thr startFunc startArg).load32 (field thr .state) =
        ThreadState.created.code ∧
      Started (D.readied (D.addThread code mem' thr startFunc startArg) thr) thr stack ∧
      Memory.SameOutside (D.addedBytes mem thr stack ∪ D.readiedBytes mem thr) mem'
        (D.readied (D.addThread code mem' thr startFunc startArg) thr) := by
  have htails := hl.tailBytes_eq hsame
  have hthr := hl.apart_of_free hc.threadFree
  have hstack := hl.apart_of_free hc.stackFree
  obtain ⟨hadd, hctx⟩ := @addThread_spec D code mem' thr stack startFunc startArg
    h.stackBaseAddress h.stackSize (by rw [htails]; exact hthr _) (by rw [htails]; exact hstack _)
  rw [htails] at hadd
  -- The end of the ready queue is still where it was
  have hlast : Disjoint (Memory.extent (D.threadList .readyThreadsQueue + 4) 4)
      (D.addedBytes mem thr stack) := by
    have hsub : Memory.extent (D.threadList .readyThreadsQueue + 4) 4 ⊆
        D.tailBytes mem .readyThreadsQueue := fun _ hc => .inr hc
    refine Disjoint.union_right (Disjoint.union_right ?_ ?_) (Disjoint.union_right ?_ ?_)
    · exact ((hstack _).mono_right hsub).symm
    · exact ((hthr _).mono (fieldBytes_subset thr _) hsub).symm
    · exact ((hthr _).mono (fieldBytes_subset thr _) hsub).symm
    · exact hl.apart.symm
  have htail : D.tailBytes (D.addThread code mem' thr startFunc startArg) .readyThreadsQueue =
      D.tailBytes mem .readyThreadsQueue := by
    rw [← htails, tailBytes, tailBytes, hadd.load32 hlast]
  obtain ⟨hready, hstate⟩ := @readied_spec D
    (D.addThread code mem' thr startFunc startArg) thr (by rw [htail]; exact hthr _)
  rw [htail] at hready
  generalize D.addThread code mem' thr startFunc startArg = mem₅ at *
  replace hadd : Memory.SameOutside (D.addedBytes mem thr stack) mem' mem₅ := hadd
  replace hready : Memory.SameOutside (D.readiedBytes mem thr) mem₅ (D.readied mem₅ thr) := hready
  refine ⟨?_, ⟨?_, ?_, hstate, ?_⟩, ?_⟩
  · have hapart := hc.field_added hl (f := .state) (by decide) (by decide)
    exact (load_field hadd rfl hapart).trans h.state
  · have hapart := hc.field_added hl (f := .stackBaseAddress) (by decide) (by decide)
    have hapart' := hc.field_readied hl (f := .stackBaseAddress) (by decide) (by decide)
    rw [load_field hready rfl hapart', load_field hadd rfl hapart]
    exact h.stackBaseAddress
  · obtain ⟨i, hi, hnul⟩ := initializeAttributes_name mem₁ thr name
    have hmem : field thr .name + BitVec.ofNat 32 i ∈ fieldBytes thr .name :=
      Memory.mem_extent_offset hi
    have hadded := Set.disjoint_left.mp
      (hc.field_added hl (f := .name) (by decide) (by decide)) hmem
    have hreadied := Set.disjoint_left.mp
      (hc.field_readied hl (f := .name) (by decide) (by decide)) hmem
    refine ⟨i, hi, (hready _ hreadied).trans ((hadd _ hadded).trans ?_)⟩
    exact (h.name _ hmem).trans hnul
  · have hapart := hc.field_readied hl (f := .cpuState) (by decide) (by decide)
    exact (load_field hready rfl hapart).trans hctx
  · exact (hadd.mono fun _ hc => .inl hc).trans (hready.mono fun _ hc => .inr hc)

end created

section outcome

variable {D : KernelData} {code : Arch.CodeAddresses} {mem mem₁ mem₂ mem₃ : Memory 32} {fuel : ℕ}
  {name startFunc startArg thr stack : BitVec 32} {s s₁ s₂ : HeapState}
  {fs us fs₁ us₁ fs₂ us₂ : List (BitVec 32)}

/-- The heap in the memory `mem'`, as it has become from the one in `mem`. -/
abbrev HeapFrom (D : KernelData) (mem : Memory 32) (n : ℕ) (start mem' : Memory 32) (s : HeapState)
    (fs us : List (BitVec 32)) : Prop :=
  D.HeapIn (HeapData.descriptors 2 (D.heapOf mem)) (covered (D.heapOf mem)) n start mem' s fs us

theorem initialized (name stack : BitVec 32)
    (hsame : Memory.SameOutside (D.heapBytes mem) (initializeAttributes mem₁ thr name) mem₂)
    (hthread : Disjoint (threadBytes thr) (D.heapBytes mem)) :
    Initialized (initializeAttributes mem₁ thr name) (setStack mem₂ thr stack) thr stack := by
  have hset := setStack_outside mem₂ thr stack
  have hapart : ∀ f : ThreadField, f ≠ .stackBaseAddress → f ≠ .stackSize →
      Disjoint (fieldBytes thr f) (fieldBytes thr .stackBaseAddress ∪ fieldBytes thr .stackSize) :=
    fun f hbase hsize => Disjoint.union_right (fieldBytes_disjoint thr hbase)
      (fieldBytes_disjoint thr hsize)
  have hfield : ∀ f, Disjoint (fieldBytes thr f) (D.heapBytes mem) :=
    fun f => hthread.mono_left (fieldBytes_subset thr f)
  constructor
  case stackBaseAddress => exact setStack_baseAddress mem₂ thr stack
  case stackSize => exact setStack_size mem₂ thr stack
  case name =>
    intro c hc
    rw [hset c (Set.disjoint_left.mp (hapart .name (by decide) (by decide)) hc),
      hsame c (Set.disjoint_left.mp (hfield .name) hc)]
  case state =>
    rw [load_field hset rfl (hapart .state (by decide) (by decide)),
      load_field hsame rfl (hfield .state)]
    exact initializeAttributes_state mem₁ thr name

/-- The second call of `malloc`, with the thread filled in before and after it. -/
theorem allocates_stack (hplaced : D.Placed 2 mem) (h₁ : D.HeapFrom mem 1 mem mem₁ s₁ fs₁ us₁)
    (hthread : threadBytes thr ⊆ D.freeBytes mem) (name : BitVec 32)
    (hfuel : fs₁.length + us₁.length < fuel) :
    ∃ stack mem₂ s₂ fs₂ us₂,
      D.heapAlloc fuel (initializeAttributes mem₁ thr name) threadKernelStackSize =
        some (stack, mem₂) ∧
      D.HeapFrom mem 0 (setStack mem₂ thr stack) (setStack mem₂ thr stack) s₂ fs₂ us₂ ∧
      fs₂.length + us₂.length ≤ fs₁.length + us₁.length + 1 ∧
      Memory.SameOutside (D.heapBytes mem ∪ D.freeBytes mem) mem (setStack mem₂ thr stack) ∧
      Initialized (initializeAttributes mem₁ thr name) (setStack mem₂ thr stack) thr stack ∧
      (stack = 0 ∧ s₂ = s₁ ∨ stack ≠ 0 ∧ TakesChunk s₁ ⟨stack, threadKernelStackSize⟩ s₂) := by
  have hapart : Disjoint (D.heapBytes mem) (threadBytes thr) :=
    Disjoint.mono_right hthread (Set.disjoint_left.mpr hplaced.free)
  have hattributes : Memory.SameOutside (threadBytes thr) mem₁
      (initializeAttributes mem₁ thr name) :=
    (initializeAttributes_outside mem₁ thr name).mono
      (Set.union_subset (fieldBytes_subset ..) (fieldBytes_subset ..))
  obtain ⟨stack, mem₂, s₂, fs₂, us₂, hcall, h₂, hlen, htaken⟩ :=
    (h₁.restart hattributes hapart).malloc threadKernelStackSize hfuel
  have hstack : Memory.SameOutside (threadBytes thr) mem₂ (setStack mem₂ thr stack) :=
    (setStack_outside mem₂ thr stack).mono
      (Set.union_subset (fieldBytes_subset ..) (fieldBytes_subset ..))
  have hin : threadBytes thr ⊆ D.heapBytes mem ∪ D.freeBytes mem :=
    hthread.trans Set.subset_union_right
  refine ⟨stack, mem₂, s₂, fs₂, us₂, hcall, h₂.restart hstack hapart, hlen, ?_,
    initialized name stack h₂.elsewhere hapart.symm, htaken⟩
  have hfirst := (h₁.elsewhere.mono Set.subset_union_left).trans (hattributes.mono hin)
  exact (hfirst.trans (h₂.elsewhere.mono Set.subset_union_left)).trans (hstack.mono hin)

/-- The two chunks are of what was free before the call. -/
theorem chunks (h : D.HeapFrom mem 2 mem mem (D.heapOf mem) fs us)
    (h₁ : D.HeapFrom mem 1 mem mem₁ s₁ fs₁ us₁)
    (htaken₁ : TakesChunk (D.heapOf mem) ⟨thr, sizeofThread⟩ s₁)
    (h₂ : D.HeapFrom mem 0 mem₂ mem₂ s₂ fs₂ us₂)
    (htaken₂ : TakesChunk s₁ ⟨stack, threadKernelStackSize⟩ s₂) : D.Chunks mem thr stack := by
  obtain ⟨hproper₁, hbytes₁, hfree₁⟩ := h.partition.taken h₁.partition htaken₁
  obtain ⟨hproper₂, hbytes₂, -⟩ := h₁.partition.taken h₂.partition htaken₂
  have hstack : ∀ c ∈ stackBytes stack, c.toNat ∈ coveredFree s₁ :=
    fun c hc => hbytes₂ (hproper₂.mem_bytes hc)
  rw [hfree₁] at hstack
  constructor
  case threadFree => exact fun c hc => hbytes₁ (hproper₁.mem_bytes hc)
  case stackFree => exact fun c hc => (hstack c hc).1
  case apart =>
    exact Set.disjoint_left.mpr fun c hc hc' => (hstack c hc').2 (hproper₁.mem_bytes hc)

/-- The memory that a successful creation leaves. -/
theorem hasThread (hplaced : D.Placed 2 mem) (hl : D.ListsPlaced mem)
    (h₂ : D.HeapFrom mem 0 mem₂ mem₂ s₂ fs₂ us₂)
    (htaken₁ : TakesChunk (D.heapOf mem) ⟨thr, sizeofThread⟩ s₁)
    (htaken₂ : TakesChunk s₁ ⟨stack, threadKernelStackSize⟩ s₂) (hchunks : D.Chunks mem thr stack)
    (hstarted : Started mem₃ thr stack)
    (hadded : Memory.SameOutside (D.addedBytes mem thr stack ∪ D.readiedBytes mem thr) mem₂ mem₃) :
    D.HasThread mem mem₃ thr := by
  have hdata : Disjoint (D.heapBytes mem)
      (D.addedBytes mem thr stack ∪ D.readiedBytes mem thr) := by
    have hfree : Disjoint (D.heapBytes mem) (D.freeBytes mem) :=
      Set.disjoint_left.mpr hplaced.free
    have htail : ∀ list, Disjoint (D.heapBytes mem) (D.tailBytes mem list) := fun list =>
      (hl.disjoint.mono (D.tailBytes_subset mem list) Set.subset_union_left).symm
    have hfield : ∀ f, Disjoint (D.heapBytes mem) (fieldBytes thr f) :=
      fun f => hfree.mono_right ((fieldBytes_subset thr f).trans hchunks.threadFree)
    refine Disjoint.union_right (Disjoint.union_right (Disjoint.union_right ?_ (hfield _))
      (Disjoint.union_right (hfield _) (htail _)))
      (Disjoint.union_right (hfield _) (Disjoint.union_right (hfield _) (htail _)))
    exact hfree.mono_right hchunks.stackFree
  have h₃ := h₂.restart hadded hdata
  have hstack : stackOf mem₃ thr = ⟨stack, threadKernelStackSize⟩ := by
    rw [stackOf, hstarted.stackBaseAddress]
  have hproper : MemoryRange.Proper ⟨stack, threadKernelStackSize⟩ := by
    refine h₂.partition.live_proper ?_
    rw [htaken₂.live]
    exact Set.mem_insert _ _
  constructor
  case live => rw [h₃.liveChunks, htaken₂.live, htaken₁.live, hstack]
  case freshThread => exact htaken₁.fresh
  case freshStack =>
    rw [hstack, ← htaken₁.live]
    exact htaken₂.fresh
  case name => exact hstarted.name
  case ready => exact hstarted.state
  case context =>
    intro i hi
    rw [hstarted.cpuState, hstack]
    exact kstateAddress_mem hproper hi

end outcome

end KernelData

/-- Every call of `thread_create` returns, and it creates a thread or it leaves everything as it
was, whichever allocation has failed. -/
theorem threadCreate_all_or_nothing (D : KernelData) (code : Arch.CodeAddresses) (mem : Memory 32)
    (name startFunc startArg : BitVec 32) (hgood : Good (D.heapOf mem))
    (hzero : NoFreeAtZero (D.heapOf mem)) (hplaced : D.Placed 2 mem)
    (hlists : D.ListsPlaced mem) :
    ∃ bound, ∀ fuel, bound ≤ fuel →
      ∃ r mem', D.threadCreate code fuel mem name startFunc startArg = some (r, mem') ∧
        D.AllOrNothing mem mem' r := by
  obtain ⟨fs, us, h⟩ := hplaced.heapIn hgood hzero
  refine ⟨fs.length + us.length + 4, fun fuel hfuel => ?_⟩
  by_cases hf : startFunc = 0
  · refine ⟨0, mem, by rw [KernelData.threadCreate, if_pos hf], ?_⟩
    rw [KernelData.AllOrNothing, if_pos rfl]
    exact hlists.unchanged (.refl _ _) rfl rfl
  obtain ⟨thr, mem₁, s₁, fs₁, us₁, hcall₁, h₁, hlen₁, htaken₁⟩ :=
    h.malloc sizeofThread (show fs.length + us.length < fuel by omega)
  rcases htaken₁ with ⟨rfl, rfl⟩ | ⟨hthr, htaken₁⟩
  · refine ⟨0, mem₁, KernelData.threadCreate_noThread hf hcall₁, ?_⟩
    rw [KernelData.AllOrNothing, if_pos rfl]
    exact hlists.unchanged (h₁.elsewhere.mono Set.subset_union_left) h₁.liveChunks h₁.coveredFree
  obtain ⟨hproper₁, hbytes₁, -⟩ := h.partition.taken h₁.partition htaken₁
  obtain ⟨stack, mem₂, s₂, fs₂, us₂, hcall₂, h₂, hlen₂, hsame₂, hinit, htaken₂⟩ :=
    KernelData.allocates_stack hplaced h₁ (fun c hc => hbytes₁ (hproper₁.mem_bytes hc))
      (if name ≠ 0 then name else D.noName) (show fs₁.length + us₁.length < fuel by omega)
  rcases htaken₂ with ⟨rfl, rfl⟩ | ⟨hs, htaken₂⟩
  · -- The thread structure has been taken already
    have hlive : (⟨thr, sizeofThread⟩ : MemoryRange) ∈ liveChunks s₂ := by
      rw [htaken₁.live]
      exact Set.mem_insert _ _
    obtain ⟨mem₃, s₃, fs₃, us₃, hcall₃, h₃, hgiven⟩ :=
      h₂.free hthr hlive (show us₂.length + 1 < fuel by omega)
    have hsame := htaken₁.giveBack hgiven
    refine ⟨0, mem₃, KernelData.threadCreate_noStack hf hcall₁ hthr hcall₂ hcall₃, ?_⟩
    rw [KernelData.AllOrNothing, if_pos rfl]
    refine hlists.unchanged (hsame₂.trans (h₃.elsewhere.mono Set.subset_union_left)) ?_ ?_
    · rw [h₃.liveChunks, hsame]
    · rw [h₃.coveredFree, h.partition.coveredFree_congr h₃.partition hsame]
  · have hchunks := KernelData.chunks h h₁ htaken₁ h₂ htaken₂
    obtain ⟨hcreated, hstarted, hadded⟩ := hinit.added hlists hchunks hsame₂
    refine ⟨thr, _, KernelData.threadCreate_created hf hcall₁ hthr hcall₂ hs hcreated, ?_⟩
    rw [KernelData.AllOrNothing, if_neg hthr]
    exact KernelData.hasThread hplaced hlists h₂ htaken₁ htaken₂ hchunks hstarted hadded

/-- A kernel with its variables behind one another. -/
def smallKernel : KernelData where
  list
    | .freeMemoryRanges => 0x100000
    | .usedMemoryRanges => 0x100008
  heap := 0x100010
  threadList
    | .kernelThreads => 0x100018
    | .readyThreadsQueue => 0x100020
  noName := 0x100030

/-- A memory with no thread, one free range of 2 KiB, the string "idle" and the descriptor and the
bump pointer at the given places. -/
def oneRangeMemory (descriptor heap : BitVec 32) : Memory 32 :=
  let mem : Memory 32 := fun _ => 0
  let mem := mem.store32 0x100000 descriptor
  let mem := mem.store32 0x100004 (descriptor + 8)
  let mem := mem.store32 0x10000c 0x100008
  let mem := mem.store32 0x100010 heap
  let mem := mem.store32 0x10001c 0x100018
  let mem := mem.store32 0x100024 0x100020
  let mem := mem.store32 0x100040 0x656c6469
  let mem := mem.store32 descriptor 0x200000
  let mem := mem.store32 (descriptor + 4) 0x800
  mem.store32 (descriptor + 12) 0x100000

/-- The descriptor lies apart from the range. -/
def apartMemory : Memory 32 := oneRangeMemory 0x101000 0x101010

/-- The descriptor lies in the range, at the place of the name of the next thread. -/
def overlappingMemory : Memory 32 := oneRangeMemory 0x2007d0 0x2007e0

theorem lists_apartMemory : Lists (smallKernel.heapOf apartMemory) [0x101000] [] :=
  ⟨⟨⟨⟨⟨rfl, trivial⟩, rfl⟩, rfl⟩, ⟨rfl, trivial⟩⟩, ⟨⟨⟨trivial, rfl⟩, rfl⟩, trivial⟩, by simp⟩

theorem lists_overlappingMemory : Lists (smallKernel.heapOf overlappingMemory) [0x2007d0] [] :=
  ⟨⟨⟨⟨⟨rfl, trivial⟩, rfl⟩, rfl⟩, ⟨rfl, trivial⟩⟩, ⟨⟨⟨trivial, rfl⟩, rfl⟩, trivial⟩, by simp⟩

theorem range_apartMemory :
    (smallKernel.heapOf apartMemory).range 0x101000 = ⟨0x200000, 0x800⟩ := rfl

theorem range_overlappingMemory :
    (smallKernel.heapOf overlappingMemory).range 0x2007d0 = ⟨0x200000, 0x800⟩ := rfl

/-- A heap with one free range and nothing in use. -/
theorem good_of_one {s : HeapState} {d : BitVec 32} (h : Lists s [d] [])
    (hrange : s.range d = ⟨0x200000, 0x800⟩) :
    Good s ∧ NoFreeAtZero s ∧ coveredFree s = MemoryRange.bytes ⟨0x200000, 0x800⟩ := by
  have hlist : ∀ r, OnList s .freeMemoryRanges r ↔ r = ⟨0x200000, 0x800⟩ := by
    intro r
    rw [h.onList_free]
    simp [hrange, eq_comm]
  refine ⟨⟨_, _, h, ?_, by simp⟩, ?_, ?_⟩
  · intro e he
    rw [List.append_nil, List.mem_singleton] at he
    rw [he, hrange]
    exact ⟨by decide, by decide⟩
  · intro r hr
    rw [(hlist r).mp hr]
    decide
  · ext a
    constructor
    · rintro ⟨r, hr, ha⟩
      rwa [(hlist r).mp hr] at ha
    · exact fun ha => ⟨_, (hlist _).mpr rfl, ha⟩

/-- The objects of the allocator with the descriptor and two places behind it. -/
def apartObjects : List HeapObject :=
  [.list .freeMemoryRanges, .list .usedMemoryRanges, .heap, .descriptor 0x101000,
    .descriptor 0x101010, .descriptor 0x101020]

theorem present_apartMemory {o : HeapObject}
    (h : HeapData.Present (HeapData.descriptors 2 (smallKernel.heapOf apartMemory)) o) :
    o ∈ apartObjects := by
  cases o with
  | list list => cases list <;> decide
  | heap => decide
  | descriptor d =>
    rcases h with hlisted | ⟨i, hi, rfl⟩
    · have hmem := lists_apartMemory.listed.mp hlisted
      rw [List.append_nil, List.mem_singleton] at hmem
      rw [hmem]
      decide
    · have hheap : (smallKernel.heapOf apartMemory).heap = 0x101010 := rfl
      rw [hheap]
      rcases (show i = 0 ∨ i = 1 by omega) with rfl | rfl <;> decide

theorem placed_apartMemory : smallKernel.Placed 2 apartMemory := by
  have hheap : (smallKernel.heapOf apartMemory).heap = 0x101010 := rfl
  constructor
  case room =>
    refine ⟨by rw [hheap]; decide, by rw [hheap]; decide, fun list d hd => ?_⟩
    have hmem := lists_apartMemory.listed.mp ⟨list, hd⟩
    rw [List.append_nil, List.mem_singleton] at hmem
    rw [hmem, hheap]
    decide
  case apart =>
    intro o o' ho ho' hne
    have hnumbers : ∀ o ∈ apartObjects, ∀ o' ∈ apartObjects, o ≠ o' →
        HeapData.sizeof o ≤ (smallKernel.start o' - smallKernel.start o).toNat := by decide
    have hmem := present_apartMemory ho
    have hmem' := present_apartMemory ho'
    exact Memory.extent_apart (hnumbers o hmem o' hmem' hne) (hnumbers o' hmem' o hmem hne.symm)
  case free =>
    rintro c ⟨o, ho, hc⟩
    have hnumbers : ∀ o ∈ apartObjects,
        (smallKernel.start o).toNat + HeapData.sizeof o ≤ 0x200000 := by decide
    have hbelow := hnumbers o (present_apartMemory ho)
    rw [(good_of_one lists_apartMemory range_apartMemory).2.2]
    rintro ⟨hfree, -⟩
    rw [HeapData.extent, Memory.mem_extent] at hc
    change 0x200000 ≤ c.toNat at hfree
    bv_omega

/-- Both lists of threads are empty. -/
theorem listBytes_apartMemory {c : BitVec 32} (hc : c ∈ smallKernel.listBytes apartMemory) :
    c ∈ Memory.extent 0x100018 16 := by
  have hempty : ∀ n list, smallKernel.threadsOn apartMemory n list = [] := by
    intro n list
    have hhead : apartMemory.load32 (smallKernel.threadList list) = 0 := by cases list <;> rfl
    rw [KernelData.threadsOn, hhead]
    cases n <;> rfl
  have htail : ∀ list, apartMemory.load32 (smallKernel.threadList list + 4) =
      smallKernel.threadList list := by
    intro list
    cases list <;> rfl
  have hlist : ∀ list, smallKernel.threadList list = 0x100018 ∨
      smallKernel.threadList list = 0x100020 := by
    intro list
    cases list
    · exact .inl rfl
    · exact .inr rfl
  obtain ⟨list, hhead | hend | ⟨n, thr, hthr, -⟩⟩ := hc
  · rw [Memory.mem_extent] at hhead ⊢
    rcases hlist list with hlist | hlist
    all_goals
      rw [hlist] at hhead
      bv_omega
  · rw [KernelData.tailBytes, htail, Set.mem_union, Memory.mem_extent, Memory.mem_extent] at hend
    rw [Memory.mem_extent]
    rcases hlist list with hlist | hlist
    all_goals
      rw [hlist] at hend
      bv_omega
  · rw [hempty] at hthr
    exact absurd hthr List.not_mem_nil

/-- What lies beside the allocator's objects and below the free range. -/
theorem outside_apartMemory {a : BitVec 32} {n : ℕ}
    (hobjects : ∀ o ∈ apartObjects, HeapData.sizeof o ≤ (a - smallKernel.start o).toNat ∧
      n ≤ (smallKernel.start o - a).toNat) (hend : a.toNat + n ≤ 0x200000) :
    Disjoint (Memory.extent a n)
      (smallKernel.heapBytes apartMemory ∪ smallKernel.freeBytes apartMemory) := by
  refine Set.disjoint_left.mpr fun c hc hm => ?_
  rcases hm with ⟨o, ho, hco⟩ | hfree
  · obtain ⟨hbelow, habove⟩ := hobjects o (present_apartMemory ho)
    exact Set.disjoint_left.mp (Memory.extent_apart hbelow habove) hco hc
  · have hbytes : c.toNat ∈ MemoryRange.bytes ⟨0x200000, 0x800⟩ := by
      rw [← (good_of_one lists_apartMemory range_apartMemory).2.2]
      exact hfree
    rw [Memory.mem_extent] at hc
    have hbase : 0x200000 ≤ c.toNat := hbytes.1
    bv_omega

theorem listsPlaced_apartMemory : smallKernel.ListsPlaced apartMemory := by
  constructor
  case outside =>
    intro c hc
    have hnot := Set.disjoint_left.mp (outside_apartMemory (by decide) (by decide))
      (listBytes_apartMemory hc)
    exact ⟨fun hheap => hnot (.inl hheap), fun hfree => hnot (.inr hfree)⟩
  case apart =>
    have htail : apartMemory.load32 (smallKernel.threadList .kernelThreads + 4) = 0x100018 := rfl
    rw [KernelData.tailBytes, htail]
    exact Disjoint.union_left (Memory.extent_apart (by decide) (by decide))
      (Memory.extent_apart (by decide) (by decide))

/-- The two routines of `cpu-context.c`, somewhere in the kernel. -/
def smallCode : Arch.CodeAddresses := ⟨0x110000, 0x110100, by decide⟩

/-- The thread fits in the range, and its stack does not fit beside it. -/
theorem threadCreate_all_or_nothing_apartMemory :
    ∃ bound, ∀ fuel, bound ≤ fuel →
      ∃ r mem', smallKernel.threadCreate smallCode fuel apartMemory 0x100040 0x110200 0 =
        some (r, mem') ∧ smallKernel.AllOrNothing apartMemory mem' r := by
  obtain ⟨hgood, hzero, -⟩ := good_of_one lists_apartMemory range_apartMemory
  exact threadCreate_all_or_nothing smallKernel smallCode apartMemory 0x100040 0x110200 0 hgood
    hzero placed_apartMemory listsPlaced_apartMemory

/-- The thread takes the bytes from 0x2007c8 on, and the memory is as it is then. -/
def threadTaken : Memory 32 :=
  let mem := overlappingMemory.store32 0x2007d4 0x7c8
  let mem := mem.store32 0x100010 0x2007f0
  let mem := mem.store32 0x2007e0 0x2007c8
  let mem := mem.store32 0x2007e4 56
  let mem := mem.store32 0x2007e8 0
  let mem := mem.store32 0x2007ec 0x100008
  let mem := mem.store32 0x100008 0x2007e0
  mem.store32 0x10000c 0x2007e8

/-- The name has gone over the descriptor of the free range. -/
def nameWritten : Memory 32 := KernelData.initializeAttributes threadTaken 0x2007c8 0x100040

/-- With the descriptor in the free range a call that returns NULL changes what is free. -/
theorem threadCreate_changes_free :
    Good (smallKernel.heapOf overlappingMemory) ∧
      NoFreeAtZero (smallKernel.heapOf overlappingMemory) ∧
      ∃ mem', smallKernel.threadCreate smallCode 5 overlappingMemory 0x100040 0x110200 0 =
          some (0, mem') ∧
        coveredFree (smallKernel.heapOf mem') ≠
          coveredFree (smallKernel.heapOf overlappingMemory) := by
  obtain ⟨hgood, hzero, hfree⟩ := good_of_one lists_overlappingMemory range_overlappingMemory
  refine ⟨hgood, hzero, ?_⟩
  have hthread : smallKernel.heapAlloc 5 overlappingMemory sizeofThread =
      some (0x2007c8, threadTaken) := rfl
  have hstack : smallKernel.heapAlloc 5 nameWritten threadKernelStackSize =
      some (0, nameWritten) := rfl
  -- The words of the free list after the thread has been given back
  have hwords : (smallKernel.heapFree 5 (KernelData.setStack nameWritten 0x2007c8 0) 0x2007c8).map
      (fun mem => [mem.load32 0x100000, mem.load32 0x2007d0, mem.load32 0x2007d4,
        mem.load32 0x2007d8, mem.load32 0x2007e0, mem.load32 0x2007e4, mem.load32 0x2007e8]) =
      some [0x2007d0, 0x656c6469, 0x700, 0x2007e0, 0x2007c8, 56, 0] := by decide +kernel
  obtain ⟨mem', hgiven, hlist⟩ := Option.map_eq_some_iff.mp hwords
  simp only [List.cons.injEq, and_true] at hlist
  obtain ⟨hfirst, hbase, hsize, hnext, hbase', hsize', hnext'⟩ := hlist
  refine ⟨mem', KernelData.threadCreate_noStack (by decide) hthread (by decide) hstack hgiven, ?_⟩
  have hwalk : TailQueue.Walk (smallKernel.heapOf mem').links (.first .freeMemoryRanges)
      [0x2007d0, 0x2007e0] := by
    refine TailQueue.walk_cons.mpr ⟨congrArg asPointer hfirst, ?_⟩
    refine TailQueue.walk_cons.mpr ⟨congrArg asPointer hnext, ?_⟩
    exact TailQueue.walk_nil.mpr (congrArg asPointer hnext')
  intro hsame
  have hmem : 0x200000 ∈ coveredFree (smallKernel.heapOf overlappingMemory) := by
    rw [hfree]
    exact ⟨by decide, by decide⟩
  rw [← hsame] at hmem
  obtain ⟨r, hr, hlow, -⟩ := hmem
  obtain ⟨d, hd, rfl⟩ := (onList_iff hwalk).mp hr
  simp only [List.mem_cons, List.not_mem_nil, or_false] at hd
  rcases hd with rfl | rfl
  · change (mem'.load32 0x2007d0).toNat ≤ 0x200000 at hlow
    rw [hbase] at hlow
    exact absurd hlow (by decide)
  · change (mem'.load32 0x2007e0).toNat ≤ 0x200000 at hlow
    rw [hbase'] at hlow
    exact absurd hlow (by decide)

end Einherjar.Threading
