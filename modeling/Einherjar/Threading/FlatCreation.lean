import Einherjar.Threading.Creation
import Einherjar.Threading.KernelRun

/-! A creation in the memory is a creation on the thread structures and the links: when the memory
holds a kernel, a call of `thread_create` in it is a step of that kernel. -/
namespace Einherjar.Threading
open Einherjar.Lib Einherjar.Lib.TailQueue Einherjar.Memory

/-- The fields of a thread that have one word. -/
inductive ThreadWord where
  | stackBaseAddress | stackSize | state | cpuState
  deriving DecidableEq

def ThreadWord.field : ThreadWord → ThreadField
  | .stackBaseAddress => .stackBaseAddress
  | .stackSize => .stackSize
  | .state => .state
  | .cpuState => .cpuState

theorem ThreadWord.size_eq (w : ThreadWord) : w.field.size = 4 := by
  cases w <;> rfl

/-- What a thread has in the field. -/
def Thread.word (thread : Thread) : ThreadWord → BitVec 32
  | .stackBaseAddress => thread.stackBaseAddress
  | .stackSize => thread.stackSize
  | .state => thread.state.code
  | .cpuState => thread.cpuState

/-- The words of the two lists and of the threads. -/
abbrev KernelField := LinkField ThreadList ⊕ BitVec 32 × ThreadWord

/-- A word of a head, or of one of the threads. -/
def KernelField.Within (ts : Set (BitVec 32)) : Set KernelField :=
  Sum.elim (LinkField.Within ts) fun w => w.1 ∈ ts

/-- The head of a list, or a thread. -/
inductive ThreadObject where
  | list (list : ThreadList)
  | thread (thr : BitVec 32)

namespace KernelData

variable (D : KernelData)

/-- The two lists in memory. -/
def threadQueues : QueueLayout ThreadList := ⟨D.threadList, next⟩

def threadWord (w : BitVec 32 × ThreadWord) : BitVec 32 := field w.1 w.2.field

def kernelWord : KernelField → BitVec 32 := Sum.elim D.threadQueues.word threadWord

def threadValue (threads : BitVec 32 → Thread) (w : BitVec 32 × ThreadWord) : BitVec 32 :=
  (threads w.1).word w.2

/-- The words of the lists and of the threads have the values of the state. -/
abbrev HoldsWords (ts : Set (BitVec 32)) (start mem : Memory 32) (s : System (BitVec 32)) : Prop :=
  D.threadQueues.Tracks threadWord (KernelField.Within ts) start mem s.links
    (threadValue s.threads)

/-- The bytes of a string, without its NUL. -/
def cString (bytes : List (BitVec 8)) : List (BitVec 8) := bytes.takeWhile (· ≠ 0)

/-- The array `name` of a thread. -/
def nameAt (mem : Memory 32) (thr : BitVec 32) : List (BitVec 8) :=
  (List.range threadMaxNamelen).map fun i => mem (field thr .name + BitVec.ofNat 32 i)

/-- The memory contains the lists and the threads of a kernel; the lists end at one of them. -/
structure HoldsKernel (mem : Memory 32) (k : Kernel (BitVec 32)) : Prop where
  words : D.HoldsWords { t | t ∈ k.created } mem mem k.sys
  names : ∀ t ∈ k.created, cString (nameAt mem t) = cString (k.sys.threads t).name
  ends : ∀ list, LinkField.Within { t | t ∈ k.created } (.link (k.sys.links.tqhLast list))

def threadStart : ThreadObject → BitVec 32
  | .list list => D.threadList list
  | .thread thr => thr

def threadSizeof : ThreadObject → ℕ
  | .list _ => 8
  | .thread _ => sizeofThread.toNat

def threadExtent (o : ThreadObject) : Set (BitVec 32) :=
  Memory.extent (D.threadStart o) (threadSizeof o)

def ThreadPresent (ts : Set (BitVec 32)) : ThreadObject → Prop
  | .list _ => True
  | .thread thr => thr ∈ ts

/-- The heads and the threads overlap neither one another, nor the allocator's data, nor free
ranges. -/
structure ThreadsPlaced (ts : Set (BitVec 32)) (mem : Memory 32) : Prop where
  apart : ∀ o o', ThreadPresent ts o → ThreadPresent ts o' → o ≠ o' →
    Disjoint (D.threadExtent o) (D.threadExtent o')
  outside : ∀ o, ThreadPresent ts o →
    Disjoint (D.threadExtent o) (D.heapBytes mem ∪ D.freeBytes mem)

/-- The string that `thread_create` copies, which is not in free memory either. -/
structure NameGiven (mem : Memory 32) (name : BitVec 32) (text : Option (List (BitVec 8))) :
    Prop where
  null : name = 0 ↔ text = none
  holds : mem.Holds (if name ≠ 0 then name else D.noName) (text.getD Threading.noName ++ [0])
  nonzero : ∀ c ∈ text.getD Threading.noName, c ≠ 0
  outside : Disjoint (Memory.extent (if name ≠ 0 then name else D.noName)
    ((text.getD Threading.noName).length + 1)) (D.heapBytes mem ∪ D.freeBytes mem)

/-- The object that a field is in, and its offset there. -/
def threadPlace : KernelField → ThreadObject × ℕ
  | .inl (.link .null) => (.list .kernelThreads, 0)
  | .inl (.link (.first list)) => (.list list, 0)
  | .inl (.link (.next thr)) => (.thread thr, ThreadField.next.offset)
  | .inl (.tqePrev thr) => (.thread thr, ThreadField.next.offset + 4)
  | .inl (.tqhLast list) => (.list list, 4)
  | .inr (thr, w) => (.thread thr, w.field.offset)

section placed

variable {D} {ts : Set (BitVec 32)} {mem : Memory 32} {f g : KernelField}

theorem kernelWord_eq (hf : f ∈ KernelField.Within ts) :
    D.kernelWord f = D.threadStart (threadPlace f).1 + BitVec.ofNat 32 (threadPlace f).2 := by
  rcases f with ((_ | _ | _) | _ | _) | _
  · exact absurd hf id
  · exact (BitVec.add_zero _).symm
  · rfl
  · exact BitVec.add_assoc ..
  all_goals rfl

theorem present_threadPlace (hf : f ∈ KernelField.Within ts) :
    ThreadPresent ts (threadPlace f).1 := by
  rcases f with ((_ | _ | _) | _ | _) | _
  · exact absurd hf id
  all_goals exact hf

theorem threadPlace_fits (hf : f ∈ KernelField.Within ts) :
    (threadPlace f).2 + 4 ≤ threadSizeof (threadPlace f).1 := by
  have hnext := offset_add_size .next
  change ThreadField.next.offset + 8 ≤ _ at hnext
  rcases f with ((_ | _ | _) | _ | _) | ⟨thr, w⟩
  · exact absurd hf id
  · exact Nat.le_of_ble_eq_true rfl
  · exact Nat.le_trans (Nat.add_le_add_left (by omega) _) hnext
  · exact hnext
  · exact Nat.le_refl 8
  · have hfits := offset_add_size w.field
    rwa [w.size_eq] at hfits

theorem threadSizeof_le (o : ThreadObject) : threadSizeof o ≤ 2 ^ 32 := by
  cases o with
  | list => simp [threadSizeof]
  | thread => exact sizeofThread.isLt.le

/-- Two fields of one object lie one behind the other. -/
theorem threadPlace_offset (hf : f ∈ KernelField.Within ts) (hg : g ∈ KernelField.Within ts)
    (hobject : (threadPlace f).1 = (threadPlace g).1) (hne : f ≠ g) :
    (threadPlace f).2 + 4 ≤ (threadPlace g).2 ∨ (threadPlace g).2 + 4 ≤ (threadPlace f).2 := by
  have hnext : ∀ w : ThreadWord, w.field.offset + 4 ≤ ThreadField.next.offset := by
    intro w
    cases w <;> decide
  have hwords : ∀ w w' : ThreadWord, w ≠ w' →
      w.field.offset + 4 ≤ w'.field.offset ∨ w'.field.offset + 4 ≤ w.field.offset := by
    intro w w'
    cases w <;> cases w' <;> decide
  rcases f with ((_ | _ | _) | _ | _) | ⟨thr, w⟩
  · exact absurd hf id
  all_goals
    rcases g with ((_ | _ | _) | _ | _) | ⟨thr', w'⟩
    · exact absurd hg id
    all_goals simp_all [threadPlace]
  · have := hnext w'
    omega
  · have := hnext w
    omega

/-- The words lie in the heads and in the threads, and beside the names. -/
theorem kernelFootprint {c : BitVec 32}
    (hc : c ∈ Memory.footprint D.kernelWord (KernelField.Within ts)) :
    ∃ o, ThreadPresent ts o ∧ c ∈ D.threadExtent o ∧
      ∀ thr, o = .thread thr → c ∉ fieldBytes thr .name := by
  obtain ⟨f, hf, hc⟩ := hc
  rw [kernelWord_eq hf] at hc
  refine ⟨_, present_threadPlace hf,
    Memory.extent_sub (threadPlace_fits hf) hc, fun thr hthr hname => ?_⟩
  rw [hthr] at hc
  have hbeside : (threadPlace f).2 + 4 ≤ ThreadField.name.offset ∨
      ThreadField.name.offset + ThreadField.name.size ≤ (threadPlace f).2 := by
    rcases f with ((_ | _ | _) | _ | _) | ⟨_, w⟩
    · exact absurd hf id
    · exact .inl (show 0 + 4 ≤ ThreadField.name.offset by decide)
    · exact .inr (show _ ≤ ThreadField.next.offset by decide)
    · exact .inr (show _ ≤ ThreadField.next.offset + 4 by decide)
    · exact .inl (show 4 + 4 ≤ ThreadField.name.offset by decide)
    · have hname := offset_behind (show w.field ≠ .name by cases w <;> decide)
      rwa [w.size_eq] at hname
  have hfits := threadPlace_fits hf
  rw [hthr] at hfits
  change _ ≤ 56 at hfits
  rcases hbeside with hbelow | habove
  · exact Set.disjoint_left.mp (Memory.extent_disjoint hbelow (by decide)) hc hname
  · exact Set.disjoint_left.mp (Memory.extent_disjoint (n := 4) habove (by omega)) hname hc

theorem kernelSeparate (hapart : ∀ o o', ThreadPresent ts o → ThreadPresent ts o' → o ≠ o' →
      Disjoint (D.threadExtent o) (D.threadExtent o')) :
    Memory.Separate D.kernelWord (KernelField.Within ts) := by
  refine Memory.separate_of_places (fun f => kernelWord_eq) (fun f => threadPlace_fits)
    threadSizeof_le (fun f hf g hg => threadPlace_offset hf hg) fun f hf g hg => ?_
  exact hapart _ _ (present_threadPlace hf) (present_threadPlace hg)

end placed

section names

variable {mem mem' : Memory 32} {thr : BitVec 32} {text xs : List (BitVec 8)}

theorem nameAt_congr (h : ∀ c ∈ fieldBytes thr .name, mem' c = mem c) :
    nameAt mem' thr = nameAt mem thr :=
  List.map_congr_left fun _ hi => h _ (Memory.mem_extent_offset (List.mem_range.mp hi))

theorem cString_append {rest : List (BitVec 8)} (hnonzero : ∀ c ∈ xs, c ≠ 0) :
    cString (xs ++ 0 :: rest) = xs := by
  rw [cString, List.takeWhile_append_of_pos fun c hc => decide_eq_true (hnonzero c hc)]
  simp

theorem cString_nameAt (hlt : xs.length < threadMaxNamelen) (hnonzero : ∀ c ∈ xs, c ≠ 0)
    (h : mem.Holds (field thr .name) (xs ++ [0])) : cString (nameAt mem thr) = xs := by
  have hlength : (nameAt mem thr).length = threadMaxNamelen := by simp [nameAt]
  have hbegin : (nameAt mem thr).take (xs.length + 1) = xs ++ [0] := by
    refine List.ext_getElem (by simp [hlength]; omega) fun i hi hi' => ?_
    rw [List.getElem_take]
    simp only [nameAt, List.getElem_map, List.getElem_range]
    exact Memory.holds_iff.mp h i hi'
  rw [← List.take_append_drop (xs.length + 1) (nameAt mem thr), hbegin, List.append_assoc]
  exact cString_append hnonzero

/-- The copy on the structures. -/
theorem cString_strzcpy {dst : List (BitVec 8)} {len : ℕ} (hpos : 0 < len) (hlen : len ≤ dst.length)
    (hnonzero : ∀ c ∈ text, c ≠ 0) :
    cString (Threading.strzcpy dst text len) = text.take (len - 1) := by
  induction dst, text, len using Threading.strzcpy.induct with
  | case1 => exact absurd hpos (Nat.lt_irrefl 0)
  | case2 => simp at hlen
  | case3 => simp [Threading.strzcpy, cString]
  | case4 => simp [Threading.strzcpy, cString]
  | case5 b dst c src len ih =>
    have hrest := ih (Nat.succ_pos _) (by simpa using hlen) fun c hc =>
      hnonzero c (List.mem_cons_of_mem _ hc)
    have hc : c ≠ 0 := hnonzero c List.mem_cons_self
    rw [Threading.strzcpy, cString, List.takeWhile_cons, if_pos (decide_eq_true hc)]
    exact congrArg (c :: ·) hrest

end names

section creations

variable {D : KernelData} {mem mem' : Memory 32} {k : Kernel (BitVec 32)} {thr : BitVec 32}

theorem ThreadsPlaced.footprint {ts : Set (BitVec 32)} (h : D.ThreadsPlaced ts mem) :
    Disjoint (Memory.footprint D.kernelWord (KernelField.Within ts))
      (D.heapBytes mem ∪ D.freeBytes mem) := by
  refine Set.disjoint_left.mpr fun c hc => ?_
  obtain ⟨o, ho, hco, -⟩ := kernelFootprint hc
  exact Set.disjoint_left.mp (h.outside o ho) hco

theorem ThreadsPlaced.name {ts : Set (BitVec 32)} (h : D.ThreadsPlaced ts mem) (hthr : thr ∈ ts) :
    Disjoint (fieldBytes thr .name) (D.heapBytes mem ∪ D.freeBytes mem) :=
  (h.outside (.thread thr) hthr).mono_left (fieldBytes_subset thr .name)

/-- What stays within the allocator's data and the free ranges. -/
theorem HoldsKernel.outside (h : D.HoldsKernel mem k)
    (hp : D.ThreadsPlaced { t | t ∈ k.created } mem)
    (hsame : Memory.SameOutside (D.heapBytes mem ∪ D.freeBytes mem) mem mem') :
    D.HoldsKernel mem' k := by
  refine ⟨Memory.Tracks.restart h.words hsame hp.footprint, fun t ht => ?_, h.ends⟩
  rw [nameAt_congr fun c hc => hsame c (Set.disjoint_left.mp (hp.name ht) hc)]
  exact h.names t ht

/-- A change of structures that are no threads. -/
theorem HoldsKernel.congr (h : D.HoldsKernel mem k) {sys : System (BitVec 32)}
    (hlinks : sys.links = k.sys.links)
    (hthreads : ∀ t ∈ k.created, sys.threads t = k.sys.threads t) :
    D.HoldsKernel mem { k with sys := sys } := by
  refine ⟨Memory.Tracks.of_load fun f hf => ?_, fun t ht => ?_, fun list => ?_⟩
  · rw [h.words.load f hf]
    rcases f with f | ⟨t, w⟩
    · exact congrArg (D.threadQueues.value · f) hlinks.symm
    · exact congrArg (fun thread : Thread => thread.word w) (hthreads t hf).symm
  · rw [h.names t ht]
    exact congrArg (fun thread : Thread => cString thread.name) (hthreads t ht).symm
  · change LinkField.Within _ (.link (sys.links.tqhLast list))
    rw [hlinks]
    exact h.ends list

/-- The thread structure after `cpu_kstate_init`. -/
def createdThread (prior : Thread) (text : Option (List (BitVec 8))) (stack : BitVec 32) :
    Thread where
  name := ⟨Threading.strzcpy prior.name (text.getD Threading.noName) threadMaxNamelen,
    (strzcpy_length ..).trans prior.name.2⟩
  state := .created
  stackBaseAddress := stack
  stackSize := threadKernelStackSize
  cpuState := Arch.kstateAddress stack threadKernelStackSize

/-- The new thread is in the global list, and not yet ready. -/
def inserted (s : System (BitVec 32)) (text : Option (List (BitVec 8))) (thr stack : BitVec 32) :
    System (BitVec 32) :=
  { s with
    threads := Function.update s.threads thr (createdThread (s.threads thr) text stack)
    links := insertTail s.links .kernelThreads thr }

section structures

variable {s : System (BitVec 32)} {text : Option (List (BitVec 8))} {startFunc stack : BitVec 32}
  {newThread : Option (BitVec 32)}

theorem threadCreate_inserted (hf : startFunc ≠ 0) (hs : stack ≠ 0) :
    Threading.threadCreate s text startFunc (some thr) stack =
      some (some thr, (inserted s text thr stack).readied thr) := by
  refine threadCreate_of_insert ?_ ?_
  · rw [insertNewThread, if_neg hf]
    simp only [if_neg hs]
    rfl
  · simp [inserted, System.state, createdThread]

theorem threadCreate_failed (h : startFunc = 0 ∨ newThread = none ∨ stack = 0) :
    ∃ s', Threading.threadCreate s text startFunc newThread stack = some (none, s') ∧
      s'.links = s.links ∧ ∀ t, newThread ≠ some t → s'.threads t = s.threads t := by
  obtain ⟨r, s₁, h₁⟩ : ∃ r s₁, insertNewThread s text startFunc newThread stack = (r, s₁) :=
    ⟨_, _, rfl⟩
  rcases insertNewThread_cases h₁ with ⟨rfl, hlinks, -, -, hthreads⟩ | ⟨thr, hf, hs, hthr, -, -⟩
  · exact ⟨s₁, by rw [Threading.threadCreate, h₁], hlinks, hthreads⟩
  · rcases h with h | h | h
    · exact absurd h hf
    · exact absurd (hthr.symm.trans h) (Option.some_ne_none thr)
    · exact absurd h hs

end structures

/-- The words of a new thread join those of the kernel; what its link field contains is immaterial
for an insertion. -/
theorem HoldsKernel.extended (h : D.HoldsKernel mem k) (hfresh : thr ∉ k.created) {new : Thread}
    (hnew : ∀ w : ThreadWord, mem.load32 (field thr w.field) = new.word w) :
    ∃ m, insertTail m .kernelThreads thr = insertTail k.sys.links .kernelThreads thr ∧
      m.tqhLast = k.sys.links.tqhLast ∧
      D.HoldsWords (insert thr { t | t ∈ k.created }) mem mem
        { k.sys with links := m, threads := Function.update k.sys.threads thr new } := by
  let next := mem.load32 (D.threadQueues.slotAddress (.next thr))
  let prev := mem.load32 (D.threadQueues.word (.tqePrev thr))
  let m := (k.sys.links.store (.next thr) (asPointer next)).setPrev thr
    (.next (prev - D.threadQueues.next))
  refine ⟨m, insertTail_of_unlinked .., rfl, Memory.Tracks.of_load fun f hf => ?_⟩
  have hne : ∀ t ∈ k.created, t ≠ thr := fun t ht he => hfresh (he ▸ ht)
  rcases f with ((_ | list | t) | t | list) | ⟨t, w⟩
  · exact absurd hf id
  · exact h.words.load (.inl (.link (.first list))) trivial
  · rcases hf with rfl | ht
    · simp [m, QueueLayout.word, QueueLayout.value, pointer_asPointer, next]
    · have hload := h.words.load (.inl (.link (.next t))) ht
      simpa [m, QueueLayout.value, hne t ht] using hload
  · rcases hf with rfl | ht
    · have hprev : m.tqePrev t = .next (prev - D.threadQueues.next) := Function.update_self ..
      change prev = D.threadQueues.slotAddress (m.tqePrev t)
      rw [hprev]
      exact (BitVec.sub_add_cancel ..).symm
    · have hload := h.words.load (.inl (.tqePrev t)) ht
      simpa [m, QueueLayout.value, hne t ht] using hload
  · exact h.words.load (.inl (.tqhLast list)) trivial
  · rcases hf with rfl | ht
    · simpa [threadValue, threadWord] using hnew w
    · have hload := h.words.load (.inr (t, w)) ht
      simpa [threadValue, threadWord, hne t ht] using hload

theorem threadValue_setState (threads : BitVec 32 → Thread) (st : ThreadState) :
    Function.update (threadValue threads) (thr, .state) st.code =
      threadValue (Function.update threads thr { threads thr with state := st }) := by
  funext ⟨t, w⟩
  by_cases ht : t = thr
  · subst ht
    cases w <;> simp [threadValue, Thread.word]
  · have hne : (t, w) ≠ (thr, ThreadWord.state) := fun he => ht (congrArg Prod.fst he)
    rw [Function.update_of_ne hne, threadValue, threadValue, Function.update_of_ne ht]

/-- A thread that gets its memory from a free range is a new one. -/
theorem ThreadsPlaced.fresh (h : D.ThreadsPlaced { t | t ∈ k.created } mem)
    (hfree : threadBytes thr ⊆ D.freeBytes mem) : thr ∉ k.created := by
  intro hthr
  have hfirst : thr ∈ threadBytes thr := by
    rw [threadBytes, Memory.mem_extent, BitVec.sub_self]
    decide
  exact Set.disjoint_left.mp (h.outside (.thread thr) hthr) hfirst (.inr (hfree hfirst))

/-- The new thread lies apart from the others and from the heads. -/
theorem ThreadsPlaced.apart_insert {ts : Set (BitVec 32)} (h : D.ThreadsPlaced ts mem)
    (hfree : threadBytes thr ⊆ D.freeBytes mem) :
    ∀ o o', ThreadPresent (insert thr ts) o → ThreadPresent (insert thr ts) o' → o ≠ o' →
      Disjoint (D.threadExtent o) (D.threadExtent o') := by
  have hold : ∀ o, ThreadPresent (insert thr ts) o → o = .thread thr ∨ ThreadPresent ts o := by
    rintro (list | t) ho
    · exact .inr trivial
    · exact ho.imp (congrArg ThreadObject.thread) id
  have hnew : ∀ o, ThreadPresent ts o →
      Disjoint (D.threadExtent o) (D.threadExtent (.thread thr)) := fun o ho =>
    (h.outside o ho).mono_right (hfree.trans Set.subset_union_right)
  intro o o' ho ho' hne
  rcases hold o ho with rfl | ho
  · rcases hold o' ho' with rfl | ho'
    · exact absurd rfl hne
    · exact (hnew o' ho').symm
  · rcases hold o' ho' with rfl | ho'
    · exact hnew o ho
    · exact h.apart o o' ho ho' hne

end creations

section created

variable {D : KernelData} {code : Arch.CodeAddresses} {named mem mem₂ : Memory 32}
  {k : Kernel (BitVec 32)} {startFunc startArg thr stack : BitVec 32}
  {text : Option (List (BitVec 8))}

/-- The fields of a thread with its first context. -/
theorem Initialized.words {mem₃ : Memory 32} (h : Initialized named mem₂ thr stack)
    (hapart : Disjoint (threadBytes thr) (stackBytes stack))
    (hctx : Memory.SameOutside (stackBytes stack ∪ fieldBytes thr .cpuState) mem₂ mem₃)
    (hcpu : mem₃.load32 (field thr .cpuState) = Arch.kstateAddress stack threadKernelStackSize)
    (prior : Thread) (text : Option (List (BitVec 8))) :
    (∀ w : ThreadWord, mem₃.load32 (field thr w.field) = (createdThread prior text stack).word w) ∧
      ∀ c ∈ fieldBytes thr .name, mem₃ c = named c := by
  have hbeside : ∀ f : ThreadField, f ≠ .cpuState →
      Disjoint (fieldBytes thr f) (stackBytes stack ∪ fieldBytes thr .cpuState) := fun f hf =>
    Disjoint.union_right (hapart.mono_left (fieldBytes_subset thr f)) (fieldBytes_disjoint thr hf)
  refine ⟨fun w => ?_, fun c hc => ?_⟩
  · cases w with
    | stackBaseAddress =>
      exact (load_field hctx rfl (hbeside _ (by decide))).trans h.stackBaseAddress
    | stackSize => exact (load_field hctx rfl (hbeside _ (by decide))).trans h.stackSize
    | state => exact (load_field hctx rfl (hbeside _ (by decide))).trans h.state
    | cpuState => exact hcpu
  · rw [hctx c (Set.disjoint_left.mp (hbeside .name (by decide)) hc)]
    exact h.name c hc

/-- The two insertions and the change of the state between them. -/
theorem HoldsKernel.enqueue (h : D.HoldsKernel mem k) (hfresh : thr ∉ k.created)
    (hsep : Memory.Separate D.kernelWord
      (KernelField.Within (insert thr { t | t ∈ k.created })))
    (hnew : ∀ w : ThreadWord, mem.load32 (field thr w.field) =
      (createdThread (k.sys.threads thr) text stack).word w) :
    (mem.tailqInsertTail next (D.threadList .kernelThreads) thr).load32 (field thr .state) =
        ThreadState.created.code ∧
      D.HoldsWords (insert thr { t | t ∈ k.created }) mem
        (D.readied (mem.tailqInsertTail next (D.threadList .kernelThreads) thr) thr)
        ((inserted k.sys text thr stack).readied thr) := by
  obtain ⟨m, hm, hlast, hwords⟩ := h.extended hfresh hnew
  have hin : thr ∈ insert thr { t | t ∈ k.created } := .inl rfl
  have hends : ∀ list, LinkField.Within (insert thr { t | t ∈ k.created })
      (.link (k.sys.links.tqhLast list)) := fun list => (h.ends list).mono (Set.subset_insert _ _)
  have h₁ := QueueLayout.Tracks.insertTail hwords hsep .kernelThreads hin hin trivial
    (by rw [hlast]; exact hends _)
  rw [hm] at h₁
  have h₂ := h₁.storeOther hsep (g := (thr, .state)) hin ThreadState.ready.code
  rw [threadValue_setState] at h₂
  have h₃ := h₂.insertTail hsep .readyThreadsQueue hin hin trivial (by
    rw [insertTail_tqhLast, Function.update_of_ne lists_ne.symm]
    exact hends _)
  refine ⟨(h₁.load (.inr (thr, .state)) hin).trans ?_, h₃⟩
  simp [threadValue, Thread.word, createdThread]

/-- Both lists end at the new thread. -/
theorem inserted_tqhLast (s : System (BitVec 32)) (text : Option (List (BitVec 8)))
    (thr stack : BitVec 32) (list : ThreadList) :
    ((inserted s text thr stack).readied thr).links.tqhLast list = .next thr := by
  cases list with
  | kernelThreads => exact createLinks_tqhLast_kernelThreads
  | readyThreadsQueue => exact (congrFun (insertTail_tqhLast ..) _).trans (Function.update_self ..)

/-- Changes of the words leave the names alone. -/
theorem HoldsWords.name {ts : Set (BitVec 32)} {s : System (BitVec 32)} {mem' : Memory 32}
    (h : D.HoldsWords ts mem mem' s)
    (hapart : ∀ o o', ThreadPresent ts o → ThreadPresent ts o' → o ≠ o' →
      Disjoint (D.threadExtent o) (D.threadExtent o'))
    {t : BitVec 32} (ht : t ∈ ts) : nameAt mem' t = nameAt mem t := by
  refine nameAt_congr fun c hc => h.elsewhere c fun hword => ?_
  obtain ⟨o, ho, hco, hname⟩ := kernelFootprint hword
  by_cases hot : o = .thread t
  · exact hname t hot hc
  · exact Set.disjoint_left.mp (hapart o (.thread t) ho ht hot) hco (fieldBytes_subset t .name hc)

/-- Behind the second allocation. -/
theorem HoldsKernel.create (h : D.HoldsKernel mem k)
    (hp : D.ThreadsPlaced { t | t ∈ k.created } mem) (hchunks : D.Chunks mem thr stack)
    (hsame : Memory.SameOutside (D.heapBytes mem ∪ D.freeBytes mem) mem mem₂)
    (hinit : Initialized named mem₂ thr stack)
    (hname : cString (nameAt named thr) =
      cString (createdThread (k.sys.threads thr) text stack).name) :
    (D.addThread code mem₂ thr startFunc startArg).load32 (field thr .state) =
        ThreadState.created.code ∧
      D.HoldsKernel (D.readied (D.addThread code mem₂ thr startFunc startArg) thr)
        { sys := (inserted k.sys text thr stack).readied thr, created := k.created ++ [thr] } := by
  have hfresh := hp.fresh hchunks.threadFree
  have hapart := hp.apart_insert hchunks.threadFree
  obtain ⟨hctx, hcpu⟩ := cpuKstateInit_spec code mem₂ thr stack startFunc startArg
  obtain ⟨hnew, hnamed⟩ := hinit.words hchunks.apart hctx hcpu (k.sys.threads thr) text
  rw [addThread, hinit.stackBaseAddress, hinit.stackSize]
  generalize Arch.cpuKstateInit code mem₂ (field thr .cpuState) startFunc startArg stack
    threadKernelStackSize = mem₃ at *
  have hk : D.HoldsKernel mem₃ k := by
    refine h.outside hp (hsame.trans (hctx.mono (Set.union_subset ?_ ?_)))
    · exact hchunks.stackFree.trans Set.subset_union_right
    · exact (fieldBytes_subset thr _).trans (hchunks.threadFree.trans Set.subset_union_right)
  obtain ⟨hcreated, hwords⟩ := hk.enqueue hfresh (kernelSeparate hapart) hnew
  have hset : { t | t ∈ k.created ++ [thr] } = insert thr { t | t ∈ k.created } := by
    ext t
    simp [or_comm]
  refine ⟨hcreated, Memory.Tracks.of_load fun f hf => ?_, fun t ht => ?_, fun list => ?_⟩
  · rw [hset] at hf
    exact hwords.load f hf
  · replace ht : t ∈ insert thr { t | t ∈ k.created } := hset ▸ ht
    rw [HoldsWords.name hwords hapart ht]
    rcases ht with rfl | ht
    · rw [nameAt_congr hnamed, hname]
      simp [System.readied, System.setState, inserted]
    · have hne : t ≠ thr := fun he => hfresh (he ▸ ht)
      rw [hk.names t ht]
      simp [System.readied, System.setState, inserted, hne]
  · rw [hset]
    change LinkField.Within _
      (.link (((inserted k.sys text thr stack).readied thr).links.tqhLast list))
    rw [inserted_tqhLast]
    exact .inl rfl

/-- A call that creates nothing changes at most a structure that is no thread. -/
theorem HoldsKernel.failed (h : D.HoldsKernel mem k) (text : Option (List (BitVec 8)))
    (newThread : Option (BitVec 32)) (stack : BitVec 32)
    (hfailed : startFunc = 0 ∨ newThread = none ∨ stack = 0)
    (hfresh : ∀ thr, newThread = some thr → thr ∉ k.created) :
    ∃ sys, Step k (.create text startFunc newThread stack)
        { sys := sys, created := k.created ++ (none : Option (BitVec 32)).toList } ∧
      D.HoldsKernel mem
        { sys := sys, created := k.created ++ (none : Option (BitVec 32)).toList } := by
  obtain ⟨sys, hcall, hlinks, hthreads⟩ := @threadCreate_failed k.sys text _ _ newThread hfailed
  refine ⟨sys, .create hfresh hcall, ?_⟩
  have hsame := h.congr hlinks fun t ht => hthreads t fun he => hfresh t he ht
  rwa [Option.toList_none, List.append_nil]

/-- The name in the memory and in the structure is the same string. -/
theorem NameGiven.copied {name : BitVec 32} {mem₁ : Memory 32} (h : D.NameGiven mem name text)
    (hsame : Memory.SameOutside (D.heapBytes mem) mem mem₁)
    (hfree : threadBytes thr ⊆ D.freeBytes mem) (prior : Thread) (stack : BitVec 32) :
    cString (nameAt (initializeAttributes mem₁ thr (if name ≠ 0 then name else D.noName)) thr) =
      cString (createdThread prior text stack).name := by
  have hgiven := h.outside
  have hholds := hsame.holds (hgiven.mono (Memory.extent_mono (by simp)) Set.subset_union_left)
    h.holds
  generalize (if name ≠ 0 then name else D.noName) = name' at *
  have hnonzero := h.nonzero
  generalize htext : text.getD Threading.noName = given at *
  have hapart : Disjoint (Memory.extent name' (given ++ [0]).length) (fieldBytes thr .name) := by
    refine hgiven.mono (Memory.extent_mono (by simp)) ?_
    exact (fieldBytes_subset thr _).trans (hfree.trans Set.subset_union_right)
  have hcopied := initializeAttributes_copies mem₁ thr name' hholds hnonzero hapart
  have hshort : ∀ c ∈ given.take (threadMaxNamelen - 1), c ≠ 0 :=
    fun c hc => hnonzero c (List.mem_of_mem_take hc)
  have hlt : (given.take (threadMaxNamelen - 1)).length < threadMaxNamelen := by
    rw [List.length_take]
    exact Nat.lt_of_le_of_lt (Nat.min_le_left _ _) (by decide)
  rw [cString_nameAt hlt hshort hcopied]
  change _ = cString (Threading.strzcpy prior.name (text.getD Threading.noName) threadMaxNamelen)
  rw [htext]
  exact (cString_strzcpy (by decide) prior.name.2.ge hnonzero).symm

end created

end KernelData

/-- A call of `thread_create` in a memory that holds a kernel is a step of the kernel. -/
theorem threadCreate_step (D : KernelData) (code : Arch.CodeAddresses) (mem : Memory 32)
    (name startFunc startArg : BitVec 32) (text : Option (List (BitVec 8)))
    (k : Kernel (BitVec 32)) (hgood : Good (D.heapOf mem)) (hzero : NoFreeAtZero (D.heapOf mem))
    (hplaced : D.Placed 2 mem) (hthreads : D.ThreadsPlaced { t | t ∈ k.created } mem)
    (hk : D.HoldsKernel mem k) (hname : D.NameGiven mem name text) :
    ∃ bound, ∀ fuel, bound ≤ fuel → ∃ r mem' newThread stack sys,
      D.threadCreate code fuel mem name startFunc startArg = some (pointer r, mem') ∧
      Step k (.create text startFunc newThread stack)
        { sys := sys, created := k.created ++ r.toList } ∧
      D.HoldsKernel mem' { sys := sys, created := k.created ++ r.toList } := by
  obtain ⟨fs, us, h⟩ := hplaced.heapIn hgood hzero
  refine ⟨fs.length + us.length + 4, fun fuel hfuel => ?_⟩
  by_cases hf : startFunc = 0
  · obtain ⟨sys, hstep, hholds⟩ := hk.failed text none 0 (.inl hf) nofun
    exact ⟨none, mem, none, 0, sys, by rw [KernelData.threadCreate, if_pos hf]; rfl, hstep, hholds⟩
  obtain ⟨thr, mem₁, s₁, fs₁, us₁, hcall₁, h₁, hlen₁, htaken₁⟩ :=
    h.malloc sizeofThread (show fs.length + us.length < fuel by omega)
  rcases htaken₁ with ⟨rfl, rfl⟩ | ⟨hthr, htaken₁⟩
  · have hk₁ := hk.outside hthreads (h₁.elsewhere.mono Set.subset_union_left)
    obtain ⟨sys, hstep, hholds⟩ := hk₁.failed text none 0 (.inr (.inl rfl)) nofun
    exact ⟨none, mem₁, none, 0, sys, KernelData.threadCreate_noThread hf hcall₁, hstep, hholds⟩
  obtain ⟨hproper₁, hbytes₁, -⟩ := h.partition.taken h₁.partition htaken₁
  have hfree : KernelData.threadBytes thr ⊆ D.freeBytes mem :=
    fun c hc => hbytes₁ (hproper₁.mem_bytes hc)
  obtain ⟨stack, mem₂, s₂, fs₂, us₂, hcall₂, h₂, hlen₂, hsame₂, hinit, htaken₂⟩ :=
    KernelData.allocates_stack hplaced h₁ hfree (if name ≠ 0 then name else D.noName)
      (show fs₁.length + us₁.length < fuel by omega)
  have hfresh : ∀ t, some thr = some t → t ∉ k.created := by
    rintro t ⟨⟩
    exact hthreads.fresh hfree
  rcases htaken₂ with ⟨rfl, rfl⟩ | ⟨hs, htaken₂⟩
  · have hlive : (⟨thr, sizeofThread⟩ : MemoryRange) ∈ liveChunks s₂ := by
      rw [htaken₁.live]
      exact Set.mem_insert _ _
    obtain ⟨mem₃, s₃, fs₃, us₃, hcall₃, h₃, -⟩ :=
      h₂.free hthr hlive (show us₂.length + 1 < fuel by omega)
    have hk₃ := hk.outside hthreads (hsame₂.trans (h₃.elsewhere.mono Set.subset_union_left))
    obtain ⟨sys, hstep, hholds⟩ := hk₃.failed text (some thr) 0 (.inr (.inr rfl)) hfresh
    exact ⟨none, mem₃, some thr, 0, sys,
      KernelData.threadCreate_noStack hf hcall₁ hthr hcall₂ hcall₃, hstep, hholds⟩
  · have hchunks := KernelData.chunks h h₁ htaken₁ h₂ htaken₂
    have hcopied := hname.copied h₁.elsewhere hfree (k.sys.threads thr) stack
    obtain ⟨hcreated, hholds⟩ := hk.create hthreads hchunks hsame₂ hinit hcopied
    exact ⟨some thr, _, some thr, stack, _,
      KernelData.threadCreate_created hf hcall₁ hthr hcall₂ hs hcreated,
      .create hfresh (KernelData.threadCreate_inserted hf hs), hholds⟩

/-- A kernel without threads. -/
def emptyKernel : Kernel (BitVec 32) where
  sys :=
    { links := { load := fun _ => none, tqePrev := fun _ => .null, tqhLast := .first }
      threads := fun _ => clearedSystem.threads 0
      gCurrentThread := none }
  created := []

theorem holdsKernel_apartMemory : smallKernel.HoldsKernel apartMemory emptyKernel := by
  refine ⟨Memory.Tracks.of_load fun f hf => ?_, fun t ht => absurd ht List.not_mem_nil,
    fun _ => trivial⟩
  rcases f with ((_ | list | _) | _ | list) | _
  · exact absurd hf id
  · cases list <;> rfl
  · exact absurd hf List.not_mem_nil
  · exact absurd hf List.not_mem_nil
  · cases list <;> rfl
  · exact absurd hf List.not_mem_nil

theorem threadsPlaced_apartMemory :
    smallKernel.ThreadsPlaced { t | t ∈ emptyKernel.created } apartMemory := by
  constructor
  case apart =>
    rintro (list | t) (list' | t') ho ho' hne
    · cases list <;> cases list'
      · exact absurd rfl hne
      · exact Memory.extent_apart (by decide) (by decide)
      · exact Memory.extent_apart (by decide) (by decide)
      · exact absurd rfl hne
    · exact absurd ho' List.not_mem_nil
    · exact absurd ho List.not_mem_nil
    · exact absurd ho List.not_mem_nil
  case outside =>
    rintro (list | t) ho
    · refine Set.disjoint_left.mpr fun c hc hm => ?_
      obtain ⟨hheap, hfree⟩ := listsPlaced_apartMemory.outside c ⟨list, .inl hc⟩
      exact hm.elim hheap hfree
    · exact absurd ho List.not_mem_nil

/-- The bytes of "idle", which is at 0x100040. -/
theorem nameGiven_apartMemory : smallKernel.NameGiven apartMemory 0x100040 (some idleName) := by
  constructor
  case null => decide
  case holds => exact ⟨rfl, rfl, rfl, rfl, rfl, trivial⟩
  case nonzero => decide
  case outside =>
    change Disjoint (Memory.extent 0x100040 5) _
    exact outside_apartMemory (by decide) (by decide)

/-- The first creation, in a memory with two empty lists. -/
theorem threadCreate_step_apartMemory :
    ∃ bound, ∀ fuel, bound ≤ fuel → ∃ r mem' newThread stack sys,
      smallKernel.threadCreate smallCode fuel apartMemory 0x100040 0x110200 0 =
        some (pointer r, mem') ∧
      Step emptyKernel (.create (some idleName) 0x110200 newThread stack)
        { sys := sys, created := r.toList } ∧
      smallKernel.HoldsKernel mem' { sys := sys, created := r.toList } := by
  obtain ⟨hgood, hzero, -⟩ := good_of_one lists_apartMemory range_apartMemory
  exact threadCreate_step smallKernel smallCode apartMemory 0x100040 0x110200 0 _ emptyKernel hgood
    hzero placed_apartMemory threadsPlaced_apartMemory holdsKernel_apartMemory nameGiven_apartMemory

end Einherjar.Threading
