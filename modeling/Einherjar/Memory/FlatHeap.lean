import Einherjar.Lib.LinkWords
import Einherjar.Memory.LiveChunks

/-! The allocator in the memory that it manages: its variables, its descriptors and the chunks are
bytes of one memory, and a call does what it does on the lists as long as none of them overlap. -/
namespace Einherjar.Memory
open Einherjar.Lib Einherjar.Lib.TailQueue

/-- Where the linker has put the variables of `physical-memory.c`. -/
structure HeapData where
  /-- `&free_memory_ranges` and `&used_memory_ranges` -/
  list : RangeList → BitVec 32
  /-- `&heap` -/
  heap : BitVec 32

namespace HeapData

/-- `offsetof(struct memory_range, next)` -/
def next : BitVec 32 := 8

section calls

variable (D : HeapData)

/-- `TAILQ_FOREACH` with a test that ends it; the result is NULL when no range passes it. -/
def findRange (mem : Memory 32) (p : BitVec 32 → Bool) : ℕ → BitVec 32 → Option (BitVec 32)
  | 0, _ => none
  | fuel + 1, memRange =>
    if memRange = 0 then some 0
    else if p memRange then some memRange
    else findRange mem p fuel (mem.load32 (memRange + next))

/-- `TAILQ_REMOVE` from one list and `TAILQ_INSERT_TAIL` to another. -/
def move (mem : Memory 32) (source target : RangeList) (memRange : BitVec 32) : Memory 32 :=
  (mem.tailqRemove next (D.list source) memRange).tailqInsertTail next (D.list target) memRange

/-- The chunk that is cut off a range, and the memory. -/
def split (mem : Memory 32) (memRange size : BitVec 32) : BitVec 32 × Memory 32 :=
  -- Resize the current memory range
  let mem := mem.store32 (memRange + 4) (mem.load32 (memRange + 4) - size)
  -- Allocate a new chunk
  let place := mem.load32 D.heap
  let mem := mem.store32 D.heap (mem.load32 D.heap + sizeofMemoryRange)
  let mem := mem.store32 place (mem.load32 memRange + mem.load32 (memRange + 4))
  let mem := mem.store32 (place + 4) size
  -- Update the list
  let mem := mem.tailqInsertTail next (D.list .usedMemoryRanges) place
  (mem.load32 place, mem)

/-- The result is the address of the chunk or NULL, and the memory. -/
def heapAlloc (fuel : ℕ) (mem : Memory 32) (size : BitVec 32) :
    Option (BitVec 32 × Memory 32) :=
  if size = 0 ∨ mem.load32 (D.list .freeMemoryRanges) = 0 then some (0, mem)
  else
    -- First round: matching for the exact space
    match findRange mem (fun d => mem.load32 (d + 4) = size) fuel
      (mem.load32 (D.list .freeMemoryRanges)) with
    | none => none
    | some memRange =>
      if memRange ≠ 0 then
        let mem := D.move mem .freeMemoryRanges .usedMemoryRanges memRange
        some (mem.load32 memRange, mem)
      else
        -- Second round: First-fit method
        match findRange mem (fun d => size ≤ mem.load32 (d + 4)) fuel
          (mem.load32 (D.list .freeMemoryRanges)) with
        | none => none
        | some memRange => if memRange ≠ 0 then some (D.split mem memRange size) else some (0, mem)

def heapFreeLoop (address : BitVec 32) : ℕ → Memory 32 → BitVec 32 → Option (Memory 32)
  | 0, _, _ => none
  | fuel + 1, mem, memRange =>
    if memRange = 0 then some mem
    else
      let mem := if mem.load32 memRange = address then
          D.move mem .usedMemoryRanges .freeMemoryRanges memRange
        else mem
      heapFreeLoop address fuel mem (mem.load32 (memRange + next))

def heapFree (fuel : ℕ) (mem : Memory 32) (address : BitVec 32) : Option (Memory 32) :=
  if address = 0 then some mem
  else D.heapFreeLoop address fuel mem (mem.load32 (D.list .usedMemoryRanges))

end calls

end HeapData

/-- The words of the ranges, and the bump pointer. -/
inductive HeapWord where
  | baseAddress (d : BitVec 32)
  | size (d : BitVec 32)
  | heap
  deriving DecidableEq

/-- The words of the allocator: what its variables and its descriptors consist of. -/
abbrev HeapField := LinkField RangeList ⊕ HeapWord

/-- A word of a variable, or of one of the descriptors. -/
def HeapWord.Within (ds : Set (BitVec 32)) : HeapWord → Prop
  | .baseAddress d => d ∈ ds
  | .size d => d ∈ ds
  | .heap => True

def HeapField.Within (ds : Set (BitVec 32)) : Set HeapField :=
  Sum.elim (LinkField.Within ds) (HeapWord.Within ds)

namespace HeapData

variable (D : HeapData)

/-- The two lists in memory. -/
def queues : QueueLayout RangeList := ⟨D.list, next⟩

def rangeWord : HeapWord → BitVec 32
  | .baseAddress d => d
  | .size d => d + 4
  | .heap => D.heap

def word : HeapField → BitVec 32 := Sum.elim D.queues.word D.rangeWord

/-- What a state of the lists puts in the words. -/
def rangeValue (s : HeapState) : HeapWord → BitVec 32
  | .baseAddress d => (s.range d).baseAddress
  | .size d => (s.range d).size
  | .heap => s.heap

def asSlot (a : BitVec 32) : Slot RangeList (BitVec 32) :=
  if a = D.list .freeMemoryRanges then .first .freeMemoryRanges
  else if a = D.list .usedMemoryRanges then .first .usedMemoryRanges
  else .next (a - next)

/-- The state of the lists that a memory contains. -/
def heapOf (mem : Memory 32) : HeapState where
  links :=
    { load := fun c => asPointer (mem.load32 (D.queues.slotAddress c))
      tqePrev := fun d => D.asSlot (mem.load32 (d + next + 4))
      tqhLast := fun list => D.asSlot (mem.load32 (D.list list + 4)) }
  range d := { baseAddress := mem.load32 d, size := mem.load32 (d + 4) }
  heap := mem.load32 D.heap

/-- The fields of the allocator's variables and of the descriptors have the values of the state. -/
abbrev Tracks (ds : Set (BitVec 32)) (start mem : Memory 32) (s : HeapState) : Prop :=
  D.queues.Tracks D.rangeWord (HeapField.Within ds) start mem s.links (rangeValue s)

section values

variable {D} {s : HeapState} {mem : Memory 32}

@[simp] theorem slotAddress_next (d : BitVec 32) : D.queues.slotAddress (.next d) = d + next := rfl
@[simp] theorem slotAddress_first (list : RangeList) :
    D.queues.slotAddress (.first list) = D.list list := rfl

theorem slotAddress_asSlot (a : BitVec 32) : D.queues.slotAddress (D.asSlot a) = a := by
  unfold asSlot
  split_ifs with hfree hused
  · exact hfree.symm
  · exact hused.symm
  · exact BitVec.sub_add_cancel ..

/-- A memory has the values of the state that it contains. -/
theorem tracks_heapOf (ds : Set (BitVec 32)) : D.Tracks ds mem mem (D.heapOf mem) := by
  refine Memory.Tracks.of_load fun f _ => ?_
  rcases f with (c | d | list) | f
  · exact (pointer_asPointer _).symm
  · exact (slotAddress_asSlot _).symm
  · exact (slotAddress_asSlot _).symm
  · cases f <;> rfl

theorem rangeValue_setHeap (a : BitVec 32) :
    Function.update (rangeValue s) .heap a = rangeValue { s with heap := a } := by
  funext f
  cases f <;> rfl

theorem rangeValue_setSize (d size : BitVec 32) :
    Function.update (rangeValue s) (.size d) size =
      rangeValue (s.setRange d { s.range d with size := size }) := by
  funext f
  cases f with
  | heap => rfl
  | _ e => by_cases h : e = d <;> simp [h, rangeValue, HeapState.setRange]

theorem rangeValue_setBaseAddress (d a : BitVec 32) :
    Function.update (rangeValue s) (.baseAddress d) a =
      rangeValue (s.setRange d { s.range d with baseAddress := a }) := by
  funext f
  cases f with
  | heap => rfl
  | _ e => by_cases h : e = d <;> simp [h, rangeValue, HeapState.setRange]

end values

section loads

variable {D} {ds : Set (BitVec 32)} {start mem : Memory 32} {s : HeapState} {d : BitVec 32}
  (h : D.Tracks ds start mem s)

include h

theorem Tracks.load_first (list : RangeList) :
    mem.load32 (D.list list) = pointer (s.links.load (.first list)) :=
  h.load_link (c := .first list) trivial

theorem Tracks.load_next (hd : d ∈ ds) :
    mem.load32 (d + next) = pointer (s.links.load (.next d)) :=
  h.load (.inl (.link (.next d))) hd

theorem Tracks.load_prev (hd : d ∈ ds) :
    mem.load32 (d + next + 4) = D.queues.slotAddress (s.links.tqePrev d) :=
  h.load (.inl (.tqePrev d)) hd

theorem Tracks.load_last (list : RangeList) :
    mem.load32 (D.list list + 4) = D.queues.slotAddress (s.links.tqhLast list) :=
  h.load (.inl (.tqhLast list)) trivial

theorem Tracks.load_baseAddress (hd : d ∈ ds) : mem.load32 d = (s.range d).baseAddress :=
  h.load (.inr (.baseAddress d)) hd

theorem Tracks.load_size (hd : d ∈ ds) : mem.load32 (d + 4) = (s.range d).size :=
  h.load (.inr (.size d)) hd

theorem Tracks.load_heap : mem.load32 D.heap = s.heap := h.load (.inr .heap) trivial

end loads

section operations

variable {D} {ds : Set (BitVec 32)} {start mem : Memory 32} {s : HeapState}
  {d e : BitVec 32} {xs ys zs : List (BitVec 32)}
  (hsep : Memory.Separate D.word (HeapField.Within ds))

include hsep

theorem Tracks.setHeap (h : D.Tracks ds start mem s) (a : BitVec 32) :
    D.Tracks ds start (mem.store32 D.heap a) { s with heap := a } := by
  have hstore := h.storeOther hsep (g := .heap) trivial a
  rwa [rangeValue_setHeap] at hstore

theorem Tracks.setSize (h : D.Tracks ds start mem s) (hd : d ∈ ds) (size : BitVec 32) :
    D.Tracks ds start (mem.store32 (d + 4) size)
      (s.setRange d { s.range d with size := size }) := by
  have hstore := h.storeOther hsep (g := .size d) hd size
  rwa [rangeValue_setSize] at hstore

theorem Tracks.setBaseAddress (h : D.Tracks ds start mem s) (hd : d ∈ ds) (a : BitVec 32) :
    D.Tracks ds start (mem.store32 d a)
      (s.setRange d { s.range d with baseAddress := a }) := by
  have hstore := h.storeOther hsep (g := .baseAddress d) hd a
  rwa [rangeValue_setBaseAddress] at hstore

/-- Between two lists whose elements are descriptors. -/
theorem Tracks.move (h : D.Tracks ds start mem s) {source target : RangeList}
    (hne : target ≠ source)
    (hs : Tailq s.links source (xs ++ d :: ys)) (ht : Queue s.links target zs)
    (hds : ∀ e ∈ xs ++ d :: ys, e ∈ ds) (hzs : ∀ e ∈ zs, e ∈ ds) (h0 : 0 ∉ ds) :
    D.Tracks ds start (D.move mem source target d) (s.move source target d) := by
  have hd : d ∈ ds := hds d (by simp)
  have hnext : ∀ e, s.links.load (.next d) = some e → e ∈ ds ∧ e ≠ 0 := by
    intro e he
    have hmem : e ∈ ds := hds e (by simp [hs.next_mem he])
    exact ⟨hmem, fun hzero => h0 (hzero ▸ hmem)⟩
  have hremove := QueueLayout.Tracks.remove h hsep source hd hd trivial
    (LinkField.within_prev hs hds) hnext
  have hsame : (TailQueue.remove s.links source d).tqhLast target = s.links.tqhLast target := by
    cases hsucc : s.links.load (.next d) with
    | none => rw [remove_tqhLast_of_none _ _ _ hsucc, Function.update_of_ne hne]
    | some e => rw [remove_tqhLast_of_some _ _ _ hsucc]
  refine hremove.insertTail hsep target hd hd trivial ?_
  rw [hsame]
  exact LinkField.within_last ht hzs

omit hsep in
/-- The loop that looks for a range. -/
theorem Tracks.findRange (h : D.Tracks ds start mem s) {p q : BitVec 32 → Bool}
    {c : Slot RangeList (BitVec 32)} {fuel : ℕ} {r : Option (BitVec 32)} (h0 : 0 ∉ ds)
    (hw : Walk s.links c xs) (hc : LinkField.Within ds (.link c)) (hds : ∀ d ∈ xs, d ∈ ds)
    (hpq : ∀ d ∈ xs, q d = p d) (hfind : findFrom s.links p fuel (s.links.load c) = some r) :
    HeapData.findRange mem q fuel (mem.load32 (D.queues.slotAddress c)) = some (pointer r) := by
  rw [h.load_link hc]
  induction fuel generalizing c xs with
  | zero => simp [findFrom] at hfind
  | succ fuel ih =>
    cases xs with
    | nil =>
      rw [walk_nil.mp hw] at hfind ⊢
      rw [← Option.some.inj hfind]
      rfl
    | cons d xs =>
      obtain ⟨hd, hw⟩ := walk_cons.mp hw
      have hmem : d ∈ ds := hds d List.mem_cons_self
      have hne : d ≠ 0 := fun hzero => h0 (hzero ▸ hmem)
      rw [hd] at hfind ⊢
      unfold findFrom at hfind
      rw [pointer_some, HeapData.findRange, if_neg hne, hpq d List.mem_cons_self]
      by_cases hp : p d
      · rw [if_pos hp] at hfind ⊢
        rw [← Option.some.inj hfind, pointer_some]
      · rw [if_neg hp] at hfind ⊢
        rw [h.load_next hmem]
        exact ih hw hmem (fun e he => hds e (List.mem_cons_of_mem _ he))
          (fun e he => hpq e (List.mem_cons_of_mem _ he)) hfind

theorem Tracks.split (h : D.Tracks ds start mem s) (hd : d ∈ ds) (hheap : s.heap ∈ ds)
    (hnull : s.heap ≠ 0)
    (hlast : LinkField.Within ds (.link (s.links.tqhLast .usedMemoryRanges))) (size : BitVec 32) :
    D.Tracks ds start (D.split mem d size).2 (s.split d size) ∧
      (D.split mem d size).1 = ((s.split d size).range s.heap).baseAddress := by
  let s₁ := s.setRange d { s.range d with size := (s.range d).size - size }
  let s₂ : HeapState := { s₁ with heap := s.heap + sizeofMemoryRange }
  let base := (s₂.range d).baseAddress + (s₂.range d).size
  let s₃ := s₂.setRange s.heap { s₂.range s.heap with baseAddress := base }
  let s₄ := s₃.setRange s.heap { s₃.range s.heap with size := size }
  have hstate : s.split d size =
      { s₄ with links := TailQueue.insertTail s.links .usedMemoryRanges s.heap } := by
    have hrange : s₄.range = Function.update s₂.range s.heap ⟨base, size⟩ := by
      simp [s₄, s₃, HeapState.setRange]
    rw [hrange, ← split_links hnull d size]
    rfl
  have h₁ : D.Tracks ds start _ s₁ := h.setSize hsep hd ((s.range d).size - size)
  dsimp only [HeapData.split]
  rw [h.load_size hd]
  generalize mem.store32 (d + 4) ((s.range d).size - size) = mem₁ at h₁
  have hplace : mem₁.load32 D.heap = s.heap := h₁.load_heap
  have h₂ : D.Tracks ds start _ s₂ := h₁.setHeap hsep (s.heap + sizeofMemoryRange)
  rw [hplace]
  generalize mem₁.store32 D.heap (s.heap + sizeofMemoryRange) = mem₂ at h₂
  have hbase : mem₂.load32 d + mem₂.load32 (d + 4) = base :=
    congrArg₂ (· + ·) (h₂.load_baseAddress hd) (h₂.load_size hd)
  have h₃ : D.Tracks ds start _ s₃ := h₂.setBaseAddress hsep hheap base
  have h₄ : D.Tracks ds start _ s₄ := h₃.setSize hsep hheap size
  have h₅ : D.Tracks ds start _
      { s₄ with links := TailQueue.insertTail s.links .usedMemoryRanges s.heap } :=
    QueueLayout.Tracks.insertTail h₄ hsep .usedMemoryRanges hheap hheap trivial hlast
  rw [hbase, hstate]
  exact ⟨h₅, h₅.load_baseAddress hheap⟩

end operations

section refinement

private theorem used_ne_free : RangeList.usedMemoryRanges ≠ .freeMemoryRanges := by decide

variable {D} {ds : Set (BitVec 32)} {start mem : Memory 32} {s s' : HeapState} {fuel : ℕ}
  {fs us xs : List (BitVec 32)} {size address r : BitVec 32}
  (hsep : Memory.Separate D.word (HeapField.Within ds)) (h0 : 0 ∉ ds)

include h0 in
theorem Tracks.isEmpty_iff (h : D.Tracks ds start mem s) {list : RangeList}
    (hw : Walk s.links (.first list) xs) (hds : ∀ d ∈ xs, d ∈ ds) :
    mem.load32 (D.list list) = 0 ↔ isEmpty s.links list := by
  rw [h.load_first, isEmpty]
  cases xs with
  | nil => simp [walk_nil.mp hw]
  | cons d xs =>
    have hne : d ≠ 0 := fun hzero => h0 (hzero ▸ hds d List.mem_cons_self)
    rw [(walk_cons.mp hw).1, pointer_some]
    exact iff_of_false hne (by simp)

include hsep h0 in
/-- A call of `heap_alloc` in the memory follows the call on the lists. -/
theorem Tracks.heapAlloc (h : D.Tracks ds start mem s) (hl : Lists s fs us)
    (hds : ∀ d ∈ fs ++ us, d ∈ ds) (hheap : s.heap ∈ ds)
    (hcall : Memory.heapAlloc fuel s size = some (r, s')) :
    ∃ mem', D.heapAlloc fuel mem size = some (r, mem') ∧ D.Tracks ds start mem' s' := by
  have hwalk := hl.free.queue.walk
  have hfs : ∀ d ∈ fs, d ∈ ds := fun d hd => hds d (List.mem_append_left _ hd)
  have hus : ∀ d ∈ us, d ∈ ds := fun d hd => hds d (List.mem_append_right _ hd)
  have hnull : s.heap ≠ 0 := fun hzero => h0 (hzero ▸ hheap)
  unfold Memory.heapAlloc at hcall
  unfold HeapData.heapAlloc
  have hiff : size = 0 ∨ mem.load32 (D.list .freeMemoryRanges) = 0 ↔
      size = 0 ∨ isEmpty s.links .freeMemoryRanges := or_congr_right (h.isEmpty_iff h0 hwalk hfs)
  by_cases hstop : size = 0 ∨ isEmpty s.links .freeMemoryRanges
  · rw [if_pos hstop] at hcall
    rw [if_pos (hiff.mpr hstop)]
    obtain ⟨rfl, rfl⟩ := Prod.mk.inj (Option.some.inj hcall)
    exact ⟨mem, rfl, h⟩
  rw [if_neg hstop] at hcall
  rw [if_neg (mt hiff.mp hstop)]
  unfold first at hcall
  cases hfirst : findFrom s.links (fun d => (s.range d).size = size) fuel
      (s.links.load (.first .freeMemoryRanges)) with
  | none => simp [hfirst] at hcall
  | some found =>
    have hflat : HeapData.findRange mem (fun d => mem.load32 (d + 4) = size) fuel
        (mem.load32 (D.list .freeMemoryRanges)) = some (pointer found) :=
      h.findRange (c := .first .freeMemoryRanges) h0 hwalk trivial hfs
        (fun d hd => congrArg (decide <| · = size) (h.load_size (hfs d hd))) hfirst
    rw [hfirst] at hcall
    rw [hflat]
    rcases findFrom_cases hwalk hfirst with ⟨rfl, -⟩ | ⟨xs, d, ys, rfl, -, -, rfl⟩
    · cases hsecond : findFrom s.links (fun d => size ≤ (s.range d).size) fuel
          (s.links.load (.first .freeMemoryRanges)) with
      | none => simp [hsecond] at hcall
      | some found =>
        have hflat' : HeapData.findRange mem (fun d => size ≤ mem.load32 (d + 4)) fuel
            (mem.load32 (D.list .freeMemoryRanges)) = some (pointer found) :=
          h.findRange (c := .first .freeMemoryRanges) h0 hwalk trivial hfs
            (fun d hd => congrArg (decide <| size ≤ ·) (h.load_size (hfs d hd))) hsecond
        simp only [hsecond] at hcall
        simp only [pointer_none, ne_eq, not_true_eq_false, if_false, hflat']
        rcases findFrom_cases hwalk hsecond with ⟨rfl, -⟩ | ⟨xs, d, ys, rfl, -, -, rfl⟩
        · obtain ⟨rfl, rfl⟩ := Prod.mk.inj (Option.some.inj hcall)
          exact ⟨mem, rfl, h⟩
        · obtain ⟨rfl, rfl⟩ := Prod.mk.inj (Option.some.inj hcall)
          have hd : d ∈ ds := hfs d (by simp)
          have hne : d ≠ 0 := fun hzero => h0 (hzero ▸ hd)
          obtain ⟨hmem, hr⟩ :=
            h.split hsep hd hheap hnull (LinkField.within_last hl.used.queue hus) size
          refine ⟨_, ?_, hmem⟩
          rw [pointer_some, if_pos hne, ← hr]
    · obtain ⟨rfl, rfl⟩ := Prod.mk.inj (Option.some.inj hcall)
      have hd : d ∈ ds := hfs d (by simp)
      have hne : d ≠ 0 := fun hzero => h0 (hzero ▸ hd)
      have hmove := h.move hsep used_ne_free hl.free hl.used.queue hfs hus h0
      refine ⟨_, ?_, hmove⟩
      simp only [pointer_some, ne_eq, hne, not_false_eq_true, if_true]
      rw [hmove.load_baseAddress hd]
      rfl

include hsep h0 in
/-- The loop of `heap_free`, from any place on the used list. -/
theorem Tracks.heapFreeLoop (h : D.Tracks ds start mem s) (hl : Lists s fs us)
    (hds : ∀ d ∈ fs ++ us, d ∈ ds) {ys : List (BitVec 32)} {c : Slot RangeList (BitVec 32)}
    (hus : us = ys ++ xs) (hw : Walk s.links c xs)
    (hcall : Memory.heapFreeLoop address fuel s (s.links.load c) = some s') :
    ∃ mem', D.heapFreeLoop address fuel mem (pointer (s.links.load c)) = some mem' ∧
      D.Tracks ds start mem' s' := by
  induction fuel generalizing c xs ys with
  | zero => simp [Memory.heapFreeLoop] at hcall
  | succ fuel ih =>
    cases xs with
    | nil =>
      rw [walk_nil.mp hw] at hcall ⊢
      obtain rfl := Option.some.inj hcall
      exact ⟨mem, rfl, h⟩
    | cons d xs =>
      obtain ⟨hlink, hw⟩ := walk_cons.mp hw
      have hd : d ∈ ds := hds d (by simp [hus])
      have hne : d ≠ 0 := fun hzero => h0 (hzero ▸ hd)
      rw [hlink] at hcall ⊢
      unfold Memory.heapFreeLoop at hcall
      rw [pointer_some, HeapData.heapFreeLoop, if_neg hne, h.load_baseAddress hd]
      by_cases hbase : (s.range d).baseAddress = address
      · -- The loop goes on from the end of the free list
        subst hus
        have hus : ∀ e ∈ ys ++ d :: xs, e ∈ ds := fun e he => hds e (List.mem_append_right _ he)
        have hfs : ∀ e ∈ fs, e ∈ ds := fun e he => hds e (List.mem_append_left _ he)
        have hmove := h.move hsep used_ne_free.symm hl.used hl.free.queue hus hfs h0
        have hend : (s.move .usedMemoryRanges .freeMemoryRanges d).links.load (.next d) = none := by
          have hlast := hl.release.free.queue.walk.2
          rwa [endSlot_concat] at hlast
        simp only [if_pos hbase] at hcall ⊢
        rw [hmove.load_next hd]
        rw [hend] at hcall ⊢
        cases fuel with
        | zero => simp [Memory.heapFreeLoop] at hcall
        | succ fuel =>
          obtain rfl := Option.some.inj hcall
          exact ⟨_, rfl, hmove⟩
      · simp only [if_neg hbase] at hcall ⊢
        rw [h.load_next hd]
        have hsplit : us = (ys ++ [d]) ++ xs := by simp [hus]
        exact ih hsplit hw hcall

include hsep h0 in
/-- A call of `heap_free` in the memory follows the call on the lists. -/
theorem Tracks.heapFree (h : D.Tracks ds start mem s) (hl : Lists s fs us)
    (hds : ∀ d ∈ fs ++ us, d ∈ ds) (hcall : Memory.heapFree fuel s address = some s') :
    ∃ mem', D.heapFree fuel mem address = some mem' ∧ D.Tracks ds start mem' s' := by
  unfold Memory.heapFree at hcall
  unfold HeapData.heapFree
  by_cases haddress : address = 0
  · rw [if_pos haddress] at hcall ⊢
    obtain rfl := Option.some.inj hcall
    exact ⟨mem, rfl, h⟩
  · rw [if_neg haddress] at hcall ⊢
    rw [h.load_first]
    exact h.heapFreeLoop hsep h0 hl hds (List.nil_append us).symm hl.used.queue.walk hcall

end refinement

end HeapData

end Einherjar.Memory
