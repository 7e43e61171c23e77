import Einherjar.Memory.Completeness
import Einherjar.Memory.Reuse

/-! The allocator as its callers see it: the set of the chunks in use, to which a call adds a chunk
or from which it takes one, and the bytes that are left free. -/
namespace Einherjar.Memory
open Einherjar.Lib Einherjar.Lib.TailQueue

def liveChunks (s : HeapState) : Set MemoryRange := { r | OnList s .usedMemoryRanges r }

/-- The bytes that free ranges cover. -/
def coveredFree (s : HeapState) : Set ℕ :=
  { a | ∃ r, OnList s .freeMemoryRanges r ∧ a ∈ r.bytes }

def NoFreeAtZero (s : HeapState) : Prop :=
  ∀ r, OnList s .freeMemoryRanges r → r.baseAddress ≠ 0

section live

variable {s s' : HeapState} {fs us fs' us' : List (BitVec 32)} {size p n r : BitVec 32} {u : Set ℕ}

theorem Lists.mem_liveChunks (h : Lists s fs us) {c : MemoryRange} :
    c ∈ liveChunks s ↔ ∃ d ∈ us, s.range d = c := h.onList_used

theorem Partition.live_proper (h : Partition s fs us u) {c : MemoryRange}
    (hc : c ∈ liveChunks s) : c.Proper := by
  obtain ⟨d, hd, rfl⟩ := h.lists.mem_liveChunks.mp hc
  exact h.proper d (List.mem_append_right _ hd)

/-- What is covered and not in use is free. -/
theorem Partition.coveredFree_eq (h : Partition s fs us u) :
    coveredFree s = { a | a ∈ u ∧ ∀ r ∈ liveChunks s, a ∉ r.bytes } := by
  ext a
  constructor
  · rintro ⟨r, hr, ha⟩
    obtain ⟨d, hd, rfl⟩ := h.lists.onList_free.mp hr
    have hdall : d ∈ fs ++ us := List.mem_append_left _ hd
    refine ⟨(h.tiles.union a).mpr ⟨_, List.mem_map.mpr ⟨d, hdall, rfl⟩, ha⟩, ?_⟩
    intro q hq hqa
    obtain ⟨e, he, rfl⟩ := h.lists.onList_used.mp hq
    have hde : d ≠ e := fun hde => h.lists.disjoint d hd (hde ▸ he)
    exact Set.disjoint_left.mp (h.disjoint hdall (List.mem_append_right _ he) hde) ha hqa
  · rintro ⟨hu, hfree⟩
    obtain ⟨t, ht, ha⟩ := (h.tiles.union a).mp hu
    obtain ⟨d, hd, rfl⟩ := List.mem_map.mp ht
    rcases List.mem_append.mp hd with hd | hd
    · exact ⟨_, h.lists.onList_free.mpr ⟨d, hd, rfl⟩, ha⟩
    · exact absurd ha (hfree _ (h.lists.onList_used.mpr ⟨d, hd, rfl⟩))

/-- The bytes that are free depend on what is covered and on the chunks in use only. -/
theorem Partition.coveredFree_congr (h : Partition s fs us u) (h' : Partition s' fs' us' u)
    (hlive : liveChunks s' = liveChunks s) : coveredFree s' = coveredFree s := by
  rw [h.coveredFree_eq, h'.coveredFree_eq, hlive]

theorem Partition.live_exact {xs ys : List (BitVec 32)} {d : BitVec 32}
    (h : Partition s (xs ++ d :: ys) us u) (hd : (s.range d).size = size) :
    liveChunks (s.move .freeMemoryRanges .usedMemoryRanges d) =
      insert ⟨(s.range d).baseAddress, size⟩ (liveChunks s) := by
  have hlists := h.lists.allocate
  have hrange : s.range d = ⟨(s.range d).baseAddress, size⟩ := by rw [← hd]
  ext q
  rw [Set.mem_insert_iff, ← hrange, hlists.mem_liveChunks, h.lists.mem_liveChunks]
  change (∃ e ∈ us ++ [d], s.range e = q) ↔ _
  simp only [List.mem_append, List.mem_singleton]
  grind

theorem Partition.live_split {d : BitVec 32} (h : Partition s fs us u) (hd : d ∈ fs)
    (hlists : Lists (s.split d size) fs (us ++ [s.heap])) :
    liveChunks (s.split d size) =
      insert ⟨(s.range d).baseAddress + ((s.range d).size - size), size⟩ (liveChunks s) := by
  have hsame : ∀ e ∈ us, (s.split d size).range e = s.range e := by
    intro e he
    refine split_other s ?_ ?_ size
    · exact fun heq => hlists.heap_notMem (heq ▸ List.mem_append_right _ he)
    · rintro rfl
      exact h.lists.disjoint e hd he
  ext q
  rw [Set.mem_insert_iff, ← split_chunk, hlists.mem_liveChunks, h.lists.mem_liveChunks]
  simp only [List.mem_append, List.mem_singleton]
  grind

theorem Partition.live_release {xs ys : List (BitVec 32)} {d : BitVec 32}
    (h : Partition s fs (xs ++ d :: ys) u) :
    liveChunks (s.move .usedMemoryRanges .freeMemoryRanges d) = liveChunks s \ {s.range d} := by
  have hlists := h.lists.release
  have hdmem : d ∈ fs ++ (xs ++ d :: ys) := by simp
  have hne : ∀ e ∈ xs ++ ys, s.range e ≠ s.range d := by
    intro e he hsame
    have heq : e = d := h.eq_of_base (by grind) hdmem (congrArg MemoryRange.baseAddress hsame)
    have hnodup := (List.nodup_cons.mp (List.nodup_middle.mp h.lists.used.nodup)).1
    exact hnodup (heq ▸ he)
  ext q
  rw [Set.mem_sdiff, Set.mem_singleton_iff, hlists.mem_liveChunks, h.lists.mem_liveChunks]
  change (∃ e ∈ xs ++ ys, s.range e = q) ↔ _
  simp only [List.mem_append, List.mem_cons]
  grind

end live

/-- A chunk is added to those in use, and it was not one of them. -/
structure TakesChunk (s : HeapState) (c : MemoryRange) (s' : HeapState) : Prop where
  live : liveChunks s' = insert c (liveChunks s)
  fresh : c ∉ liveChunks s

/-- A chunk is no longer in use. -/
structure GivesBack (s : HeapState) (c : MemoryRange) (s' : HeapState) : Prop where
  live : liveChunks s' = liveChunks s \ {c}

theorem TakesChunk.giveBack {s t s' : HeapState} {c : MemoryRange} (h : TakesChunk s c t)
    (h' : GivesBack t c s') : liveChunks s' = liveChunks s := by
  rw [h'.live, h.live, Set.insert_sdiff_self_of_notMem h.fresh]

section calls

variable {s s' : HeapState} {fs us fs' us' : List (BitVec 32)} {size p n r : BitVec 32} {u : Set ℕ}

/-- A call of `heap_alloc` takes a chunk, or it returns NULL and changes nothing. -/
theorem Partition.takes (h : Partition s fs us u) (hzero : NoFreeAtZero s)
    (ha : Allocates s fs us size r s' fs' us') (hlists : Lists s' fs' us') :
    NoFreeAtZero s' ∧ (r = 0 ∧ s' = s ∨ r ≠ 0 ∧ TakesChunk s ⟨r, size⟩ s') := by
  have hexclusive := h.exclusive ha hlists
  have h' := h.allocates ha hlists
  have hfresh : r ≠ 0 → (⟨r, size⟩ : MemoryRange) ∉ liveChunks s := by
    intro hr hmem
    obtain ⟨d, hd, hrange⟩ := hlists.onList_used.mp (hexclusive hr).1
    have hne := (h'.proper d (List.mem_append_right _ hd)).nonempty
    rw [hrange] at hne
    exact hne.ne_empty (disjoint_self.mp ((hexclusive hr).2 _ hmem))
  cases ha with
  | refused => exact ⟨hzero, .inl ⟨rfl, rfl⟩⟩
  | @exactFit xs ys d hsize hfs hxs hd =>
    subst hfs
    have hr : (s.range d).baseAddress ≠ 0 :=
      hzero _ (h.lists.onList_free.mpr ⟨d, by simp, rfl⟩)
    refine ⟨fun q hq => ?_, .inr ⟨hr, h.live_exact hd, hfresh hr⟩⟩
    obtain ⟨e, he, rfl⟩ := hlists.onList_free.mp hq
    exact hzero _ (h.lists.onList_free.mpr ⟨e, by grind, rfl⟩)
  | @firstFit xs ys d hsize hfs hexact hxs hd =>
    have hmem : d ∈ fs := by simp [hfs]
    have hplace : ∀ e ∈ fs, e ≠ s.heap :=
      fun e he heq => hlists.heap_notMem (heq ▸ List.mem_append_left _ he)
    have htop := h.losesTop hmem (hplace d hmem) hsize hd
    refine ⟨fun q hq => ?_, .inr ⟨htop.ne_zero, h.live_split hmem hlists, hfresh htop.ne_zero⟩⟩
    obtain ⟨e, he, rfl⟩ := hlists.onList_free.mp hq
    have hbase : ((s.split d size).range e).baseAddress = (s.range e).baseAddress := by
      by_cases hed : e = d
      · rw [hed, htop.base]
      · rw [htop.others e hed (hplace e he)]
    rw [hbase]
    exact hzero _ (h.lists.onList_free.mpr ⟨e, he, rfl⟩)

theorem Partition.givesBack (h : Partition s fs us u) (hp : p ≠ 0)
    (hlive : (⟨p, n⟩ : MemoryRange) ∈ liveChunks s) (hf : Frees s fs us p s' fs' us') :
    GivesBack s ⟨p, n⟩ s' := by
  obtain ⟨xs, d, ys, rfl, hrange, rfl, -, -⟩ := h.frees_live hp hlive hf
  rw [← hrange]
  exact ⟨h.live_release⟩

/-- The bytes of a chunk that is taken were free, and are so no longer. -/
theorem Partition.taken {c : MemoryRange} (h : Partition s fs us u)
    (h' : Partition s' fs' us' u) (ht : TakesChunk s c s') :
    c.Proper ∧ c.bytes ⊆ coveredFree s ∧ coveredFree s' = coveredFree s \ c.bytes := by
  have hc : c ∈ liveChunks s' := ht.live ▸ Set.mem_insert c _
  obtain ⟨d, hd, rfl⟩ := h'.lists.onList_used.mp hc
  have hdall : d ∈ fs' ++ us' := List.mem_append_right _ hd
  have hu : (s'.range d).bytes ⊆ u := fun a ha =>
    (h'.tiles.union a).mpr ⟨_, List.mem_map.mpr ⟨d, hdall, rfl⟩, ha⟩
  refine ⟨h'.proper d hdall, fun a ha => ?_, ?_⟩
  · rw [h.coveredFree_eq]
    refine ⟨hu ha, fun r hr hra => ?_⟩
    have hr' : r ∈ liveChunks s' := ht.live ▸ Set.mem_insert_of_mem _ hr
    obtain ⟨e, he, rfl⟩ := h'.lists.onList_used.mp hr'
    have hne : d ≠ e := fun hde => ht.fresh (hde ▸ hr)
    exact Set.disjoint_left.mp (h'.disjoint hdall (List.mem_append_right _ he) hne) ha hra
  · rw [h'.coveredFree_eq, h.coveredFree_eq, ht.live]
    ext a
    simp only [Set.mem_insert_iff, forall_eq_or_imp]
    constructor
    · rintro ⟨ha, hnot, hothers⟩
      exact ⟨⟨ha, hothers⟩, hnot⟩
    · rintro ⟨⟨ha, hothers⟩, hnot⟩
      exact ⟨ha, hnot, hothers⟩

/-- A call uses up the room of at most one descriptor. -/
theorem Allocates.room {n : ℕ} (ha : Allocates s fs us size r s' fs' us') (h : Lists s fs us)
    (hroom : Room (n + 2) s) : Room (n + 1) s' := by
  have hless : Room (n + 1) s := hroom.le (Nat.le_succ _)
  cases ha with
  | refused => exact hless
  | @exactFit xs ys d hsize hfs hxs hd =>
    subst hfs
    refine ⟨hless.null, hless.fits, fun list e he => ?_⟩
    have hmem := h.allocate.listed.mp ⟨list, he⟩
    obtain ⟨list, hlisted⟩ := h.listed.mpr (show e ∈ xs ++ d :: ys ++ us by grind)
    exact hless.apart list e hlisted
  | firstFit => exact hroom.split h _ _

theorem Frees.noFreeAtZero (hf : Frees s fs us p s' fs' us') (h : Lists s fs us)
    (h' : Lists s' fs' us') (hzero : NoFreeAtZero s) : NoFreeAtZero s' := by
  cases hf with
  | nothing => exact hzero
  | @released xs ys d haddress hus hxs hd =>
    intro r hr
    obtain ⟨e, he, rfl⟩ := h'.onList_free.mp hr
    rcases List.mem_append.mp he with he | he
    · exact hzero _ (h.onList_free.mpr ⟨e, he, rfl⟩)
    · rw [List.mem_singleton.mp he]
      exact hd.trans_ne haddress

/-- A call of `heap_free` leaves the room for descriptors as it is. -/
theorem Frees.room {n : ℕ} (hf : Frees s fs us p s' fs' us') (h : Lists s fs us)
    (h' : Lists s' fs' us') (hroom : Room n s) : Room n s' := by
  obtain ⟨hperm, hheap⟩ := hf.descriptors
  constructor
  case null => exact hheap ▸ hroom.null
  case fits => exact hheap ▸ hroom.fits
  case apart =>
    intro list e he
    obtain ⟨list, hlisted⟩ := h.listed.mpr (hperm.mem_iff.mp (h'.listed.mp ⟨list, he⟩))
    rw [hheap]
    exact hroom.apart list e hlisted

/-- What `malloc` returns, with fuel for a walk over the free list and room for a descriptor. -/
theorem Partition.malloc (h : Partition s fs us u) (hzero : NoFreeAtZero s) {n : ℕ}
    (hroom : Room (n + 1) s) (size : BitVec 32) {fuel : ℕ} (hfuel : fs.length < fuel) :
    ∃ r s' fs' us', heapAlloc fuel s size = some (r, s') ∧ Partition s' fs' us' u ∧
      fs'.length ≤ fs.length ∧ us'.length ≤ us.length + 1 ∧ NoFreeAtZero s' ∧
      (r = 0 ∧ s' = s ∨ r ≠ 0 ∧ TakesChunk s ⟨r, size⟩ s') ∧
      Allocates s fs us size r s' fs' us' := by
  obtain ⟨r, s', hcall⟩ := heapAlloc_terminates h.lists size hfuel
  obtain ⟨fs', us', ha⟩ := heapAlloc_allocates h.lists hcall
  have hlists : Lists s' fs' us' := ha.lists h.lists fun _ _ _ _ =>
    ⟨hroom.null, hroom.heap_notMem h.lists⟩
  have htakes := h.takes hzero ha hlists
  refine ⟨r, s', fs', us', hcall, h.allocates ha hlists, ?_, ?_, htakes.1, htakes.2, ha⟩
  · cases ha <;> simp_all
  · cases ha <;> simp

/-- What `free` does with a chunk in use, with fuel for a walk over the used list. -/
theorem Partition.free (h : Partition s fs us u) (hp : p ≠ 0)
    (hlive : (⟨p, n⟩ : MemoryRange) ∈ liveChunks s) {fuel : ℕ} (hfuel : us.length + 1 < fuel) :
    ∃ s' fs' us', heapFree fuel s p = some s' ∧ Partition s' fs' us' u ∧
      GivesBack s ⟨p, n⟩ s' ∧ Frees s fs us p s' fs' us' := by
  obtain ⟨s', hcall⟩ := heapFree_terminates h.lists p hfuel
  obtain ⟨fs', us', hf, hlists⟩ := heapFree_frees h.lists hcall
  exact ⟨s', fs', us', hcall, h.frees hf hlists, h.givesBack hp hlive hf, hf⟩

end calls

end Einherjar.Memory
