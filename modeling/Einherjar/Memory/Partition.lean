import Mathlib.Algebra.Ring.Nat
import Mathlib.Data.List.Pairwise
import Einherjar.Lib.Pieces
import Einherjar.Memory.HeapCalls

/-! Good states of the allocator: the ranges of its two lists cut up the bytes that they cover. -/
namespace Einherjar.Memory
open Einherjar.Lib Einherjar.Lib.TailQueue

/-- The addresses of a range. -/
def MemoryRange.bytes (r : MemoryRange) : Set ℕ :=
  { a | r.baseAddress.toNat ≤ a ∧ a < r.baseAddress.toNat + r.size.toNat }

/-- The range is not empty and does not go beyond the end of memory. -/
def MemoryRange.Proper (r : MemoryRange) : Prop :=
  r.size ≠ 0 ∧ r.baseAddress.toNat + r.size.toNat ≤ 2 ^ 32

/-- The ranges on one of the lists. -/
def OnList (s : HeapState) (list : RangeList) (r : MemoryRange) : Prop :=
  ∃ ds, Walk s.links (.first list) ds ∧ ∃ d ∈ ds, s.range d = r

/-- The ranges of the two lists together are proper and do not overlap. -/
def Good (s : HeapState) : Prop :=
  ∃ fs us, Lists s fs us ∧ (∀ d ∈ fs ++ us, (s.range d).Proper) ∧
    ((fs ++ us).map s.range).Pairwise fun r q => Disjoint r.bytes q.bytes

/-- The bytes that the two lists cover. -/
def covered (s : HeapState) : Set ℕ :=
  { a | ∃ list r, OnList s list r ∧ a ∈ r.bytes }

inductive HeapCall where
  | alloc (size result : BitVec 32)
  | free (address : BitVec 32)

inductive HeapStep : HeapState → HeapCall → HeapState → Prop
  | alloc {s s' : HeapState} {fuel : ℕ} {size r : BitVec 32}
      (call : heapAlloc fuel s size = some (r, s')) : HeapStep s (.alloc size r) s'
  | free {s s' : HeapState} {fuel : ℕ} {address : BitVec 32}
      (call : heapFree fuel s address = some s') : HeapStep s (.free address) s'

/-- The descriptor is on the list. -/
def Listed (s : HeapState) (list : RangeList) (d : BitVec 32) : Prop :=
  ∃ ds, Walk s.links (.first list) ds ∧ d ∈ ds

/-- The call cuts a chunk off a larger range: there is no exact fit, but something larger. -/
def Splits (s : HeapState) : HeapCall → Prop
  | .alloc size _ => size ≠ 0 ∧ (∀ r, OnList s .freeMemoryRanges r → r.size ≠ size) ∧
      ∃ r, OnList s .freeMemoryRanges r ∧ size < r.size
  | .free _ => False

/-- The next `n` descriptors lie behind address 0 and within the address space, and they meet none
of those on the lists. -/
structure Room (n : ℕ) (s : HeapState) : Prop where
  null : s.heap ≠ 0
  fits : s.heap.toNat + 16 * n ≤ 2 ^ 32
  apart : ∀ list d, Listed s list d →
    d.toNat + 16 ≤ s.heap.toNat ∨ s.heap.toNat + 16 * n ≤ d.toNat

/-- A call that creates a descriptor has room for it at the bump pointer. -/
def FindsRoom (s : HeapState) (c : HeapCall) : Prop := Splits s c → Room 1 s

theorem findsRoom_free (s : HeapState) (address : BitVec 32) : FindsRoom s (.free address) :=
  False.elim

/-- A chunk that is given out has the size asked for, and overlaps no chunk that is in use. -/
def Exclusive (s : HeapState) (c : HeapCall) (s' : HeapState) : Prop :=
  match c with
  | .alloc size r => r ≠ 0 → OnList s' .usedMemoryRanges ⟨r, size⟩ ∧
      ∀ q, OnList s .usedMemoryRanges q → Disjoint (MemoryRange.bytes ⟨r, size⟩) q.bytes
  | .free _ => True

theorem MemoryRange.Proper.nonempty {r : MemoryRange} (h : r.Proper) : r.bytes.Nonempty := by
  have hpos : 0 < r.size.toNat := by
    have := h.1
    bv_omega
  exact ⟨r.baseAddress.toNat, le_refl _, by omega⟩

section Cut

variable {r : MemoryRange} {size : BitVec 32}

/-- What is left of a range, and the chunk cut off its top. -/
theorem MemoryRange.Proper.cut (h : r.Proper) (hsize : size ≠ 0) (hfit : size < r.size) :
    MemoryRange.Proper ⟨r.baseAddress, r.size - size⟩ ∧
      MemoryRange.Proper ⟨r.baseAddress + (r.size - size), size⟩ ∧
      r.bytes = MemoryRange.bytes ⟨r.baseAddress, r.size - size⟩ ∪
        MemoryRange.bytes ⟨r.baseAddress + (r.size - size), size⟩ ∧
      Disjoint (MemoryRange.bytes ⟨r.baseAddress, r.size - size⟩)
        (MemoryRange.bytes ⟨r.baseAddress + (r.size - size), size⟩) := by
  obtain ⟨hne, htop⟩ := h
  have hrest : (r.size - size).toNat = r.size.toNat - size.toNat := by bv_omega
  have hbase : (r.baseAddress + (r.size - size)).toNat =
      r.baseAddress.toNat + (r.size.toNat - size.toNat) := by
    rw [← hrest]
    bv_omega
  have hlt : size.toNat < r.size.toNat := hfit
  refine ⟨⟨?_, ?_⟩, ⟨hsize, ?_⟩, ?_, ?_⟩
  · bv_omega
  · simp only [hrest]
    omega
  · simp only [hbase]
    omega
  · ext a
    simp only [bytes, Set.mem_union, Set.mem_ofPred_eq, hrest, hbase]
    omega
  · rw [Set.disjoint_left]
    simp only [bytes, Set.mem_ofPred_eq, hrest, hbase]
    omega

end Cut

section Lists

variable {s : HeapState} {fs us : List (BitVec 32)}

theorem onList_iff {list : RangeList} {ds : List (BitVec 32)} (h : Walk s.links (.first list) ds)
    {r : MemoryRange} : OnList s list r ↔ ∃ d ∈ ds, s.range d = r := by
  constructor
  · intro hr
    obtain ⟨es, hw, hr⟩ := hr
    rwa [hw.unique h] at hr
  · exact fun hr => ⟨ds, h, hr⟩

theorem Lists.onList_free (h : Lists s fs us) {r : MemoryRange} :
    OnList s .freeMemoryRanges r ↔ ∃ d ∈ fs, s.range d = r := onList_iff h.free.queue.walk

theorem Lists.onList_used (h : Lists s fs us) {r : MemoryRange} :
    OnList s .usedMemoryRanges r ↔ ∃ d ∈ us, s.range d = r := onList_iff h.used.queue.walk

theorem listed_iff {list : RangeList} {ds : List (BitVec 32)} (h : Walk s.links (.first list) ds)
    {d : BitVec 32} : Listed s list d ↔ d ∈ ds := by
  constructor
  · intro hd
    obtain ⟨es, hw, hd⟩ := hd
    rwa [hw.unique h] at hd
  · exact fun hd => ⟨ds, h, hd⟩

theorem Lists.listed_free (h : Lists s fs us) {d : BitVec 32} :
    Listed s .freeMemoryRanges d ↔ d ∈ fs := listed_iff h.free.queue.walk

theorem Lists.listed_used (h : Lists s fs us) {d : BitVec 32} :
    Listed s .usedMemoryRanges d ↔ d ∈ us := listed_iff h.used.queue.walk

theorem Lists.listed (h : Lists s fs us) {d : BitVec 32} :
    (∃ list, Listed s list d) ↔ d ∈ fs ++ us := by
  rw [List.mem_append, ← h.listed_free, ← h.listed_used]
  constructor
  · rintro ⟨⟨⟩, hd⟩
    · exact .inl hd
    · exact .inr hd
  · rintro (hd | hd)
    · exact ⟨_, hd⟩
    · exact ⟨_, hd⟩

theorem Room.le {m n : ℕ} (h : Room n s) (hmn : m ≤ n) : Room m s := by
  refine ⟨h.null, ?_, fun list d hd => ?_⟩
  · have hfits := h.fits
    omega
  · have hapart := h.apart list d hd
    omega

/-- The bump pointer is not at a descriptor that is listed. -/
theorem Room.heap_notMem {n : ℕ} (h : Room (n + 1) s) (hl : Lists s fs us) :
    s.heap ∉ fs ++ us := by
  intro hm
  obtain ⟨list, hlisted⟩ := hl.listed.mpr hm
  have hapart := h.apart _ _ hlisted
  omega

/-- The descriptor of a split takes the first of the places. -/
theorem Room.split {n : ℕ} (h : Room (n + 2) s) (hl : Lists s fs us) (d size : BitVec 32) :
    Room (n + 1) (s.split d size) := by
  have hnull := h.null
  have hfits := h.fits
  have hlists := hl.split hnull (h.heap_notMem hl) d size
  have hheap : (s.split d size).heap = s.heap + 16 := rfl
  constructor
  case null =>
    rw [hheap]
    bv_omega
  case fits =>
    rw [hheap]
    bv_omega
  case apart =>
    intro list e he
    have hmem := hlists.listed.mp ⟨list, he⟩
    rw [← List.append_assoc] at hmem
    rw [hheap]
    rcases List.mem_append.mp hmem with hmem | hmem
    · obtain ⟨list, hlisted⟩ := hl.listed.mpr hmem
      have hapart := h.apart _ _ hlisted
      bv_omega
    · rw [List.mem_singleton.mp hmem]
      bv_omega

/-- A first fit is a split. -/
theorem Lists.splits (h : Lists s fs us) {size : BitVec 32} (hsize : size ≠ 0)
    (hexact : ∀ y ∈ fs, (s.range y).size ≠ size) {d : BitVec 32} (hd : d ∈ fs)
    (hfit : size < (s.range d).size) (r : BitVec 32) : Splits s (.alloc size r) := by
  refine ⟨hsize, ?_, s.range d, h.onList_free.mpr ⟨d, hd, rfl⟩, hfit⟩
  intro q hq
  obtain ⟨e, he, rfl⟩ := h.onList_free.mp hq
  exact hexact e he

/-- A split is a first fit. -/
theorem Allocates.firstFit_of_splits {s' : HeapState} {fs' us' : List (BitVec 32)}
    {size r : BitVec 32} (ha : Allocates s fs us size r s' fs' us') (h : Lists s fs us)
    (hsplits : Splits s (.alloc size r)) :
    ∃ d ∈ fs, size < (s.range d).size ∧ r = (s.range d).baseAddress + ((s.range d).size - size) ∧
      s' = s.split d size ∧ fs' = fs ∧ us' = us ++ [s.heap] := by
  obtain ⟨hsize, hexact, q, hq, hlt⟩ := hsplits
  cases ha with
  | refused hnone =>
    obtain ⟨d, hd, rfl⟩ := h.onList_free.mp hq
    rcases hnone with h0 | hnone
    · exact absurd h0 hsize
    · exact absurd (BitVec.lt_trans hlt (hnone d hd)) (BitVec.lt_irrefl _)
  | @exactFit xs ys d hne hfs hxs hd =>
    exact absurd hd (hexact _ (h.onList_free.mpr ⟨d, by simp [hfs], rfl⟩))
  | @firstFit xs ys d hne hfs hnone hxs hd => exact ⟨d, by simp [hfs], hd, rfl, rfl, rfl, rfl⟩

/-- The lists after a call that finds room. -/
theorem Allocates.lists_of_room {s' : HeapState} {fs' us' : List (BitVec 32)} {size r : BitVec 32}
    (ha : Allocates s fs us size r s' fs' us') (h : Lists s fs us)
    (hroom : FindsRoom s (.alloc size r)) : Lists s' fs' us' := by
  by_cases hsize : size = 0
  · cases ha with
    | refused => exact h
    | exactFit hne => exact absurd hsize hne
    | firstFit hne => exact absurd hsize hne
  · refine ha.lists h fun hexact d hd hfit => ?_
    have hsplits := h.splits hsize hexact hd hfit r
    exact ⟨(hroom hsplits).null, (hroom hsplits).heap_notMem h⟩

/-- The bytes of the descriptors of a list. -/
def pieces (s : HeapState) (ds : List (BitVec 32)) : List (Set ℕ) :=
  ds.map fun d => (s.range d).bytes

/-- A heap in good order cuts up the bytes that it covers. -/
structure Partition (s : HeapState) (fs us : List (BitVec 32)) (u : Set ℕ) : Prop where
  lists : Lists s fs us
  proper : ∀ d ∈ fs ++ us, (s.range d).Proper
  tiles : Tiles (pieces s (fs ++ us)) u

theorem Partition.good {u : Set ℕ} (h : Partition s fs us u) : Good s := by
  refine ⟨fs, us, h.lists, h.proper, ?_⟩
  have hdisj := h.tiles.disjoint
  unfold pieces at hdisj
  rw [List.pairwise_map] at hdisj ⊢
  exact hdisj

theorem Partition.covered_eq {u : Set ℕ} (h : Partition s fs us u) : covered s = u := by
  ext a
  rw [h.tiles.union]
  constructor
  · intro h
    obtain ⟨list, r, hr, ha⟩ := h
    cases list with
    | freeMemoryRanges =>
      obtain ⟨d, hd, rfl⟩ := h.lists.onList_free.mp hr
      exact ⟨_, List.mem_map.mpr ⟨d, List.mem_append_left _ hd, rfl⟩, ha⟩
    | usedMemoryRanges =>
      obtain ⟨d, hd, rfl⟩ := h.lists.onList_used.mp hr
      exact ⟨_, List.mem_map.mpr ⟨d, List.mem_append_right _ hd, rfl⟩, ha⟩
  · intro h
    obtain ⟨t, ht, ha⟩ := h
    obtain ⟨d, hd, rfl⟩ := List.mem_map.mp ht
    rcases List.mem_append.mp hd with hd | hd
    · exact ⟨.freeMemoryRanges, _, h.lists.onList_free.mpr ⟨d, hd, rfl⟩, ha⟩
    · exact ⟨.usedMemoryRanges, _, h.lists.onList_used.mpr ⟨d, hd, rfl⟩, ha⟩

theorem Good.partition (h : Good s) : ∃ fs us, Partition s fs us (covered s) := by
  obtain ⟨fs, us, hlists, hproper, hdisj⟩ := h
  have htiles : Tiles (pieces s (fs ++ us)) { a | ∃ t ∈ pieces s (fs ++ us), a ∈ t } := by
    refine ⟨?_, ?_, fun a => Iff.rfl⟩
    · intro t ht
      obtain ⟨d, hd, rfl⟩ := List.mem_map.mp ht
      exact (hproper d hd).nonempty
    · unfold pieces
      rw [List.pairwise_map] at hdisj ⊢
      exact hdisj
  have hpart : Partition s fs us _ := ⟨hlists, hproper, htiles⟩
  refine ⟨fs, us, ?_⟩
  rwa [hpart.covered_eq]

end Lists

end Einherjar.Memory
