import Einherjar.Memory.FlatHeap

/-! The lists that a memory contains, and a placement of the allocator's variables and descriptors
under which they can be relied on. -/
namespace Einherjar.Memory
open Einherjar.Lib Einherjar.Lib.TailQueue

/-- The addresses of a range that does not go beyond the end of memory. -/
theorem MemoryRange.Proper.mem_bytes {r : MemoryRange} (h : r.Proper) {c : BitVec 32}
    (hc : c ∈ Memory.extent r.baseAddress r.size.toNat) : c.toNat ∈ r.bytes := by
  have htop := h.2
  rw [Memory.mem_extent] at hc
  change r.baseAddress.toNat ≤ c.toNat ∧ c.toNat < r.baseAddress.toNat + r.size.toNat
  bv_omega

namespace HeapData

section contents

variable {D : HeapData} {ds : Set (BitVec 32)} {start mem : Memory 32} {s : HeapState}
  {fs us xs : List (BitVec 32)}
  (hsep : Memory.Separate D.word (HeapField.Within ds)) (h0 : 0 ∉ ds)

include hsep in
theorem asSlot_slotAddress {c : Slot RangeList (BitVec 32)}
    (hc : LinkField.Within ds (.link c)) : D.asSlot (D.queues.slotAddress c) = c := by
  have hne : ∀ list, c ≠ .first list → D.queues.slotAddress c ≠ D.list list := by
    intro list hlist
    refine hsep.ne (f := .inl (.link c)) (g := .inl (.link (.first list))) hc trivial fun he => ?_
    exact hlist (LinkField.link.inj (Sum.inl.inj he))
  unfold asSlot
  cases c with
  | null => exact absurd hc id
  | first list =>
    cases list with
    | freeMemoryRanges => exact if_pos rfl
    | usedMemoryRanges =>
      rw [if_neg (hne .freeMemoryRanges (by simp)), if_pos (slotAddress_first _)]
  | next d =>
    rw [if_neg (hne .freeMemoryRanges (by simp)), if_neg (hne .usedMemoryRanges (by simp)),
      slotAddress_next, BitVec.add_sub_cancel]

include hsep h0 in
/-- The list is in the memory. -/
theorem Tracks.tailq (h : D.Tracks ds start mem s) {list : RangeList}
    (hq : Tailq s.links list xs) (hds : ∀ d ∈ xs, d ∈ ds) :
    Tailq (D.heapOf mem).links list xs := by
  have hnonzero : ∀ c, (∀ d, s.links.load c = some d → d ∈ xs) → s.links.load c ≠ some 0 :=
    fun c hc hzero => h0 (hds 0 (hc 0 hzero))
  have hslot : ∀ c, LinkField.Within ds (.link c) → (∀ d, s.links.load c = some d → d ∈ xs) →
      (D.heapOf mem).links.load c = s.links.load c := by
    intro c hc hmem
    change asPointer (mem.load32 (D.queues.slotAddress c)) = _
    rw [h.load_link hc, asPointer_pointer (hnonzero c hmem)]
  have hnext : ∀ x ∈ xs, ∀ d, s.links.load (.next x) = some d → d ∈ xs := by
    intro x hx d hd
    obtain ⟨ys, zs, rfl⟩ := List.append_of_mem hx
    exact List.mem_append_right _ (List.mem_cons_of_mem _ (hq.next_mem hd))
  have hfirst : ∀ d, s.links.load (.first list) = some d → d ∈ xs := by
    intro d hd
    have hw := hq.queue.walk
    cases xs with
    | nil => exact absurd ((walk_nil.mp hw).symm.trans hd) nofun
    | cons x xs =>
      obtain rfl : d = x := Option.some.inj (hd.symm.trans (walk_cons.mp hw).1)
      exact List.mem_cons_self
  refine hq.congr ?_ (hslot _ trivial hfirst) (fun x hx => hslot _ (hds x hx) (hnext x hx)) ?_
  · change D.asSlot (mem.load32 (D.list list + 4)) = _
    rw [h.load_last, asSlot_slotAddress hsep (LinkField.within_last hq.queue hds)]
  · intro x hx
    have hprev : LinkField.Within ds (.link (s.links.tqePrev x)) := by
      obtain ⟨ys, zs, rfl⟩ := List.append_of_mem hx
      exact LinkField.within_prev hq hds
    change D.asSlot (mem.load32 (x + next + 4)) = _
    rw [h.load_prev (hds x hx), asSlot_slotAddress hsep hprev]

include hsep h0 in
/-- The lists are in the memory, with the same ranges. -/
theorem Tracks.lists (h : D.Tracks ds start mem s) (hl : Lists s fs us)
    (hds : ∀ d ∈ fs ++ us, d ∈ ds) :
    Lists (D.heapOf mem) fs us ∧ ∀ d ∈ fs ++ us, (D.heapOf mem).range d = s.range d := by
  refine ⟨⟨?_, ?_, hl.disjoint⟩, fun d hd => ?_⟩
  · exact h.tailq hsep h0 hl.free fun d hd => hds d (List.mem_append_left _ hd)
  · exact h.tailq hsep h0 hl.used fun d hd => hds d (List.mem_append_right _ hd)
  · change (⟨mem.load32 d, mem.load32 (d + 4)⟩ : MemoryRange) = _
    rw [h.load_baseAddress (hds d hd), h.load_size (hds d hd)]

include hsep h0 in
theorem Tracks.liveChunks (h : D.Tracks ds start mem s) (hl : Lists s fs us)
    (hds : ∀ d ∈ fs ++ us, d ∈ ds) :
    Memory.liveChunks (D.heapOf mem) = Memory.liveChunks s := by
  obtain ⟨hl', hrange⟩ := h.lists hsep h0 hl hds
  ext c
  rw [hl'.mem_liveChunks, hl.mem_liveChunks]
  refine exists_congr fun d => and_congr_right fun hd => ?_
  rw [hrange d (List.mem_append_right _ hd)]

include hsep h0 in
theorem Tracks.coveredFree (h : D.Tracks ds start mem s) (hl : Lists s fs us)
    (hds : ∀ d ∈ fs ++ us, d ∈ ds) :
    Memory.coveredFree (D.heapOf mem) = Memory.coveredFree s := by
  obtain ⟨hl', hrange⟩ := h.lists hsep h0 hl hds
  have hlisted : ∀ r, OnList (D.heapOf mem) .freeMemoryRanges r ↔ OnList s .freeMemoryRanges r := by
    intro r
    rw [hl'.onList_free, hl.onList_free]
    refine exists_congr fun d => and_congr_right fun hd => ?_
    rw [hrange d (List.mem_append_left _ hd)]
  ext a
  exact exists_congr fun r => and_congr_left fun _ => hlisted r

end contents

end HeapData

/-- What the allocator keeps in memory: a variable, or the descriptor at an address. -/
inductive HeapObject where
  | list (list : RangeList)
  | heap
  | descriptor (d : BitVec 32)
  deriving DecidableEq

namespace HeapData

variable (D : HeapData)

/-- The descriptors on the lists, and the places of the next ones. -/
def descriptors (n : ℕ) (s : HeapState) : Set (BitVec 32) :=
  { d | (∃ list, Listed s list d) ∨ ∃ i < n, d = s.heap + BitVec.ofNat 32 (16 * i) }

/-- The object is one of the variables or one of the descriptors. -/
def Present (ds : Set (BitVec 32)) : HeapObject → Prop
  | .descriptor d => d ∈ ds
  | _ => True

def start : HeapObject → BitVec 32
  | .list list => D.list list
  | .heap => D.heap
  | .descriptor d => d

def sizeof : HeapObject → ℕ
  | .list _ => 8
  | .heap => 4
  | .descriptor _ => 16

def extent (o : HeapObject) : Set (BitVec 32) := Memory.extent (D.start o) (sizeof o)

/-- The bytes of the variables and of the descriptors. -/
def data (ds : Set (BitVec 32)) : Set (BitVec 32) := { c | ∃ o, Present ds o ∧ c ∈ D.extent o }

/-- There is room for the next `n` descriptors, and the variables and the descriptors overlap
neither one another nor a free range. -/
structure Placed (n : ℕ) (mem : Memory 32) : Prop where
  room : Room n (D.heapOf mem)
  apart : ∀ o o', Present (descriptors n (D.heapOf mem)) o →
    Present (descriptors n (D.heapOf mem)) o' → o ≠ o' → Disjoint (D.extent o) (D.extent o')
  free : ∀ c ∈ D.data (descriptors n (D.heapOf mem)), c.toNat ∉ Memory.coveredFree (D.heapOf mem)

/-- The object that a field is in, and its offset there. -/
def place : HeapField → HeapObject × ℕ
  | .inl (.link .null) => (.heap, 0)
  | .inl (.link (.first list)) => (.list list, 0)
  | .inl (.link (.next d)) => (.descriptor d, 8)
  | .inl (.tqePrev d) => (.descriptor d, 12)
  | .inl (.tqhLast list) => (.list list, 4)
  | .inr (.baseAddress d) => (.descriptor d, 0)
  | .inr (.size d) => (.descriptor d, 4)
  | .inr .heap => (.heap, 0)

section placed

variable {D} {n : ℕ} {mem : Memory 32} {ds : Set (BitVec 32)} {f g : HeapField}

theorem word_eq (hf : f ∈ HeapField.Within ds) :
    D.word f = D.start (place f).1 + BitVec.ofNat 32 (place f).2 := by
  rcases f with ((_ | _ | _) | _ | _) | _ | _ | _
  · exact absurd hf id
  · exact (BitVec.add_zero _).symm
  · rfl
  · exact BitVec.add_assoc ..
  · rfl
  · exact (BitVec.add_zero _).symm
  · rfl
  · exact (BitVec.add_zero _).symm

theorem present_place (hf : f ∈ HeapField.Within ds) : Present ds (place f).1 := by
  rcases f with ((_ | _ | _) | _ | _) | _ | _ | _
  · exact absurd hf id
  all_goals exact hf

theorem place_fits (hf : f ∈ HeapField.Within ds) : (place f).2 + 4 ≤ sizeof (place f).1 := by
  rcases f with ((_ | _ | _) | _ | _) | _ | _ | _
  · exact absurd hf id
  all_goals simp [place, sizeof]

theorem sizeof_le (o : HeapObject) : sizeof o ≤ 2 ^ 32 := by
  cases o <;> simp [sizeof]

/-- Two fields of one object lie one behind the other. -/
theorem place_offset (hf : f ∈ HeapField.Within ds) (hg : g ∈ HeapField.Within ds)
    (hobject : (place f).1 = (place g).1) (hne : f ≠ g) :
    (place f).2 + 4 ≤ (place g).2 ∨ (place g).2 + 4 ≤ (place f).2 := by
  rcases f with ((_ | _ | _) | _ | _) | _ | _ | _
  · exact absurd hf id
  all_goals
    rcases g with ((_ | _ | _) | _ | _) | _ | _ | _
    · exact absurd hg id
    all_goals simp_all [place]

theorem footprint_subset : Memory.footprint D.word (HeapField.Within ds) ⊆ D.data ds := by
  rintro c ⟨f, hf, hc⟩
  rw [word_eq hf] at hc
  exact ⟨_, present_place hf, Memory.extent_sub (place_fits hf) hc⟩

theorem separate (hapart : ∀ o o', Present ds o → Present ds o' → o ≠ o' →
      Disjoint (D.extent o) (D.extent o')) :
    Memory.Separate D.word (HeapField.Within ds) := by
  refine Memory.separate_of_places (fun f => word_eq) (fun f => place_fits) sizeof_le
    (fun f hf g hg => place_offset hf hg) fun f hf g hg => ?_
  exact hapart _ _ (present_place hf) (present_place hg)

/-- No descriptor is at NULL. -/
theorem zero_notMem (h : Room n (D.heapOf mem)) : 0 ∉ descriptors n (D.heapOf mem) := by
  have hlinked : ∀ xs c, Linked (D.heapOf mem).links c xs → (0 : BitVec 32) ∉ xs := by
    intro xs
    induction xs with
    | nil => exact fun _ _ => List.not_mem_nil
    | cons x xs ih =>
      rintro c ⟨hload, hlinked⟩ hmem
      rcases List.mem_cons.mp hmem with rfl | hmem
      · have hnull : asPointer (mem.load32 (D.queues.slotAddress c)) = some 0 := hload
        unfold asPointer at hnull
        split_ifs at hnull with hzero
        exact hzero (Option.some.inj hnull)
      · exact ih _ hlinked hmem
  rintro (⟨list, xs, hw, hmem⟩ | ⟨i, hi, hzero⟩)
  · exact hlinked xs _ hw.1 hmem
  · have hnull := h.null
    have hfits := h.fits
    bv_omega

end placed

/-- A memory with a heap in good order: the state of its lists, the bytes that they cover, and
places for the next `n` descriptors. -/
structure HeapIn (ds : Set (BitVec 32)) (u : Set ℕ) (n : ℕ) (start mem : Memory 32) (s : HeapState)
    (fs us : List (BitVec 32)) : Prop where
  separate : Memory.Separate D.word (HeapField.Within ds)
  nonzero : 0 ∉ ds
  tracks : D.Tracks ds start mem s
  partition : Partition s fs us u
  within : ∀ d ∈ fs ++ us, d ∈ ds
  noFreeAtZero : NoFreeAtZero s
  room : 0 < n → Room n s
  places : ∀ i < n, s.heap + BitVec.ofNat 32 (16 * i) ∈ ds

section calls

variable {D} {ds region : Set (BitVec 32)} {u : Set ℕ} {n : ℕ} {start mem mem' : Memory 32}
  {s : HeapState} {fs us : List (BitVec 32)} {fuel : ℕ}

/-- A placed heap that is good. -/
theorem Placed.heapIn (h : D.Placed n mem) (hgood : Good (D.heapOf mem))
    (hzero : NoFreeAtZero (D.heapOf mem)) :
    ∃ fs us, D.HeapIn (descriptors n (D.heapOf mem)) (covered (D.heapOf mem)) n mem mem
      (D.heapOf mem) fs us := by
  obtain ⟨fs, us, hpart⟩ := hgood.partition
  refine ⟨fs, us, D.separate h.apart, D.zero_notMem h.room, ?_, hpart, ?_, hzero,
    fun _ => h.room, fun i hi => .inr ⟨i, hi, rfl⟩⟩
  · exact tracks_heapOf _
  · exact fun d hd => .inl (hpart.lists.listed.mpr hd)

/-- Changes beside the allocator's data. -/
theorem HeapIn.restart (h : D.HeapIn ds u n start mem s fs us)
    (hsame : Memory.SameOutside region mem mem') (hregion : Disjoint (D.data ds) region) :
    D.HeapIn ds u n mem' mem' s fs us :=
  { h with tracks := h.tracks.restart hsame (hregion.mono_left D.footprint_subset) }

theorem HeapIn.elsewhere (h : D.HeapIn ds u n start mem s fs us) :
    Memory.SameOutside (D.data ds) start mem := h.tracks.elsewhere.mono D.footprint_subset

theorem HeapIn.liveChunks (h : D.HeapIn ds u n start mem s fs us) :
    Memory.liveChunks (D.heapOf mem) = Memory.liveChunks s :=
  h.tracks.liveChunks h.separate h.nonzero h.partition.lists h.within

theorem HeapIn.coveredFree (h : D.HeapIn ds u n start mem s fs us) :
    Memory.coveredFree (D.heapOf mem) = Memory.coveredFree s :=
  h.tracks.coveredFree h.separate h.nonzero h.partition.lists h.within

/-- The places after a call of `heap_alloc`, which takes at most the first one. -/
theorem HeapIn.allocated (h : D.HeapIn ds u (n + 1) start mem s fs us) {s' : HeapState}
    {fs' us' : List (BitVec 32)} {size r : BitVec 32}
    (ha : Allocates s fs us size r s' fs' us') :
    (∀ d ∈ fs' ++ us', d ∈ ds) ∧ ∀ i < n, s'.heap + BitVec.ofNat 32 (16 * i) ∈ ds := by
  obtain ⟨hperm, hheap⟩ := ha.descriptors h.partition.lists
  have hplace : s.heap ∈ ds := by simpa using h.places 0 (Nat.succ_pos n)
  by_cases hsplits : Splits s (.alloc size r)
  · rw [newDescriptors_of_splits hsplits] at hperm hheap
    constructor
    · intro d hd
      rcases List.mem_append.mp (hperm.mem_iff.mp hd) with hd | hd
      · exact h.within d hd
      · rwa [List.mem_singleton.mp hd]
    · intro i hi
      have hnext := h.places (i + 1) (Nat.succ_lt_succ hi)
      rw [Nat.mul_add, Nat.add_comm, BitVec.ofNat_add, ← BitVec.add_assoc] at hnext
      rw [hheap]
      exact hnext
  · rw [newDescriptors_of_not_splits hsplits] at hperm hheap
    rw [List.append_nil] at hperm
    constructor
    · exact fun d hd => h.within d (hperm.mem_iff.mp hd)
    · intro i hi
      rw [hheap]
      simpa [descriptorBytes] using h.places i (Nat.lt_succ_of_lt hi)

/-- What `malloc` returns and leaves in the memory. -/
theorem HeapIn.malloc (h : D.HeapIn ds u (n + 1) start mem s fs us) (size : BitVec 32)
    (hfuel : fs.length + us.length < fuel) :
    ∃ r mem' s' fs' us', D.heapAlloc fuel mem size = some (r, mem') ∧
      D.HeapIn ds u n start mem' s' fs' us' ∧
      fs'.length + us'.length ≤ fs.length + us.length + 1 ∧
      (r = 0 ∧ s' = s ∨ r ≠ 0 ∧ TakesChunk s ⟨r, size⟩ s') := by
  have hroom := h.room (Nat.succ_pos n)
  obtain ⟨r, s', fs', us', hcall, hpart, hfs, hus, hzero, htaken, ha⟩ :=
    h.partition.malloc h.noFreeAtZero hroom size (show fs.length < fuel by omega)
  have hheap : s.heap ∈ ds := by simpa using h.places 0 (Nat.succ_pos n)
  obtain ⟨mem', hflat, htracks⟩ :=
    h.tracks.heapAlloc h.separate h.nonzero h.partition.lists h.within hheap hcall
  obtain ⟨hwithin, hplaces⟩ := h.allocated ha
  refine ⟨r, mem', s', fs', us', hflat, ⟨h.separate, h.nonzero, htracks, hpart, hwithin, hzero,
    fun hn => ?_, hplaces⟩, by omega, htaken⟩
  obtain ⟨m, rfl⟩ := Nat.exists_eq_add_one.mpr hn
  exact ha.room h.partition.lists hroom

/-- What `free` leaves in the memory. -/
theorem HeapIn.free (h : D.HeapIn ds u n start mem s fs us) {p m : BitVec 32} (hp : p ≠ 0)
    (hlive : (⟨p, m⟩ : MemoryRange) ∈ Memory.liveChunks s) (hfuel : us.length + 1 < fuel) :
    ∃ mem' s' fs' us', D.heapFree fuel mem p = some mem' ∧
      D.HeapIn ds u n start mem' s' fs' us' ∧ GivesBack s ⟨p, m⟩ s' := by
  obtain ⟨s', fs', us', hcall, hpart, hgiven, hf⟩ := h.partition.free hp hlive hfuel
  obtain ⟨mem', hflat, htracks⟩ :=
    h.tracks.heapFree h.separate h.nonzero h.partition.lists h.within hcall
  obtain ⟨hperm, hheap⟩ := hf.descriptors
  refine ⟨mem', s', fs', us', hflat,
    ⟨h.separate, h.nonzero, htracks, hpart, ?_, ?_, ?_, ?_⟩, hgiven⟩
  · exact fun d hd => h.within d (hperm.mem_iff.mp hd)
  · exact hf.noFreeAtZero h.partition.lists hpart.lists h.noFreeAtZero
  · exact fun hn => hf.room h.partition.lists hpart.lists (h.room hn)
  · rw [hheap]
    exact h.places

end calls

end HeapData

end Einherjar.Memory
