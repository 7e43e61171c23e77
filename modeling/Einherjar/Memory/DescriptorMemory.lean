import Einherjar.Memory.BootLayout
import Mathlib.Data.List.Induction

/-! The memory of the allocator's own descriptors. Nothing keeps it out of the ranges that the
set-up frees: it stays apart from the chunks as long as every descriptor is made outside them. -/
namespace Einherjar.Memory
open Einherjar.Lib Einherjar.Lib.TailQueue

/-- The addresses of a range, which may go on from address 0. -/
def MemoryRange.addresses (r : MemoryRange) : Set (BitVec 32) :=
  { a | a - r.baseAddress < r.size }

namespace BootLayout

/-- The addresses between the first descriptor and the bump pointer. -/
def descriptors (b : BootLayout) (s : HeapState) : Set (BitVec 32) :=
  { a | b.firstDescriptor ≤ a ∧ a < s.heap }

/-- The addresses that the set-up frees. -/
def freed (b : BootLayout) (prior : HeapState) : Set (BitVec 32) :=
  { a | ∃ r ∈ b.freedRanges prior, a ∈ r.addresses }

/-- The bytes from an address on are in RAM, and the set-up does not free them. -/
structure PlaceApart (b : BootLayout) (prior : HeapState) (place : BitVec 32) (bytes : ℕ) :
    Prop where
  bound : place.toNat + bytes ≤ b.ramSize.toNat
  apart : ∀ a ∈ b.freed prior, ¬ (place ≤ a ∧ a.toNat < place.toNat + bytes)

/-- A call that creates a descriptor has an apart place for it at the bump pointer. -/
def PlacesApart (b : BootLayout) (prior s : HeapState) (c : HeapCall) : Prop :=
  Splits s c → b.PlaceApart prior s.heap 16

end BootLayout

/-- After the run no free range and no chunk given out meets the descriptors, and the bump
pointer is within RAM. -/
structure DescriptorsApart (b : BootLayout) (s : HeapState) (p : List (HeapCall × HeapState)) :
    Prop where
  free : ∀ r, OnList (finalState s p) .freeMemoryRanges r →
    Disjoint r.addresses (b.descriptors (finalState s p))
  chunks : ∀ size r, HeapCall.alloc size r ∈ p.map Prod.fst → r ≠ 0 →
    Disjoint (MemoryRange.addresses ⟨r, size⟩) (b.descriptors (finalState s p))
  bound : (finalState s p).heap ≤ b.ramSize

section ranges

variable {r : MemoryRange} {size : BitVec 32}

/-- The chunk that is cut off a range, and what is left of it, are in it. -/
theorem MemoryRange.cut_addresses (hfit : size < r.size) :
    MemoryRange.addresses ⟨r.baseAddress, r.size - size⟩ ⊆ r.addresses ∧
      MemoryRange.addresses ⟨r.baseAddress + (r.size - size), size⟩ ⊆ r.addresses := by
  constructor
  · intro a ha
    change a - r.baseAddress < r.size - size at ha
    change a - r.baseAddress < r.size
    bv_omega
  · intro a ha
    change a - (r.baseAddress + (r.size - size)) < size at ha
    change a - r.baseAddress < r.size
    bv_omega

/-- An address in the range is in what is left of it, or in the chunk. -/
theorem MemoryRange.mem_cut {a : BitVec 32} (ha : a ∈ r.addresses) (hfit : size < r.size) :
    a ∈ MemoryRange.addresses ⟨r.baseAddress, r.size - size⟩ ∨
      a ∈ MemoryRange.addresses ⟨r.baseAddress + (r.size - size), size⟩ := by
  change a - r.baseAddress < r.size at ha
  change a - r.baseAddress < r.size - size ∨ a - (r.baseAddress + (r.size - size)) < size
  bv_omega

end ranges

namespace BootLayout

/-- The ranges on the lists are of memory that the set-up has freed, and the descriptors up to the
bump pointer are in RAM and apart from it. -/
structure Keeps (b : BootLayout) (prior s : HeapState) (fs us : List (BitVec 32)) : Prop where
  lists : Lists s fs us
  first : b.firstDescriptor.toNat + 128 ≤ s.heap.toNat
  below : ∀ d ∈ fs ++ us, d.toNat + 16 ≤ s.heap.toNat
  inside : ∀ d ∈ fs ++ us, (s.range d).addresses ⊆ b.freed prior
  apart : Disjoint (b.freed prior) (b.descriptors s)
  bound : s.heap ≤ b.ramSize

/-- A chunk that the call returns is of memory that the set-up has freed. -/
def ChunkFreed (b : BootLayout) (prior : HeapState) : HeapCall → Prop
  | .alloc size r => r ≠ 0 → MemoryRange.addresses ⟨r, size⟩ ⊆ b.freed prior
  | .free _ => True

/-- The ranges on the lists cover what the set-up has freed, and those on the used list are chunks
that the run has given out. -/
structure Covers (b : BootLayout) (prior s : HeapState) (fs us : List (BitVec 32))
    (p : List (HeapCall × HeapState)) : Prop where
  cover : ∀ a ∈ b.freed prior, ∃ d ∈ fs ++ us, a ∈ (s.range d).addresses
  given : ∀ d ∈ us, HeapCall.alloc (s.range d).size (s.range d).baseAddress ∈ p.map Prod.fst

section steps

variable {b : BootLayout} {prior s s' : HeapState} {fs us fs' us' : List (BitVec 32)}
  {p : List (HeapCall × HeapState)}

theorem Keeps.ne_heap (h : b.Keeps prior s fs us) : ∀ e ∈ fs ++ us, e ≠ s.heap := by
  intro e he heq
  have hbelow := h.below e he
  rw [heq] at hbelow
  omega

/-- Descriptors that change places between the lists. -/
theorem Keeps.move (h : b.Keeps prior s fs us) (hlists : Lists s' fs' us')
    (hrange : s'.range = s.range) (hheap : s'.heap = s.heap)
    (hsub : ∀ d ∈ fs' ++ us', d ∈ fs ++ us) : b.Keeps prior s' fs' us' where
  lists := hlists
  first := hheap ▸ h.first
  below d hd := hheap ▸ h.below d (hsub d hd)
  inside d hd := hrange ▸ h.inside d (hsub d hd)
  apart := by
    unfold descriptors
    rw [hheap]
    exact h.apart
  bound := hheap ▸ h.bound

/-- A split stays in freed memory. -/
theorem Keeps.inside_split (h : b.Keeps prior s fs us) {d size : BitVec 32} (hd : d ∈ fs)
    (hfit : size < (s.range d).size) :
    ∀ e ∈ fs ++ (us ++ [s.heap]), ((s.split d size).range e).addresses ⊆ b.freed prior := by
  have hne := h.ne_heap
  have hcut := MemoryRange.cut_addresses (r := s.range d) hfit
  have hfreed := h.inside d (List.mem_append_left _ hd)
  intro e he
  rw [← List.append_assoc] at he
  rcases List.mem_append.mp he with he | he
  · by_cases hed : e = d
    · rw [hed, split_resized s (hne d (List.mem_append_left _ hd))]
      exact hcut.1.trans hfreed
    · rw [split_other s (hne e he) hed]
      exact h.inside e he
  · rw [List.mem_singleton.mp he, split_chunk]
    exact hcut.2.trans hfreed

/-- A descriptor at an apart place. -/
theorem Keeps.split (h : b.Keeps prior s fs us) (hplace : b.PlaceApart prior s.heap 16)
    {d size : BitVec 32} (hd : d ∈ fs) (hfit : size < (s.range d).size) :
    b.Keeps prior (s.split d size) fs (us ++ [s.heap]) := by
  have hfirst := h.first
  have hram := hplace.bound
  have hheap : (s.split d size).heap = s.heap + 16 := rfl
  constructor
  case lists => exact h.lists.split (by bv_omega) (fun hm => h.ne_heap _ hm rfl) d size
  case first =>
    rw [hheap]
    bv_omega
  case below =>
    intro e he
    rw [hheap]
    rw [← List.append_assoc] at he
    rcases List.mem_append.mp he with he | he
    · have hbelow := h.below e he
      bv_omega
    · rw [List.mem_singleton.mp he]
      bv_omega
  case inside => exact h.inside_split hd hfit
  case apart =>
    refine Set.disjoint_left.mpr fun a ha hdesc => ?_
    obtain ⟨hlow, hhigh⟩ := hdesc
    rw [hheap] at hhigh
    -- The address is behind the descriptors that were there, or in the new one
    by_cases hold : a < s.heap
    · exact Set.disjoint_left.mp h.apart ha ⟨hlow, hold⟩
    · refine hplace.apart a ha ⟨BitVec.not_lt.mp hold, ?_⟩
      bv_omega
  case bound =>
    rw [hheap]
    bv_omega

theorem Covers.alloc (h : b.Covers prior s fs us p) (hk : b.Keeps prior s fs us)
    {size r : BitVec 32} (ha : Allocates s fs us size r s' fs' us') :
    b.Covers prior s' fs' us' (p ++ [(.alloc size r, s')]) := by
  have hold : ∀ d ∈ us, HeapCall.alloc (s.range d).size (s.range d).baseAddress ∈
      (p ++ [(HeapCall.alloc size r, s')]).map Prod.fst := by
    intro d hd
    rw [List.map_append]
    exact List.mem_append_left _ (h.given d hd)
  cases ha with
  | refused => exact ⟨h.cover, hold⟩
  | @exactFit xs ys d hsize hfs hxs hd =>
    subst hfs
    constructor
    · intro a ha
      obtain ⟨e, he, hea⟩ := h.cover a ha
      exact ⟨e, by grind, hea⟩
    · intro e he
      rcases List.mem_append.mp he with he | he
      · exact hold e he
      · rw [List.mem_singleton.mp he]
        change HeapCall.alloc (s.range d).size (s.range d).baseAddress ∈ _
        simp [hd]
  | @firstFit xs ys d hsize hfs hexact hxs hd =>
    have hne : ∀ e ∈ fs ++ us, e ≠ s.heap := hk.ne_heap
    have hmem : d ∈ fs := by simp [hfs]
    constructor
    · intro a ha
      obtain ⟨e, he, hea⟩ := h.cover a ha
      by_cases hed : e = d
      · subst hed
        rcases MemoryRange.mem_cut hea hd with hleft | hchunk
        · refine ⟨e, List.mem_append_left _ hmem, ?_⟩
          rw [split_resized s (hne e he)]
          exact hleft
        · refine ⟨s.heap, by simp, ?_⟩
          rw [split_chunk]
          exact hchunk
      · refine ⟨e, by grind, ?_⟩
        rw [split_other s (hne e he) hed]
        exact hea
    · intro e he
      rcases List.mem_append.mp he with he | he
      · have hed : e ≠ d := by
          rintro rfl
          exact hk.lists.disjoint e hmem he
        rw [split_other s (hne e (List.mem_append_right _ he)) hed]
        exact hold e he
      · rw [List.mem_singleton.mp he, split_chunk]
        simp

theorem Covers.frees (h : b.Covers prior s fs us p) {address : BitVec 32}
    (hf : Frees s fs us address s' fs' us') :
    b.Covers prior s' fs' us' (p ++ [(.free address, s')]) := by
  have hold : ∀ d ∈ us, HeapCall.alloc (s.range d).size (s.range d).baseAddress ∈
      (p ++ [(HeapCall.free address, s')]).map Prod.fst := by
    intro d hd
    rw [List.map_append]
    exact List.mem_append_left _ (h.given d hd)
  cases hf with
  | nothing => exact ⟨h.cover, hold⟩
  | released haddress hus hxs hd =>
    subst hus
    constructor
    · intro a ha
      obtain ⟨e, he, hea⟩ := h.cover a ha
      exact ⟨e, by grind, hea⟩
    · exact fun e he => hold e (by grind)

/-- A step whose descriptor has an apart place. -/
theorem Keeps.step (h : b.Keeps prior s fs us) {c : HeapCall} (hplace : b.PlacesApart prior s c)
    (hstep : HeapStep s c s') :
    (∃ fs' us', b.Keeps prior s' fs' us' ∧
      ∀ p, b.Covers prior s fs us p → b.Covers prior s' fs' us' (p ++ [(c, s')])) ∧
        b.ChunkFreed prior c := by
  cases hstep with
  | alloc call =>
    obtain ⟨fs', us', ha⟩ := heapAlloc_allocates h.lists call
    have hcovers := fun p (hc : b.Covers prior s fs us p) => hc.alloc h ha
    cases ha with
    | refused => exact ⟨⟨_, _, h, hcovers⟩, fun hr => absurd rfl hr⟩
    | @exactFit xs ys d hsize hfs hxs hd =>
      subst hfs
      refine ⟨⟨_, _, h.move h.lists.allocate rfl rfl (by grind), hcovers⟩, fun _ => ?_⟩
      rw [← hd]
      exact h.inside d (by simp)
    | @firstFit xs ys d hsize hfs hexact hxs hd =>
      have hmem : d ∈ fs := by simp [hfs]
      have hplace := hplace (h.lists.splits hsize hexact hmem hd _)
      refine ⟨⟨_, _, h.split hplace hmem hd, hcovers⟩, fun _ => ?_⟩
      exact (MemoryRange.cut_addresses hd).2.trans (h.inside d (List.mem_append_left _ hmem))
  | free call =>
    obtain ⟨fs', us', hf, hlists⟩ := heapFree_frees h.lists call
    refine ⟨⟨fs', us', ?_, fun p hc => hc.frees hf⟩, trivial⟩
    cases hf with
    | nothing => exact h
    | released haddress hus hxs hd =>
      subst hus
      exact h.move hlists rfl rfl (by grind)

end steps

variable (b : BootLayout) (prior : HeapState)

theorem keeps_setup (hplace : b.PlaceApart prior b.firstDescriptor 128) :
    b.Keeps prior (b.setup prior) b.listed [] := by
  obtain ⟨-, htop, -, -⟩ := b.firstDescriptor_bounds
  have hram := hplace.bound
  constructor
  case lists => exact b.setup_lists prior
  case first =>
    rw [setup_heap]
    bv_omega
  case below =>
    intro d hd
    rw [List.append_nil] at hd
    rw [setup_heap]
    simp only [listed, List.mem_cons, List.not_mem_nil, or_false] at hd
    rcases hd with rfl | rfl | rfl | rfl | rfl | rfl | rfl <;> bv_omega
  case inside =>
    intro d hd a ha
    rw [List.append_nil] at hd
    refine ⟨_, ?_, ha⟩
    rw [← setup_ranges]
    exact List.mem_map_of_mem hd
  case apart =>
    refine Set.disjoint_left.mpr fun a ha hdesc => hplace.apart a ha ⟨hdesc.1, ?_⟩
    have hlt := hdesc.2
    rw [setup_heap] at hlt
    bv_omega
  case bound =>
    rw [setup_heap]
    bv_omega

/-- The descriptors stay apart if those of the set-up and those that the run creates have their
places apart from what the set-up frees. -/
theorem apart_of_places (hsetup : b.PlaceApart prior b.firstDescriptor 128)
    {p : List (HeapCall × HeapState)} (hp : Path HeapStep (b.setup prior) p)
    (hplaces : Guarded (b.PlacesApart prior) (b.setup prior) p) :
    DescriptorsApart b (b.setup prior) p := by
  have hstart : ∃ fs us, b.Keeps prior (b.setup prior) fs us := ⟨_, _, b.keeps_setup prior hsetup⟩
  have hstep : ∀ s c s', (∃ fs us, b.Keeps prior s fs us) → b.PlacesApart prior s c →
      HeapStep s c s' → (∃ fs us, b.Keeps prior s' fs us) ∧ b.ChunkFreed prior c := by
    rintro s c s' ⟨fs, us, h⟩ hplace hstep
    obtain ⟨⟨fs', us', h', -⟩, hchunk⟩ := h.step hplace hstep
    exact ⟨⟨fs', us', h'⟩, hchunk⟩
  obtain ⟨fs, us, hlast⟩ : ∃ fs us, b.Keeps prior (finalState (b.setup prior) p) fs us :=
    finalState_of_forall (P := fun s => ∃ fs us, b.Keeps prior s fs us) hstart
      (hp.invariant_of_guarded
        (fun s c s' h hg hs => (hstep s c s' h hg hs).1) hstart hplaces)
  have hchunks := forall_of_guarded (hp.along_of_guarded hstep hstart hplaces)
  constructor
  case free =>
    intro r hr
    obtain ⟨d, hd, rfl⟩ := hlast.lists.onList_free.mp hr
    exact hlast.apart.mono_left (hlast.inside d (List.mem_append_left _ hd))
  case chunks =>
    intro size r hcall hr
    obtain ⟨x, hx, hcall⟩ := List.mem_map.mp hcall
    have hchunk := hchunks x hx
    rw [hcall] at hchunk
    exact hlast.apart.mono_left (hchunk hr)
  case bound => exact hlast.bound

/-- Before the first call only the descriptors of the set-up matter. -/
theorem apart_setup_iff :
    DescriptorsApart b (b.setup prior) [] ↔ b.PlaceApart prior b.firstDescriptor 128 := by
  refine ⟨fun h => ?_, fun h => b.apart_of_places prior h (.nil _) trivial⟩
  obtain ⟨-, htop, -, -⟩ := b.firstDescriptor_bounds
  have hheap := b.setup_heap prior
  have hbound : (b.setup prior).heap ≤ b.ramSize := h.bound
  rw [hheap] at hbound
  constructor
  case bound => bv_omega
  case apart =>
    rintro a ⟨r, hr, ha⟩ ⟨hlow, hhigh⟩
    refine Set.disjoint_left.mp (h.free r (b.freed_onList prior hr)) ha ⟨hlow, ?_⟩
    change a < (b.setup prior).heap
    rw [hheap]
    bv_omega

section converse

variable {b prior} {s s' : HeapState} {fs us fs' us' : List (BitVec 32)}
  {p : List (HeapCall × HeapState)} {c : HeapCall}

theorem covers_setup : b.Covers prior (b.setup prior) b.listed [] [] := by
  refine ⟨?_, by simp⟩
  rintro a ⟨r, hr, ha⟩
  rw [← setup_ranges] at hr
  obtain ⟨d, hd, rfl⟩ := List.mem_map.mp hr
  exact ⟨d, List.mem_append_left _ hd, ha⟩

/-- A range of freed memory from address 0 on ends below the descriptors. -/
theorem Keeps.notMem_zero_chunk (h : b.Keeps prior s fs us) {size a : BitVec 32}
    (hchunk : MemoryRange.addresses ⟨0, size⟩ ⊆ b.freed prior)
    (ha : a ∈ MemoryRange.addresses ⟨0, size⟩) : ¬ s.heap ≤ a := by
  intro hle
  have hfirst := h.first
  have hlt : a - 0 < size := ha
  have hmem : b.firstDescriptor ∈ MemoryRange.addresses ⟨0, size⟩ := by
    change b.firstDescriptor - 0 < size
    bv_omega
  exact Set.disjoint_left.mp h.apart (hchunk hmem) ⟨BitVec.le_refl _, by bv_omega⟩

/-- A descriptor that is apart from free memory and from the chunks had an apart place. -/
theorem Keeps.placesApart (h : b.Keeps prior s fs us) (hc : b.Covers prior s fs us p)
    (hram : b.ramSize.toNat + 16 < 2 ^ 32)
    (hstep : HeapStep s c s') (hapart : DescriptorsApart b (b.setup prior) (p ++ [(c, s')])) :
    b.PlacesApart prior s c := by
  intro hsplits
  cases hstep with
  | free call => exact hsplits.elim
  | @alloc _ fuel size r call =>
  obtain ⟨fs', us', ha⟩ := heapAlloc_allocates h.lists call
  have hcovers := hc.alloc h ha
  obtain ⟨d, hd, hfit, -, rfl, rfl, rfl⟩ := ha.firstFit_of_splits h.lists hsplits
  have hlast : finalState (b.setup prior) (p ++ [(HeapCall.alloc size r, s.split d size)]) =
      s.split d size := by
    rw [finalState_append]
    rfl
  have hfirst := h.first
  have hbound := h.bound
  have hnew := hapart.bound
  have hheap : (s.split d size).heap = s.heap + 16 := rfl
  rw [hlast, hheap] at hnew
  constructor
  case bound => bv_omega
  case apart =>
    rintro a ha ⟨hlow, hhigh⟩
    have hdesc : a ∈ b.descriptors (s.split d size) := by
      refine ⟨by bv_omega, ?_⟩
      rw [hheap]
      bv_omega
    obtain ⟨e, he, hea⟩ := hcovers.cover a ha
    rcases List.mem_append.mp he with he | he
    · have hlists := h.lists.split (by bv_omega) (fun hm => h.ne_heap _ hm rfl) d size
      have hfree := hapart.free _ (hlast ▸ hlists.onList_free.mpr ⟨e, he, rfl⟩)
      rw [hlast] at hfree
      exact Set.disjoint_left.mp hfree hea hdesc
    · have hgiven := hcovers.given e he
      have hfreed := h.inside_split hd hfit e (List.mem_append_right _ he)
      generalize (s.split d size).range e = q at hea hgiven hfreed
      by_cases hzero : q.baseAddress = 0
      · have hq : q = ⟨0, q.size⟩ := by rw [← hzero]
        rw [hq] at hea hfreed
        exact h.notMem_zero_chunk hfreed hea hlow
      · have hchunk := hapart.chunks _ _ hgiven hzero
        rw [hlast] at hchunk
        exact Set.disjoint_left.mp hchunk hea hdesc

/-- The places that a run whose descriptors are apart has found. -/
theorem places_of_apart (hram : b.ramSize.toNat + 16 < 2 ^ 32)
    (hp : Path HeapStep (b.setup prior) p)
    (hapart : ∀ q, q <+: p → DescriptorsApart b (b.setup prior) q) :
    Guarded (b.PlacesApart prior) (b.setup prior) p ∧
      ∃ fs us, b.Keeps prior (finalState (b.setup prior) p) fs us ∧
        b.Covers prior (finalState (b.setup prior) p) fs us p := by
  induction p using List.reverseRecOn with
  | nil =>
    have hsetup := (b.apart_setup_iff prior).mp (hapart [] List.nil_prefix)
    exact ⟨trivial, _, _, b.keeps_setup prior hsetup, covers_setup⟩
  | append_singleton p x ih =>
    obtain ⟨c, s'⟩ := x
    obtain ⟨hp, hlast⟩ := path_append.mp hp
    obtain ⟨hplaces, fs, us, hkeeps, hcovers⟩ :=
      ih hp fun q hq => hapart q (hq.trans (List.prefix_append ..))
    have hstep : HeapStep (finalState (b.setup prior) p) c s' := by
      cases hlast with
      | cons step rest => exact step
    have hplace := hkeeps.placesApart hcovers hram hstep (hapart _ List.prefix_rfl)
    refine ⟨along_append.mpr ⟨hplaces, hplace, trivial⟩, ?_⟩
    rw [finalState_append]
    obtain ⟨⟨fs', us', hkeeps', hcovers'⟩, -⟩ := hkeeps.step hplace hstep
    exact ⟨fs', us', hkeeps', hcovers' p hcovers⟩

end converse

/-- In every state that a run from the set-up reaches, the descriptors are apart from free memory
and from the chunks, and in RAM, if those of the set-up and those that the run creates have their
places apart from what the set-up frees; and only then, unless RAM ends with the address space. -/
theorem descriptors_apart_iff (p : List (HeapCall × HeapState))
    (hp : Path HeapStep (b.setup prior) p) :
    (b.PlaceApart prior b.firstDescriptor 128 ∧
        Guarded (b.PlacesApart prior) (b.setup prior) p →
      ∀ q, q <+: p → DescriptorsApart b (b.setup prior) q) ∧
    (b.ramSize.toNat + 16 < 2 ^ 32 → (∀ q, q <+: p → DescriptorsApart b (b.setup prior) q) →
      b.PlaceApart prior b.firstDescriptor 128 ∧
        Guarded (b.PlacesApart prior) (b.setup prior) p) := by
  constructor
  · rintro ⟨hsetup, hplaces⟩ q ⟨rest, rfl⟩
    exact b.apart_of_places prior hsetup (path_append.mp hp).1 (along_append.mp hplaces).1
  · intro hram hapart
    exact ⟨(b.apart_setup_iff prior).mp (hapart [] List.nil_prefix),
      (places_of_apart hram hp hapart).1⟩

/-- The same kernel, and an initrd that ends just below the last page of RAM, which is not a whole
one. -/
def tightMachine : BootLayout :=
  { smallMachine with
    ramSize := 0x1000c00
    initrdStart := 0xff0000
    initrdEnd := 0xfffff0
    kernel_below := by decide
    initrd_order := by decide
    initrd_below := by decide }

/-- Behind the last whole page nothing is freed. -/
theorem tightMachine_placeApart {place : BitVec 32} {bytes : ℕ} (hlow : 0x1000000 ≤ place.toNat)
    (hhigh : place.toNat + bytes ≤ 0x1000c00) :
    tightMachine.PlaceApart clearedHeap place bytes := by
  refine ⟨hhigh, ?_⟩
  rintro a ⟨r, hr, ha⟩ ⟨hplace, hlt⟩
  have hmem : r ∈ [⟨0, 0xa0000⟩, ⟨0xa0000, 0x60000⟩, ⟨0x100000, 0⟩, ⟨0xff0000, 0xfff0⟩,
    ⟨0x100000, 0x180000⟩, ⟨0x180000, 0xe70000⟩, ⟨0xfffff0, 0x10⟩] := hr
  simp only [List.mem_cons, List.not_mem_nil, or_false] at hmem
  rcases hmem with rfl | rfl | rfl | rfl | rfl | rfl | rfl
  all_goals
    unfold MemoryRange.addresses at ha
    simp only [Set.mem_ofPred_eq] at ha
    bv_omega

/-- An allocation that creates a descriptor. -/
theorem descriptors_apart_iff_tightMachine :
    let s := tightMachine.setup clearedHeap
    tightMachine.PlaceApart clearedHeap tightMachine.firstDescriptor 128 ∧
      ∃ p, Path HeapStep s p ∧ (∃ r, p.map Prod.fst = [.alloc 0x100 r]) ∧
        Guarded (tightMachine.PlacesApart clearedHeap) s p ∧
          ∀ q, q <+: p → DescriptorsApart tightMachine s q := by
  have hsetup : tightMachine.PlaceApart clearedHeap tightMachine.firstDescriptor 128 :=
    tightMachine_placeApart (by decide) (by decide)
  obtain ⟨r, s', hcall⟩ := heapAlloc_terminates (tightMachine.setup_lists clearedHeap) 0x100
    (Nat.lt_succ_self _)
  have hp : Path HeapStep (tightMachine.setup clearedHeap) [(.alloc 0x100 r, s')] :=
    .cons (.alloc hcall) (.nil _)
  have hplace : tightMachine.PlacesApart clearedHeap (tightMachine.setup clearedHeap)
      (.alloc 0x100 r) := by
    intro _
    rw [setup_heap]
    exact tightMachine_placeApart (by decide) (by decide)
  exact ⟨hsetup, _, hp, ⟨r, rfl⟩, ⟨hplace, trivial⟩,
    (tightMachine.descriptors_apart_iff clearedHeap _ hp).1 ⟨hsetup, hplace, trivial⟩⟩

/-- When the first descriptor is below the end of RAM, it lies in the last free range. -/
theorem descriptor_in_free_range (h : b.firstDescriptor.toNat < (pageAlignDown b.ramSize).toNat) :
    ¬ DescriptorsApart b (b.setup prior) [] := by
  rw [apart_setup_iff]
  intro hplace
  obtain ⟨hfirst, -, -, -⟩ := b.firstDescriptor_bounds
  have hbelow := b.initrd_below
  refine hplace.apart b.firstDescriptor ⟨_, List.mem_of_getLast? rfl, ?_⟩
    ⟨BitVec.le_refl _, Nat.lt_add_of_pos_right (by decide)⟩
  change b.firstDescriptor - b.initrdEnd < pageAlignDown b.ramSize - b.initrdEnd
  bv_omega

theorem smallMachine_descriptor_free : ¬ ∀ p,
    Path HeapStep (smallMachine.setup clearedHeap) p →
      DescriptorsApart smallMachine (smallMachine.setup clearedHeap) p :=
  fun h => smallMachine.descriptor_in_free_range clearedHeap (by decide) (h [] (.nil _))

end BootLayout

end Einherjar.Memory
