import Einherjar.Memory.BootLayout

/-! What the set-up promises about the memory of the BIOS, of the kernel and of the initrd,
and what the allocator gives out of it. -/
namespace Einherjar.Memory
open Einherjar.Lib

/-- The addresses that the allocator must not give out. -/
def BootLayout.reserved (b : BootLayout) : List (Set ℕ) :=
  [{ a | biosVideoStart.toNat ≤ a ∧ a < biosVideoEnd.toNat },
    { a | b.kernelStart.toNat ≤ a ∧ a < b.kernelEnd.toNat },
    { a | b.initrdStart.toNat ≤ a ∧ a < b.initrdEnd.toNat }]

/-- The free ranges do not overlap, and they lie in RAM outside the reserved addresses. -/
structure SafeHeap (b : BootLayout) (s : HeapState) : Prop where
  disjoint : ∀ ds, TailQueue.Walk s.links (.first .freeMemoryRanges) ds →
    (ds.map s.range).Pairwise fun r q => Disjoint r.bytes q.bytes
  inside : ∀ r, OnList s .freeMemoryRanges r → ∀ a ∈ r.bytes, a < b.ramSize.toNat
  reserved : ∀ r, OnList s .freeMemoryRanges r → ∀ u ∈ b.reserved, Disjoint r.bytes u

/-- No chunk that a run gives out lies in a reserved area. -/
def NeverReserved (b : BootLayout) (s : HeapState) : Prop :=
  ∀ p, Path HeapStep s p → ∀ size r, HeapCall.alloc size r ∈ p.map Prod.fst → r ≠ 0 →
    ∀ u ∈ b.reserved, ¬ MemoryRange.bytes ⟨r, size⟩ ⊆ u

namespace BootLayout

variable (b : BootLayout) (prior : HeapState)

/-- The range of the BIOS is itself on the free list. -/
theorem bios_onList : OnList (b.setup prior) .freeMemoryRanges
    ⟨biosVideoStart, biosVideoEnd - biosVideoStart⟩ :=
  (b.setup_lists prior).onList_free.mpr
    ⟨b.firstDescriptor + 32, by simp [listed], b.setup_range_bios prior⟩

theorem not_safeHeap : ¬ SafeHeap b (b.setup prior) := by
  intro h
  have hbios := h.reserved _ (b.bios_onList prior) _ List.mem_cons_self
  have hmem : 0xa0000 ∈ MemoryRange.bytes ⟨biosVideoStart, biosVideoEnd - biosVideoStart⟩ := by
    constructor <;> decide
  exact Set.disjoint_left.mp hbios hmem (by constructor <;> decide)

/-- When the front of the free list is the range of the BIOS, an allocation of its size
takes it. -/
theorem bios_allocated {s : HeapState} {d : BitVec 32} {fs us : List (BitVec 32)}
    (h : Lists s (d :: fs) us)
    (hd : s.range d = ⟨biosVideoStart, biosVideoEnd - biosVideoStart⟩) :
    ∃ s', HeapStep s (.alloc 0x60000 0xa0000) s' := by
  obtain ⟨r, s', hcall⟩ := heapAlloc_terminates h 0x60000 (Nat.lt_succ_self _)
  obtain ⟨fs', us', ha⟩ := heapAlloc_allocates h hcall
  have hsize : (s.range d).size = 0x60000 := by rw [hd]; rfl
  have hr : r = 0xa0000 := by
    cases ha with
    | refused hno =>
      rcases hno with hzero | hsmall
      · exact absurd hzero (by decide)
      · have := hsmall d List.mem_cons_self
        rw [hsize] at this
        exact absurd this (by decide)
    | @exactFit xs ys e _ hfs hxs he =>
      cases xs with
      | nil =>
        obtain ⟨rfl, -⟩ := List.cons.inj hfs
        rw [hd]
        rfl
      | cons x xs =>
        obtain ⟨rfl, -⟩ := List.cons.inj hfs
        exact absurd hsize (hxs d List.mem_cons_self)
    | firstFit _ _ hexact _ _ => exact absurd hsize (hexact d List.mem_cons_self)
  subst hr
  exact ⟨s', .alloc hcall⟩

/-- One or two allocations give out the memory of the BIOS: before it on the free list
stands only one range, whose size comes from memory that nothing has written. -/
theorem bios_given_out : ∃ p, Path HeapStep (b.setup prior) p ∧
    HeapCall.alloc 0x60000 0xa0000 ∈ p.map Prod.fst := by
  have hlists := b.setup_lists prior
  have hbios := b.setup_range_bios prior
  have hsize : ((b.setup prior).range (b.firstDescriptor + 32)).size = 0x60000 := by
    rw [hbios]
    rfl
  obtain ⟨r, s', hcall⟩ := heapAlloc_terminates hlists 0x60000 (Nat.lt_succ_self _)
  have hbiosListed : b.firstDescriptor + 32 ∈ b.listed := by simp [listed]
  obtain ⟨fs', us', ha⟩ := heapAlloc_allocates hlists hcall
  -- A range of this size is on the list, so that no descriptor is made
  have hlists' : Lists s' fs' us' := ha.lists hlists fun hexact =>
    absurd hsize (hexact _ hbiosListed)
  generalize b.setup prior = s at *
  cases ha with
  | refused hno =>
    rcases hno with hzero | hsmall
    · exact absurd hzero (by decide)
    · have := hsmall _ hbiosListed
      rw [hsize] at this
      exact absurd this (by decide)
  | firstFit _ _ hexact _ _ =>
    exact absurd hsize (hexact _ hbiosListed)
  | @exactFit xs ys d _ hfs hxs hd =>
    rcases xs with _ | ⟨x, _ | ⟨y, xs⟩⟩
    · -- The range before that of the BIOS had its size by chance
      obtain ⟨rfl, rfl⟩ := List.cons.inj hfs
      obtain ⟨s'', hstep⟩ := bios_allocated hlists' hbios
      exact ⟨_, .cons (.alloc hcall) (.cons hstep (.nil _)), by simp⟩
    · obtain ⟨rfl, htail⟩ := List.cons.inj hfs
      obtain ⟨rfl, rfl⟩ := List.cons.inj htail
      have hr : (s.range (b.firstDescriptor + 32)).baseAddress = 0xa0000 := by
        rw [hbios]
        rfl
      rw [hr] at hcall
      exact ⟨_, .cons (.alloc hcall) (.nil _), by simp⟩
    · obtain ⟨rfl, htail⟩ := List.cons.inj hfs
      obtain ⟨rfl, -⟩ := List.cons.inj htail
      exact absurd hsize (hxs _ (by simp))

theorem not_neverReserved : ¬ NeverReserved b (b.setup prior) := by
  intro h
  obtain ⟨p, hp, hmem⟩ := b.bios_given_out prior
  exact h p hp _ _ hmem (by decide) _ List.mem_cons_self (fun _ ha => ha)

/-- Neither promise of the set-up is kept, for any layout and any prior content of memory. -/
theorem setup_never_safe : ¬ SafeHeap b (b.setup prior) ∧ ¬ NeverReserved b (b.setup prior) :=
  ⟨b.not_safeHeap prior, b.not_neverReserved prior⟩

theorem smallMachine_setup_unsafe :
    ¬ (SafeHeap smallMachine (smallMachine.setup clearedHeap) ∧
      NeverReserved smallMachine (smallMachine.setup clearedHeap)) :=
  fun h => smallMachine.not_safeHeap clearedHeap h.1

end BootLayout

end Einherjar.Memory
