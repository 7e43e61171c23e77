import Einherjar.Memory.Conservation

/-! The set-up of the allocator: the eight descriptors of `physical_memory_setup`, for every
layout in which the boot loader leaves memory. -/
namespace Einherjar.Memory
open Einherjar.Lib Einherjar.Lib.TailQueue

def x86PageSize : BitVec 32 := 4 * 1024

def biosVideoStart : BitVec 32 := 0xa0000
def biosVideoEnd : BitVec 32 := 0x100000

/-- `PAGE_ALIGN_DOWN` -/
def pageAlignDown (value : BitVec 32) : BitVec 32 := value &&& ~~~(x86PageSize - 1)

/-- `PAGE_ALIGN_UP` -/
def pageAlignUp (value : BitVec 32) : BitVec 32 :=
  ((value - 1) &&& ~~~(x86PageSize - 1)) + x86PageSize

namespace HeapState

/-- Take the next descriptor and give it a range. -/
def carve (s : HeapState) (r : MemoryRange) : HeapState :=
  { s.setRange s.heap r with heap := s.heap + sizeofMemoryRange }

/-- `TAILQ_INSERT_TAIL(&free_memory_ranges, d, next)` -/
def listFree (s : HeapState) (d : BitVec 32) : HeapState :=
  { s with links := insertTail s.links .freeMemoryRanges d }

end HeapState

/-- `physical_memory_setup`. The state `s` before it stands for whatever memory holds; the
linker gives the addresses `__kernel_start` and `__kernel_end`. -/
def physicalMemorySetup (s : HeapState)
    (kernelStart kernelEnd ramSize initrdStart initrdEnd : BitVec 32) : HeapState :=
  let s := { s with links := init (init s.links .freeMemoryRanges) .usedMemoryRanges }
  let s := { s with heap := pageAlignUp initrdEnd }
  -- Reserved : 0 ... base
  let s := s.carve ⟨x86PageSize, x86PageSize⟩
  -- Free : base ... BIOS
  let r2 := s.heap
  let base := (s.range r2).baseAddress
  let s := (s.carve ⟨base, biosVideoStart - base⟩).listFree r2
  -- Used : BIOS
  let r3 := s.heap
  let s := (s.carve ⟨biosVideoStart, biosVideoEnd - biosVideoStart⟩).listFree r3
  -- Free : BIOS ... kernel
  let r4 := s.heap
  let s := (s.carve ⟨biosVideoEnd, kernelStart - biosVideoEnd⟩).listFree r4
  -- Used: Initrd
  let r5 := s.heap
  let s := (s.carve ⟨initrdStart, initrdEnd - initrdStart⟩).listFree r5
  -- Used : Kernel code/data/bss + physcal page descr array
  let r6 := s.heap
  let s := (s.carve ⟨kernelStart, kernelEnd⟩).listFree r6
  -- Free : first page of descr ... end of RAM
  let r7 := s.heap
  let s := s.carve ⟨kernelEnd, initrdStart - kernelEnd⟩
  let r8 := s.heap
  let ramSize := pageAlignDown ramSize
  let s := s.carve ⟨initrdEnd, ramSize - initrdEnd⟩
  (s.listFree r7).listFree r8

/-- Where the boot loader has put the kernel and the initrd. -/
structure BootLayout where
  kernelStart : BitVec 32
  kernelEnd : BitVec 32
  ramSize : BitVec 32
  initrdStart : BitVec 32
  initrdEnd : BitVec 32
  bios_below : 0x100000 ≤ kernelStart.toNat
  kernel_order : kernelStart.toNat ≤ kernelEnd.toNat
  kernel_below : kernelEnd.toNat ≤ initrdStart.toNat
  initrd_order : initrdStart.toNat ≤ initrdEnd.toNat
  initrd_below : initrdEnd.toNat ≤ (pageAlignDown ramSize).toNat

def BootLayout.setup (b : BootLayout) (prior : HeapState) : HeapState :=
  physicalMemorySetup prior b.kernelStart b.kernelEnd b.ramSize b.initrdStart b.initrdEnd

/-- The address of the first descriptor. -/
def BootLayout.firstDescriptor (b : BootLayout) : BitVec 32 := pageAlignUp b.initrdEnd

section PageAlignment

theorem mask_eq_shift (v : BitVec 32) : v &&& ~~~(x86PageSize - 1) = v >>> 12 <<< 12 := by
  have hmask : ∀ i < 32, (~~~(x86PageSize - 1)).getLsbD i = !decide (i < 12) := by decide
  apply BitVec.eq_of_getLsbD_eq
  intro i hi
  rw [BitVec.getLsbD_and, hmask i hi, BitVec.getLsbD_shiftLeft, BitVec.getLsbD_ushiftRight]
  by_cases h : i < 12
  · simp [h]
  · simp [h, hi, show 12 + (i - 12) = i by omega]

theorem mask_toNat (v : BitVec 32) :
    (v &&& ~~~(x86PageSize - 1)).toNat = v.toNat / 4096 * 4096 := by
  have hlt := v.isLt
  rw [mask_eq_shift, BitVec.toNat_shiftLeft, BitVec.toNat_ushiftRight, Nat.shiftRight_eq_div_pow,
    Nat.shiftLeft_eq, Nat.mod_eq_of_lt (by omega)]

theorem pageAlignDown_toNat (v : BitVec 32) : (pageAlignDown v).toNat = v.toNat / 4096 * 4096 :=
  mask_toNat v

theorem pageAlignUp_toNat {v : BitVec 32} (hpos : 0 < v.toNat) (htop : v.toNat ≤ 0xfffff000) :
    (pageAlignUp v).toNat = (v.toNat - 1) / 4096 * 4096 + 4096 := by
  have hpred : (v - 1).toNat = v.toNat - 1 := by bv_omega
  have hpage : x86PageSize.toNat = 4096 := rfl
  unfold pageAlignUp
  rw [BitVec.toNat_add, mask_toNat, hpred, hpage]
  omega

end PageAlignment

namespace BootLayout

variable (b : BootLayout) (prior : HeapState)

theorem firstDescriptor_bounds : b.initrdEnd.toNat ≤ b.firstDescriptor.toNat ∧
    b.firstDescriptor.toNat ≤ 0xfffff000 ∧
    (pageAlignDown b.ramSize).toNat ≤ b.ramSize.toNat ∧
    b.ramSize.toNat < (pageAlignDown b.ramSize).toNat + 4096 := by
  have h1 := b.bios_below
  have h2 := b.kernel_order
  have h3 := b.kernel_below
  have h4 := b.initrd_order
  have h5 := b.initrd_below
  have hram := b.ramSize.isLt
  rw [pageAlignDown_toNat] at h5 ⊢
  unfold firstDescriptor
  rw [pageAlignUp_toNat (by omega) (by omega)]
  omega

end BootLayout

section Carve

variable {s : HeapState} {fs us : List (BitVec 32)}

theorem lists_init (s : HeapState) :
    Lists { s with links := init (init s.links .freeMemoryRanges) .usedMemoryRanges } [] [] where
  free := by
    refine ⟨⟨⟨trivial, ?_⟩, ?_⟩, trivial⟩ <;> simp [init]
  used := tailq_init _ _
  disjoint := nofun

/-- A descriptor that is on no list yet goes to the end of the free list. -/
theorem Lists.listFree (h : Lists s fs us) {d : BitVec 32} (hd : d ∉ fs ++ us) :
    Lists (s.listFree d) (fs ++ [d]) us := by
  have hdf : d ∉ fs := fun hm => hd (List.mem_append_left _ hm)
  have hdu : d ∉ us := fun hm => hd (List.mem_append_right _ hm)
  constructor
  case free => exact h.free.insertTail hdf
  case used => exact h.used.insertTail_other h.free.queue nofun h.disjoint hdu
  case disjoint =>
    intro e he
    rcases List.mem_append.mp he with he | he
    · exact h.disjoint e he
    · rw [List.mem_singleton.mp he]
      exact hdu

/-- Descriptors that go to the free list one after another. -/
theorem Lists.listFree_all (h : Lists s fs []) {ds : List (BitVec 32)} (hds : (fs ++ ds).Nodup) :
    Lists (ds.foldl HeapState.listFree s) (fs ++ ds) [] := by
  induction ds generalizing s fs with
  | nil => simpa using h
  | cons d ds ih =>
    have hsplit : fs ++ d :: ds = fs ++ [d] ++ ds := by simp
    rw [hsplit] at hds ⊢
    have hd : d ∉ fs ++ [] := by
      rw [List.append_nil]
      intro hm
      exact (List.nodup_append.mp (List.nodup_append.mp hds).1).2.2 d hm d (by simp) rfl
    exact ih (h.listFree hd) hds

theorem Lists.congr {s' : HeapState} (h : Lists s fs us) (hlinks : s'.links = s.links) :
    Lists s' fs us :=
  ⟨hlinks ▸ h.free, hlinks ▸ h.used, h.disjoint⟩

end Carve

namespace BootLayout

variable (b : BootLayout) (prior : HeapState)

theorem setup_heap : (b.setup prior).heap = b.firstDescriptor + 128 := by
  simp [setup, physicalMemorySetup, HeapState.carve, HeapState.listFree, sizeofMemoryRange,
    firstDescriptor, BitVec.add_assoc]

/-- The descriptors that the set-up lists: seven of the eight. -/
def listed : List (BitVec 32) :=
  [b.firstDescriptor + 16, b.firstDescriptor + 32, b.firstDescriptor + 48,
    b.firstDescriptor + 64, b.firstDescriptor + 80, b.firstDescriptor + 96,
    b.firstDescriptor + 112]

/-- Seven of the eight descriptors go to the free list. -/
theorem setup_lists : Lists (b.setup prior) b.listed [] := by
  have hnodup : ([] ++ b.listed).Nodup := by simp [listed]
  refine ((lists_init prior).listFree_all hnodup).congr ?_
  simp [setup, physicalMemorySetup, HeapState.carve, HeapState.listFree, HeapState.setRange,
    sizeofMemoryRange, firstDescriptor, listed, BitVec.add_assoc]

theorem setup_range_bios : (b.setup prior).range (b.firstDescriptor + 32) =
    ⟨biosVideoStart, biosVideoEnd - biosVideoStart⟩ := by
  simp [setup, physicalMemorySetup, HeapState.carve, HeapState.listFree, HeapState.setRange,
    sizeofMemoryRange, firstDescriptor, BitVec.add_assoc]

/-- The ranges of these seven descriptors. The base of the first is what memory held there. -/
def freedRanges : List MemoryRange :=
  let base := (prior.range (b.firstDescriptor + 16)).baseAddress
  [⟨base, biosVideoStart - base⟩, ⟨biosVideoStart, biosVideoEnd - biosVideoStart⟩,
    ⟨biosVideoEnd, b.kernelStart - biosVideoEnd⟩, ⟨b.initrdStart, b.initrdEnd - b.initrdStart⟩,
    ⟨b.kernelStart, b.kernelEnd⟩, ⟨b.kernelEnd, b.initrdStart - b.kernelEnd⟩,
    ⟨b.initrdEnd, pageAlignDown b.ramSize - b.initrdEnd⟩]

theorem setup_ranges : b.listed.map (b.setup prior).range = b.freedRanges prior := by
  simp [setup, physicalMemorySetup, HeapState.carve, HeapState.listFree, HeapState.setRange,
    sizeofMemoryRange, firstDescriptor, BitVec.add_assoc, listed, freedRanges]

/-- What the set-up frees is on the free list. -/
theorem freed_onList {r : MemoryRange} (hr : r ∈ b.freedRanges prior) :
    OnList (b.setup prior) .freeMemoryRanges r := by
  rw [← setup_ranges] at hr
  obtain ⟨d, hd, hrange⟩ := List.mem_map.mp hr
  exact (b.setup_lists prior).onList_free.mpr ⟨d, hd, hrange⟩

/-- Memory before the set-up: all zero. -/
def clearedHeap : HeapState where
  links := { load := fun _ => none, tqePrev := fun _ => .null, tqhLast := fun _ => .null }
  range _ := ⟨0, 0⟩
  heap := 0

/-- A kernel of 512 KiB at 1 MiB, an initrd of 64 KiB behind it, and 16 MiB of memory. -/
def smallMachine : BootLayout where
  kernelStart := 0x100000
  kernelEnd := 0x180000
  ramSize := 0x1000000
  initrdStart := 0x180000
  initrdEnd := 0x190000
  bios_below := by decide
  kernel_order := by decide
  kernel_below := by decide
  initrd_order := by decide
  initrd_below := by decide

end BootLayout

end Einherjar.Memory
