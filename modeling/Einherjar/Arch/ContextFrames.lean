import Einherjar.Arch.CpuContext

/-! The bytes of a saved context: what the routine pushes, what `cpu_kstate_init` writes, and
what the routine restores from them. -/
namespace Einherjar.Arch
open Einherjar.Lib

section Save

variable (code : CodeAddresses) (arith : BitVec 32 → BitVec 32 → BitVec 32)

/-- What the save part leaves on the stack of a thread that has called the routine. -/
def savedState (m : Machine) (padding : BitVec 16) : CpuState where
  gs := m.seg .gs
  fs := m.seg .fs
  es := m.seg .es
  ds := m.seg .ds
  ss := m.seg .ss
  padding := padding
  eax := m.reg .eax
  ebx := m.reg .ebx
  ecx := m.reg .ecx
  edx := m.reg .edx
  esi := m.reg .esi
  edi := m.reg .edi
  ebp := m.reg .ebp
  errorCode := 0
  eip := code.resumePc
  cs := (m.seg .cs).setWidth 32
  eflags := m.eflags

theorem saveContext_pushed (m : Machine) :
    ∃ padding, Pushed m (execBlock arith m (saveContext code))
      (savedState code m padding).bytes := by
  let m1 := (((m.push32 m.eflags).push32 ((m.seg .cs).setWidth 32)).push32 code.resumePc).push32 0
  let m2 := (((m1.push32 (m.reg .ebp)).push32 (m.reg .edi)).push32 (m.reg .esi)).push32 (m.reg .edx)
  let m3 := ((m2.push32 (m.reg .ecx)).push32 (m.reg .ebx)).push32 (m.reg .eax)
  let m4 := m3.addEsp arith (-2)
  let m5 := ((((m4.push16 (m.seg .ss)).push16 (m.seg .ds)).push16 (m.seg .es)).push16
    (m.seg .fs)).push16 (m.seg .gs)
  have hexec : execBlock arith m (saveContext code) = m5 := rfl
  have h1 := (((pushed_push32 m m.eflags).trans (pushed_push32 _ ((m.seg .cs).setWidth 32))
    (by simp)).trans (pushed_push32 _ code.resumePc) (by simp)).trans (pushed_push32 _ 0) (by simp)
  have h2 := (((h1.trans (pushed_push32 _ (m.reg .ebp)) (by simp)).trans
    (pushed_push32 _ (m.reg .edi)) (by simp)).trans (pushed_push32 _ (m.reg .esi))
    (by simp)).trans (pushed_push32 _ (m.reg .edx)) (by simp)
  have h3 := ((h2.trans (pushed_push32 _ (m.reg .ecx)) (by simp)).trans
    (pushed_push32 _ (m.reg .ebx)) (by simp)).trans (pushed_push32 _ (m.reg .eax)) (by simp)
  have h4 := h3.trans (pushed_subEsp arith m3) (by simp)
  have h5 := ((((h4.trans (pushed_push16 _ (m.seg .ss)) (by simp)).trans
    (pushed_push16 _ (m.seg .ds)) (by simp)).trans (pushed_push16 _ (m.seg .es))
    (by simp)).trans (pushed_push16 _ (m.seg .fs)) (by simp)).trans
    (pushed_push16 _ (m.seg .gs)) (by simp)
  exact ⟨m3.mem.load16 (m3.esp + -2), by rw [hexec]; exact h5⟩

end Save

/-- The context that `cpu_kstate_init` describes. -/
def initialState (code : CodeAddresses) : CpuState where
  gs := 0
  fs := 0
  es := BitVec.ofNat 16 (segmentRegisterValue kernelDataSegment)
  ds := BitVec.ofNat 16 (segmentRegisterValue kernelDataSegment)
  ss := BitVec.ofNat 16 (segmentRegisterValue kernelDataSegment)
  padding := 0
  eax := 0
  ebx := 0
  ecx := 0
  edx := 0
  esi := 0
  edi := 0
  ebp := 0
  errorCode := 0
  eip := code.coreRoutine
  cs := BitVec.ofNat 32 (segmentRegisterValue kernelCodeSegment)
  eflags := 1#32 <<< 9

section Init

variable (code : CodeAddresses) (mem : Memory 32)
  (ctxt startFunc startArg stackBase stackSize : BitVec 32)

/-- The six assignments of `cpu_kstate_init` to a cleared structure give the initial context
and leave what lies above the structure alone. -/
theorem initialState_bytes (bs : List (BitVec 8)) :
    Memory.overwrite (Memory.overwrite (Memory.overwrite (Memory.overwrite (Memory.overwrite
      (Memory.overwrite (List.replicate sizeofCpuKstate 0 ++ bs)
        (CpuStateField.offset .eip) (Memory.bytes32 code.coreRoutine))
        (CpuStateField.offset .cs)
          (Memory.bytes32 (BitVec.ofNat 32 (segmentRegisterValue kernelCodeSegment))))
        (CpuStateField.offset .ds)
          (Memory.bytes16 (BitVec.ofNat 16 (segmentRegisterValue kernelDataSegment))))
        (CpuStateField.offset .es)
          (Memory.bytes16 (BitVec.ofNat 16 (segmentRegisterValue kernelDataSegment))))
        (CpuStateField.offset .ss)
          (Memory.bytes16 (BitVec.ofNat 16 (segmentRegisterValue kernelDataSegment))))
        (CpuStateField.offset .eflags) (Memory.bytes32 (1#32 <<< 9)) =
      (initialState code).bytes ++ bs := by
  simp [Memory.overwrite, CpuState.bytes, initialState, Memory.bytes32, Memory.bytes16,
    sizeofCpuKstate_eq, List.replicate, CpuStateField.offset, CpuStateField.declared,
    CpuStateField.size, List.takeWhile]

/-- The context, and above it the frame of the simulated call, as long as the pointer to the
context is stored elsewhere. -/
theorem cpuKstateInit_holds
    (hctxt : ∀ i < 68, ∀ j < 4, kstateAddress stackBase stackSize + BitVec.ofNat 32 i ≠
      ctxt + BitVec.ofNat 32 j) :
    (cpuKstateInit code mem ctxt startFunc startArg stackBase stackSize).Holds
      (kstateAddress stackBase stackSize)
      ((initialState code).bytes ++ (Memory.bytes32 0 ++
        (Memory.bytes32 startFunc ++ Memory.bytes32 startArg))) := by
  have h1 := Memory.holds_storeBytes mem (stackBase + stackSize - 4) (Memory.bytes32 startArg)
    (by simp)
  have h2 := h1.push (c := stackBase + stackSize - 4 - 4) (Memory.bytes32 startFunc)
    (BitVec.sub_add_cancel ..) (by simp)
  have h3 := h2.push (c := stackBase + stackSize - 4 - 4 - 4) (Memory.bytes32 0)
    (BitVec.sub_add_cancel ..) (by simp)
  have h4 := h3.push (c := kstateAddress stackBase stackSize) (List.replicate sizeofCpuKstate 0)
    (BitVec.sub_add_cancel ..) (by simp [sizeofCpuKstate_eq])
  have hlen : (List.replicate sizeofCpuKstate 0 ++ (Memory.bytes32 0 ++
      (Memory.bytes32 startFunc ++ Memory.bytes32 startArg))).length = 68 := by
    simp [sizeofCpuKstate_eq]
  -- The assignments to the fields, in the order of the C code
  have heip : CpuStateField.offset .eip = 44 := rfl
  have h5 := Memory.Holds.storeBytes (CpuStateField.offset .eip)
    (Memory.bytes32 code.coreRoutine) ⟨h4, hlen⟩ (by simp [heip]) (by simp)
  have h6 := Memory.Holds.storeBytes (CpuStateField.offset .cs)
    (Memory.bytes32 (BitVec.ofNat 32 (segmentRegisterValue kernelCodeSegment)))
    h5 (by decide) (by simp)
  have h7 := Memory.Holds.storeBytes (CpuStateField.offset .ds)
    (Memory.bytes16 (BitVec.ofNat 16 (segmentRegisterValue kernelDataSegment)))
    h6 (by decide) (by simp)
  have h8 := Memory.Holds.storeBytes (CpuStateField.offset .es)
    (Memory.bytes16 (BitVec.ofNat 16 (segmentRegisterValue kernelDataSegment)))
    h7 (by decide) (by simp)
  have h9 := Memory.Holds.storeBytes (CpuStateField.offset .ss)
    (Memory.bytes16 (BitVec.ofNat 16 (segmentRegisterValue kernelDataSegment)))
    h8 (by decide) (by simp)
  have h10 := Memory.Holds.storeBytes (CpuStateField.offset .eflags)
    (Memory.bytes32 (1#32 <<< 9)) h9 (by decide) (by simp)
  rw [initialState_bytes] at h10
  refine h10.1.congr fun i hi => Memory.storeBytes_of_ne _ fun j hj => ?_
  exact hctxt i hi j hj

theorem kstateAddress_eq :
    kstateAddress stackBase stackSize = stackBase + stackSize - 68 := by
  simp only [kstateAddress, BitVec.sub_sub]
  rfl

/-- The context and the simulated call lie on the stack, if that has room for 68 bytes. -/
theorem kstateAddress_inRegion (hsize : 68 ≤ stackSize.toNat) {i : ℕ} (hi : i < 68) :
    InRegion stackBase stackSize (kstateAddress stackBase stackSize + BitVec.ofNat 32 i) := by
  rw [kstateAddress_eq, InRegion]
  bv_omega

/-- `cpu_kstate_init` writes to its stack and to `*ctxt` only. -/
theorem cpuKstateInit_outside (hsize : 68 ≤ stackSize.toNat) {c : BitVec 32}
    (hc : ¬ InRegion stackBase stackSize c) (hctxt : ∀ j < 4, c ≠ ctxt + BitVec.ofNat 32 j) :
    cpuKstateInit code mem ctxt startFunc startArg stackBase stackSize c = mem c := by
  have hstore : ∀ (mem : Memory 32) k (vs : List (BitVec 8)), k + vs.length ≤ 68 →
      mem.storeBytes (kstateAddress stackBase stackSize + BitVec.ofNat 32 k) vs c = mem c := by
    intro mem k vs hk
    refine mem.storeBytes_of_ne fun i hi hci => hc ?_
    rw [hci, BitVec.add_assoc, ← BitVec.ofNat_add]
    exact kstateAddress_inRegion _ _ hsize (by omega)
  have hk := kstateAddress_eq stackBase stackSize
  have h64 : stackBase + stackSize - 4 =
      kstateAddress stackBase stackSize + BitVec.ofNat 32 64 := by bv_omega
  have h60 : kstateAddress stackBase stackSize + BitVec.ofNat 32 64 - 4 =
      kstateAddress stackBase stackSize + BitVec.ofNat 32 60 := by bv_omega
  have h56 : kstateAddress stackBase stackSize + BitVec.ofNat 32 60 - 4 =
      kstateAddress stackBase stackSize + BitVec.ofNat 32 56 := by bv_omega
  have h0 : kstateAddress stackBase stackSize + BitVec.ofNat 32 56 - BitVec.ofNat 32 56 =
      kstateAddress stackBase stackSize := by bv_omega
  have hclear : ∀ mem : Memory 32,
      mem.storeBytes (kstateAddress stackBase stackSize) (List.replicate 56 0) c = mem c := by
    intro mem
    simpa using hstore mem 0 (List.replicate 56 0) (by simp)
  have hptr : ∀ mem : Memory 32,
      mem.storeBytes ctxt (Memory.bytes32 (kstateAddress stackBase stackSize)) c = mem c :=
    fun mem => mem.storeBytes_of_ne hctxt
  simp only [cpuKstateInit, Memory.store32, Memory.store16, h64, h60, h56, sizeofCpuKstate_eq, h0]
  rw [hptr, hstore _ _ _ (show 52 + 4 ≤ 68 by omega), hstore _ _ _ (show 8 + 2 ≤ 68 by omega),
    hstore _ _ _ (show 4 + 2 ≤ 68 by omega), hstore _ _ _ (show 6 + 2 ≤ 68 by omega),
    hstore _ _ _ (show 48 + 4 ≤ 68 by omega), hstore _ _ _ (show 44 + 4 ≤ 68 by omega), hclear,
    hstore _ _ _ (show 56 + 4 ≤ 68 by omega), hstore _ _ _ (show 60 + 4 ≤ 68 by omega),
    hstore _ _ _ (show 64 + 4 ≤ 68 by omega)]

end Init

section Restore

variable (arith : BitVec 32 → BitVec 32 → BitVec 32)

/-- The processor state `m'` is the one that the saved context describes. -/
structure Restored (s : CpuState) (m' : Machine) : Prop where
  eax : m'.reg .eax = s.eax
  ebx : m'.reg .ebx = s.ebx
  ecx : m'.reg .ecx = s.ecx
  edx : m'.reg .edx = s.edx
  esi : m'.reg .esi = s.esi
  edi : m'.reg .edi = s.edi
  ebp : m'.reg .ebp = s.ebp
  gs : m'.seg .gs = s.gs
  fs : m'.seg .fs = s.fs
  es : m'.seg .es = s.es
  ds : m'.seg .ds = s.ds
  ss : m'.seg .ss = s.ss
  cs : m'.seg .cs = s.cs.setWidth 16
  eip : m'.eip = s.eip
  eflags : m'.eflags = s.eflags

theorem restoreContext_restored (m : Machine) (s : CpuState) (rest : List (BitVec 8))
    (h : m.mem.Holds m.esp (s.bytes ++ rest)) :
    Restored s (execBlock arith m restoreContext) ∧
      (execBlock arith m restoreContext).esp = m.esp + 56 ∧
      (execBlock arith m restoreContext).mem = m.mem ∧ m.mem.Holds (m.esp + 56) rest := by
  have h56 := (Memory.holds_append.mp h).2
  simp only [CpuState.bytes, List.append_assoc] at h
  obtain ⟨hgs, h⟩ := h.load16
  obtain ⟨hfs, h⟩ := h.load16
  obtain ⟨hes, h⟩ := h.load16
  obtain ⟨hds, h⟩ := h.load16
  obtain ⟨hss, h⟩ := h.load16
  obtain ⟨-, h⟩ := h.load16
  obtain ⟨heax, h⟩ := h.load32
  obtain ⟨hebx, h⟩ := h.load32
  obtain ⟨hecx, h⟩ := h.load32
  obtain ⟨hedx, h⟩ := h.load32
  obtain ⟨hesi, h⟩ := h.load32
  obtain ⟨hedi, h⟩ := h.load32
  obtain ⟨hebp, h⟩ := h.load32
  obtain ⟨-, h⟩ := h.load32
  obtain ⟨heip, h⟩ := h.load32
  obtain ⟨hcs, h⟩ := h.load32
  obtain ⟨hfl, -⟩ := h.load32
  refine ⟨⟨heax, hebx, hecx, hedx, hesi, hedi, hebp, hgs, hfs, hes, hds, hss, ?_, heip, ?_⟩,
    ?_, rfl, h56⟩
  · exact congrArg (BitVec.setWidth 16) hcs
  · rw [← hfl, BitVec.add_assoc _ 4 4]
    rfl
  · have hadd : (execBlock arith m restoreContext).esp = m.esp + 2 + 2 + 2 + 2 + 2 + 2 + 4 + 4 + 4
        + 4 + 4 + 4 + 4 + 4 + 12 := rfl
    rw [hadd]
    bv_omega

end Restore

end Einherjar.Arch
