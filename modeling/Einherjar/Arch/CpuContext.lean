import Einherjar.Arch.Machine

/-! The saved context of a kernel thread: the layout of `struct cpu_state`, the first
context that `cpu_kstate_init` builds, and the routine `cpu_context_switch`. -/
namespace Einherjar.Arch
open Einherjar.Lib

/-- The fields of the packed `struct cpu_state`. -/
inductive CpuStateField where
  | gs | fs | es | ds | ss | padding
  | eax | ebx | ecx | edx | esi | edi | ebp
  | errorCode | eip | cs | eflags
  deriving DecidableEq

namespace CpuStateField

/-- The fields in the order of their declaration. -/
def declared : List CpuStateField :=
  [.gs, .fs, .es, .ds, .ss, .padding, .eax, .ebx, .ecx, .edx, .esi, .edi, .ebp,
    .errorCode, .eip, .cs, .eflags]

/-- `uint16_t` for the first six fields, `uint32_t` for the others. -/
def size : CpuStateField → ℕ
  | .gs | .fs | .es | .ds | .ss | .padding => 2
  | _ => 4

/-- `offsetof`: the structure is packed. -/
def offset (f : CpuStateField) : ℕ := ((declared.takeWhile (· ≠ f)).map size).sum

end CpuStateField

/-- An address in the `size` bytes from `base` upwards. -/
def InRegion (base size a : BitVec 32) : Prop := (a - base).toNat < size.toNat

/-- `sizeof(struct cpu_kstate)` -/
def sizeofCpuKstate : ℕ := (CpuStateField.declared.map CpuStateField.size).sum

/-- A value of `struct cpu_state`. -/
structure CpuState where
  gs : BitVec 16
  fs : BitVec 16
  es : BitVec 16
  ds : BitVec 16
  ss : BitVec 16
  padding : BitVec 16
  eax : BitVec 32
  ebx : BitVec 32
  ecx : BitVec 32
  edx : BitVec 32
  esi : BitVec 32
  edi : BitVec 32
  ebp : BitVec 32
  errorCode : BitVec 32
  eip : BitVec 32
  cs : BitVec 32
  eflags : BitVec 32

/-- The object representation of the structure. -/
def CpuState.bytes (s : CpuState) : List (BitVec 8) :=
  Memory.bytes16 s.gs ++ (Memory.bytes16 s.fs ++ (Memory.bytes16 s.es ++ (Memory.bytes16 s.ds ++
  (Memory.bytes16 s.ss ++ (Memory.bytes16 s.padding ++ (Memory.bytes32 s.eax ++
  (Memory.bytes32 s.ebx ++ (Memory.bytes32 s.ecx ++ (Memory.bytes32 s.edx ++
  (Memory.bytes32 s.esi ++ (Memory.bytes32 s.edi ++ (Memory.bytes32 s.ebp ++
  (Memory.bytes32 s.errorCode ++ (Memory.bytes32 s.eip ++ (Memory.bytes32 s.cs ++
  Memory.bytes32 s.eflags)))))))))))))))

@[simp] theorem CpuState.bytes_length (s : CpuState) : s.bytes.length = 56 := rfl

theorem sizeofCpuKstate_eq : sizeofCpuKstate = 56 := rfl

/-- `X86_BUILD_SEGMENT_REGISTER_VALUE` -/
def segmentRegisterValue (segmentIndex : ℕ) : ℕ := 0 ||| 0 ||| (segmentIndex <<< 3)

def kernelCodeSegment : ℕ := 1
def kernelDataSegment : ℕ := 2

/-- The addresses that the linker gives to `core_routine` and to the label `resume_pc`.
They lie in different functions. -/
structure CodeAddresses where
  coreRoutine : BitVec 32
  resumePc : BitVec 32
  distinct : coreRoutine ≠ resumePc

/-- `cpu_kstate_init`: the memory it leaves. The addresses are those of the C code, so each
store below stands for one assignment there. -/
def cpuKstateInit (code : CodeAddresses) (mem : Memory 32)
    (ctxt startFunc startArg stackBase stackSize : BitVec 32) : Memory 32 :=
  let tmpVaddr := stackBase + stackSize
  -- The arguments and the return address of a simulated call of core_routine
  let mem := mem.store32 (tmpVaddr - 4) startArg
  let mem := mem.store32 (tmpVaddr - 4 - 4) startFunc
  let mem := mem.store32 (tmpVaddr - 4 - 4 - 4) 0
  let kctxt := tmpVaddr - 4 - 4 - 4 - BitVec.ofNat 32 sizeofCpuKstate
  let field (f : CpuStateField) : BitVec 32 := kctxt + BitVec.ofNat 32 f.offset
  let mem := mem.storeBytes kctxt (List.replicate sizeofCpuKstate 0)
  let mem := mem.store32 (field .eip) code.coreRoutine
  let mem := mem.store32 (field .cs) (BitVec.ofNat 32 (segmentRegisterValue kernelCodeSegment))
  let mem := mem.store16 (field .ds) (BitVec.ofNat 16 (segmentRegisterValue kernelDataSegment))
  let mem := mem.store16 (field .es) (BitVec.ofNat 16 (segmentRegisterValue kernelDataSegment))
  let mem := mem.store16 (field .ss) (BitVec.ofNat 16 (segmentRegisterValue kernelDataSegment))
  let mem := mem.store32 (field .eflags) (1#32 <<< 9)
  mem.store32 ctxt kctxt

/-- The pointer that `cpu_kstate_init` stores in `*ctxt`. -/
def kstateAddress (stackBase stackSize : BitVec 32) : BitVec 32 :=
  stackBase + stackSize - 4 - 4 - 4 - BitVec.ofNat 32 sizeofCpuKstate

/-- The first part of `cpu_context_switch`: the context goes onto the current stack. -/
def saveContext (code : CodeAddresses) : List Instr :=
  [.pushf, .pushSeg .cs, .pushImm code.resumePc, .pushImm 0,
    .push .ebp, .push .edi, .push .esi, .push .edx, .push .ecx, .push .ebx, .push .eax,
    .subEsp 2,
    .o16PushSeg .ss, .o16PushSeg .ds, .o16PushSeg .es, .o16PushSeg .fs, .o16PushSeg .gs]

/-- Store the address of the saved context, and change stacks. -/
def exchangeStacks : List Instr :=
  [.load .ebx .esp 60, .store .ebx 0 .esp, .load .esp .esp 64]

/-- The last part: the context on the new stack goes into the processor. -/
def restoreContext : List Instr :=
  [.o16PopSeg .gs, .o16PopSeg .fs, .o16PopSeg .es, .o16PopSeg .ds, .o16PopSeg .ss,
    .addEsp 2,
    .pop .eax, .pop .ebx, .pop .ecx, .pop .edx, .pop .esi, .pop .edi, .pop .ebp,
    .addEsp 4,
    .iret]

/-- `cpu_context_switch` up to its `iret` and, if that has led there, the code at
`resume_pc`. -/
def cpuContextSwitch (code : CodeAddresses) (arith : BitVec 32 → BitVec 32 → BitVec 32)
    (m : Machine) : Machine :=
  let m := execBlock arith m (saveContext code ++ exchangeStacks ++ restoreContext)
  if m.eip = code.resumePc then execBlock arith m [.ret] else m

end Einherjar.Arch
