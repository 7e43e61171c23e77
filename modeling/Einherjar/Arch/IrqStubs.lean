import Einherjar.Arch.WaitingThread
import Einherjar.Arch.InterruptRouting

/-! The wrappers of `irq-stubs.asm`: how the processor comes from an interrupted thread into the
C handler of a line, and how it returns. -/
namespace Einherjar.Arch
open Einherjar.Lib

/-- A processor, and the bytes that it has written to ports so far. -/
structure Processor where
  machine : Machine
  ports : List (BitVec 16 × BitVec 8)

/-- The instructions of the stubs: those of stack code, and what the stubs use besides. A call
stands in front of the instruction at `next`. -/
inductive StubInstr where
  | stack (i : Instr)
  | cli
  /-- `mov dst, src` -/
  | mov (dst src : Reg)
  /-- `mov dst, v` and `lea dst, [v]` -/
  | movImm (dst : Reg) (v : BitVec 32)
  | movAl (v : BitVec 8)
  | movAx (v : BitVec 16)
  /-- `mov s, ax` -/
  | movSeg (s : Seg)
  /-- `out port, al` -/
  | outAl (port : BitVec 8)
  | pusha
  | callReg (r : Reg) (next : BitVec 32)
  /-- `call [base+disp]` -/
  | callMem (base : Reg) (disp next : BitVec 32)

namespace Machine

/-- `pusha` pushes the stack pointer as it was before. -/
def pusha (m : Machine) : Machine :=
  let m' := (((m.push32 (m.reg .eax)).push32 (m.reg .ecx)).push32 (m.reg .edx)).push32 (m.reg .ebx)
  (((m'.push32 m.esp).push32 (m.reg .ebp)).push32 (m.reg .esi)).push32 (m.reg .edi)

def call (m : Machine) (target next : BitVec 32) : Machine :=
  { m.push32 next with eip := target }

@[simp] theorem setReg_eflags (m : Machine) (r : Reg) (v : BitVec 32) :
    (m.setReg r v).eflags = m.eflags := rfl

@[simp] theorem push32_eflags (m : Machine) (v : BitVec 32) : (m.push32 v).eflags = m.eflags := rfl

@[simp] theorem call_eflags (m : Machine) (target next : BitVec 32) :
    (m.call target next).eflags = m.eflags := rfl

theorem addEsp_esp (arith : BitVec 32 → BitVec 32 → BitVec 32) (m : Machine) (n : BitVec 32) :
    (m.addEsp arith n).esp = m.esp + n := rfl

/-- The flag IF. -/
def interruptible (m : Machine) : Bool := m.eflags.getLsbD 9

/-- An interrupt gate clears TF, IF, NT, RF and VM. -/
def gateFlags (eflags : BitVec 32) : BitVec 32 := eflags &&& ~~~0x34300#32

/-- The processor passes an interrupt gate at the privilege level of the kernel. -/
def enterGate (m : Machine) (gate : IdtEntry) : Machine :=
  let m' := ((m.push32 m.eflags).push32 ((m.seg .cs).setWidth 32)).push32 m.eip
  { m'.setSeg .cs gate.segmentSelector with
    eip := gate.offsetHigh ++ gate.offsetLow
    eflags := gateFlags m.eflags }

end Machine

def StubInstr.exec (arith : BitVec 32 → BitVec 32 → BitVec 32) (p : Processor) :
    StubInstr → Processor
  | .stack i => { p with machine := i.exec arith p.machine }
  | .cli => { p with machine := { p.machine with eflags := p.machine.eflags &&& ~~~0x200#32 } }
  | .mov dst src => { p with machine := p.machine.setReg dst (p.machine.reg src) }
  | .movImm dst v => { p with machine := p.machine.setReg dst v }
  | .movAl v => { p with
      machine := p.machine.setReg .eax ((p.machine.reg .eax).extractLsb' 8 24 ++ v) }
  | .movAx v => { p with
      machine := p.machine.setReg .eax ((p.machine.reg .eax).extractLsb' 16 16 ++ v) }
  | .movSeg s => { p with machine := p.machine.setSeg s ((p.machine.reg .eax).setWidth 16) }
  | .outAl port => { p with
      ports := p.ports ++ [(port.setWidth 16, (p.machine.reg .eax).setWidth 8)] }
  | .pusha => { p with machine := p.machine.pusha }
  | .callReg r next => { p with machine := p.machine.call (p.machine.reg r) next }
  | .callMem base disp next => { p with
      machine := p.machine.call (p.machine.mem.load32 (p.machine.reg base + disp)) next }

def execStub (arith : BitVec 32 → BitVec 32 → BitVec 32) : Processor → List StubInstr → Processor
  | p, [] => p
  | p, i :: is => execStub arith (i.exec arith p) is

/-- The addresses that the linker gives to `x86_irq_handler_array`, and to the instruction behind
the call in each wrapper. -/
structure IrqLinkage where
  handlerArray : BitVec 32
  afterCall : Fin x86IrqNum → BitVec 32

/-- `SAVE_REGISTERS` -/
def saveRegisters : List Instr :=
  [.push .edi, .push .esi, .push .edx, .push .ecx, .push .ebx, .push .eax, .subEsp 2,
    .o16PushSeg .ss, .o16PushSeg .ds, .o16PushSeg .es, .o16PushSeg .fs, .o16PushSeg .gs]

/-- `RESTORE_REGISTERS` -/
def restoreRegisters : List Instr :=
  [.o16PopSeg .gs, .o16PopSeg .fs, .o16PopSeg .es, .o16PopSeg .ds, .o16PopSeg .ss, .addEsp 2,
    .pop .eax, .pop .ebx, .pop .ecx, .pop .edx, .pop .esi, .pop .edi, .pop .ebp]

/-- The EOI: a line of the slave is acknowledged at both controllers. -/
def sendEoi (line : Fin x86IrqNum) : List StubInstr :=
  if line.val < 8 then [.movAl 0x20, .outAl 0x20]
  else [.movAl 0x20, .outAl 0xa0, .outAl 0x20]

/-- `x86_irq_wrapper_n` up to its call of the handler. -/
def x86IrqWrapperEntry (link : IrqLinkage) (line : Fin x86IrqNum) : List StubInstr :=
  [.stack (.pushImm 0), .stack (.push .ebp), .mov .ebp .esp] ++ saveRegisters.map .stack ++
    sendEoi line ++
    [.stack (.pushImm (BitVec.ofNat 32 line)), .movImm .edi link.handlerArray,
      .callMem .edi (4 * BitVec.ofNat 32 line) (link.afterCall line)]

/-- `x86_irq_wrapper_n` behind the call. -/
def x86IrqWrapperExit : List Instr :=
  [.addEsp 4] ++ restoreRegisters ++ [.addEsp 4, .iret]

/-- What the wrapper saves of the interrupted code. -/
def interruptedState (m : Machine) (padding : BitVec 16) : CpuState where
  gs := m.seg .gs
  fs := m.seg .fs
  es := m.seg .es
  ds := m.seg .ds
  ss := m.seg .ss
  padding := padding
  eax := m.reg .eax
  ebx := m.reg .ebx
  ecx := m.reg .ecx
  edx := m.reg .edx
  esi := m.reg .esi
  edi := m.reg .edi
  ebp := m.reg .ebp
  errorCode := 0
  eip := m.eip
  cs := (m.seg .cs).setWidth 32
  eflags := m.eflags

/-- The stack pointer is moved below a string of bytes, and memory outside them is unchanged. -/
structure Stacked (m m' : Machine) (bs : List (BitVec 8)) : Prop where
  esp : m'.esp = m.esp - BitVec.ofNat 32 bs.length
  holds : m'.mem.Holds m'.esp bs
  mem : ∀ c, (∀ i < bs.length, c ≠ m'.esp + BitVec.ofNat 32 i) → m'.mem c = m.mem c

theorem Pushed.stacked {m m' : Machine} {bs : List (BitVec 8)} (h : Pushed m m' bs) :
    Stacked m m' bs := ⟨h.esp, h.holds, h.mem⟩

/-- Nothing but the stack pointer and memory matter. -/
theorem Stacked.congr {m n m' n' : Machine} {bs : List (BitVec 8)} (h : Stacked m m' bs)
    (hesp : n.esp = m.esp) (hmem : n.mem = m.mem) (hesp' : n'.esp = m'.esp)
    (hmem' : n'.mem = m'.mem) : Stacked n n' bs := by
  constructor
  · rw [hesp', hesp, h.esp]
  · rw [hesp', hmem']
    exact h.holds
  · rw [hesp', hmem', hmem]
    exact h.mem

theorem Stacked.trans {m m' m'' : Machine} {bs cs : List (BitVec 8)} (h : Stacked m m' bs)
    (h' : Stacked m' m'' cs) (hlen : cs.length + bs.length ≤ 2 ^ 32) :
    Stacked m m'' (cs ++ bs) := by
  have hesp : m'.esp = m''.esp + BitVec.ofNat 32 cs.length := by
    rw [h'.esp, BitVec.sub_add_cancel]
  refine ⟨?_, Memory.holds_append.mpr ⟨h'.holds, ?_⟩, fun c hc => ?_⟩
  · rw [h'.esp, h.esp, List.length_append, Nat.add_comm, BitVec.ofNat_add, BitVec.sub_sub]
  · rw [← hesp]
    refine h.holds.congr fun i hi => h'.mem _ fun j hj => ?_
    rw [hesp]
    exact Memory.add_offset_ne (by omega) (by omega) (by omega)
  · rw [h'.mem c fun i hi => hc i (by simp; omega), h.mem c fun i hi => ?_]
    rw [hesp, BitVec.add_assoc, ← BitVec.ofNat_add]
    exact hc _ (by simp; omega)

theorem Stacked.setReg {m m' : Machine} {bs : List (BitVec 8)} (h : Stacked m m' bs) {r : Reg}
    (hr : r ≠ .esp) (v : BitVec 32) : Stacked m (m'.setReg r v) bs :=
  h.congr rfl rfl (Function.update_of_ne hr.symm ..) rfl

theorem Stacked.push32 {m m' : Machine} {bs : List (BitVec 8)} (h : Stacked m m' bs)
    (v : BitVec 32) (hlen : bs.length < 2 ^ 31) :
    Stacked m (m'.push32 v) (Memory.bytes32 v ++ bs) := by
  refine h.trans (pushed_push32 m' v).stacked ?_
  rw [Memory.bytes32_length]
  omega

theorem Stacked.call {m m' : Machine} {bs : List (BitVec 8)} (h : Stacked m m' bs)
    (target next : BitVec 32) (hlen : bs.length < 2 ^ 31) :
    Stacked m (m'.call target next) (Memory.bytes32 next ++ bs) :=
  (h.push32 next hlen).congr rfl rfl rfl rfl

section Wrapper

variable (arith : BitVec 32 → BitVec 32 → BitVec 32) (link : IrqLinkage) (line : Fin x86IrqNum)

theorem execStub_append (p : Processor) (is js : List StubInstr) :
    execStub arith p (is ++ js) = execStub arith (execStub arith p is) js := by
  induction is generalizing p with
  | nil => rfl
  | cons i is ih => exact ih _

/-- The interrupt frame of the processor, the fake error code and `ebp`. -/
theorem stacked_frame (m : Machine) (gate : IdtEntry) :
    Stacked m ((m.enterGate gate).push32 0 |>.push32 (m.reg .ebp))
      (Memory.bytes32 (m.reg .ebp) ++ (Memory.bytes32 0 ++ (Memory.bytes32 m.eip ++
        (Memory.bytes32 ((m.seg .cs).setWidth 32) ++ Memory.bytes32 m.eflags)))) := by
  let m1 := ((m.push32 m.eflags).push32 ((m.seg .cs).setWidth 32)).push32 m.eip
  have h1 : Stacked m m1 _ := (((pushed_push32 m m.eflags).trans
    (pushed_push32 _ ((m.seg .cs).setWidth 32)) (by simp)).trans (pushed_push32 _ m.eip)
    (by simp)).stacked
  have hgate : Stacked m (m.enterGate gate) _ := h1.congr rfl rfl rfl rfl
  exact (hgate.trans (pushed_push32 _ 0).stacked (by simp)).trans
    (pushed_push32 _ (m.reg .ebp)).stacked (by simp)

/-- `SAVE_REGISTERS` pushes the general registers and the segment registers. -/
theorem stacked_saveRegisters (m : Machine) : ∃ padding : BitVec 16,
    Pushed m (execBlock arith m saveRegisters)
      (Memory.bytes16 (m.seg .gs) ++ (Memory.bytes16 (m.seg .fs) ++ (Memory.bytes16 (m.seg .es) ++
      (Memory.bytes16 (m.seg .ds) ++ (Memory.bytes16 (m.seg .ss) ++ (Memory.bytes16 padding ++
      (Memory.bytes32 (m.reg .eax) ++ (Memory.bytes32 (m.reg .ebx) ++
      (Memory.bytes32 (m.reg .ecx) ++ (Memory.bytes32 (m.reg .edx) ++
      (Memory.bytes32 (m.reg .esi) ++ Memory.bytes32 (m.reg .edi)))))))))))) := by
  let m1 := ((m.push32 (m.reg .edi)).push32 (m.reg .esi)).push32 (m.reg .edx)
  let m2 := ((m1.push32 (m.reg .ecx)).push32 (m.reg .ebx)).push32 (m.reg .eax)
  let m3 := m2.addEsp arith (-2)
  have h1 := ((pushed_push32 m (m.reg .edi)).trans (pushed_push32 _ (m.reg .esi)) (by simp)).trans
    (pushed_push32 _ (m.reg .edx)) (by simp)
  have h2 := ((h1.trans (pushed_push32 _ (m.reg .ecx)) (by simp)).trans
    (pushed_push32 _ (m.reg .ebx)) (by simp)).trans (pushed_push32 _ (m.reg .eax)) (by simp)
  have h3 := h2.trans (pushed_subEsp arith m2) (by simp)
  have h4 := ((((h3.trans (pushed_push16 _ (m.seg .ss)) (by simp)).trans
    (pushed_push16 _ (m.seg .ds)) (by simp)).trans (pushed_push16 _ (m.seg .es))
    (by simp)).trans (pushed_push16 _ (m.seg .fs)) (by simp)).trans
    (pushed_push16 _ (m.seg .gs)) (by simp)
  exact ⟨m2.mem.load16 (m2.esp + -2), h4⟩

theorem execStub_stack (p : Processor) (is : List Instr) :
    execStub arith p (is.map .stack) = { p with machine := execBlock arith p.machine is } := by
  induction is generalizing p with
  | nil => rfl
  | cons i is ih => exact ih _

/-- The writes of the EOI. -/
def eoiWrites : List (BitVec 16 × BitVec 8) :=
  if line.val < 8 then [(0x20, 0x20)] else [(0xa0, 0x20), (0x20, 0x20)]

theorem execStub_sendEoi (p : Processor) :
    execStub arith p (sendEoi line) =
      { machine := p.machine.setReg .eax ((p.machine.reg .eax).extractLsb' 8 24 ++ 0x20#8)
        ports := p.ports ++ eoiWrites line } := by
  have hal : ((p.machine.reg .eax).extractLsb' 8 24 ++ 0x20#8).setWidth 8 = 0x20#8 := by
    apply BitVec.eq_of_getLsbD_eq
    intro i hi
    rw [BitVec.getLsbD_setWidth, BitVec.getLsbD_append, if_pos hi]
    simp [hi]
  unfold sendEoi eoiWrites
  split_ifs
  · simp [execStub, StubInstr.exec, Machine.setReg, hal]
  · simp [execStub, StubInstr.exec, Machine.setReg, hal]

/-- The state of the processor when the wrapper has saved the interrupted code. -/
theorem stacked_saved (p : Processor) (gate : IdtEntry) : ∃ padding,
    let p' := execStub arith { p with machine := p.machine.enterGate gate }
      ([.stack (.pushImm 0), .stack (.push .ebp), .mov .ebp .esp] ++ saveRegisters.map .stack)
    Stacked p.machine p'.machine (interruptedState p.machine padding).bytes ∧
      p'.machine.seg .cs = gate.segmentSelector ∧
      (∀ g, g ≠ .cs → p'.machine.seg g = p.machine.seg g) ∧
      (∃ result, p'.machine.eflags = arith (Machine.gateFlags p.machine.eflags) result) ∧
      p'.ports = p.ports := by
  obtain ⟨m, ports⟩ := p
  let m1 := ((m.enterGate gate).push32 0).push32 (m.reg .ebp)
  let m2 := m1.setReg .ebp m1.esp
  have h1 : Stacked m m2 _ := (stacked_frame m gate).congr rfl rfl rfl rfl
  obtain ⟨padding, h2⟩ := stacked_saveRegisters arith m2
  have hexec : execStub arith ⟨m.enterGate gate, ports⟩
      ([.stack (.pushImm 0), .stack (.push .ebp), .mov .ebp .esp] ++ saveRegisters.map .stack) =
      ⟨execBlock arith m2 saveRegisters, ports⟩ := by
    rw [execStub_append, execStub_stack]
    rfl
  have hseg : (execBlock arith m2 saveRegisters).seg = m2.seg := h2.seg
  refine ⟨padding, ?_⟩
  rw [hexec]
  refine ⟨?_, ?_, ?_, ⟨_, rfl⟩, rfl⟩
  · have h := h1.trans h2.stacked (by simp)
    simp only [List.append_assoc] at h
    exact h
  · rw [hseg]
    exact Function.update_self Seg.cs gate.segmentSelector m.seg
  · intro g hg
    rw [hseg]
    exact Function.update_of_ne hg ..

/-- Addition and subtraction change the arithmetic flags only. -/
def KeepsIf : Prop := ∀ eflags result, (arith eflags result).getLsbD 9 = eflags.getLsbD 9

/-- The address of a line's handler in memory. -/
def IrqLinkage.slot : BitVec 32 := link.handlerArray + 4 * BitVec.ofNat 32 line

/-- What the C handler finds: its argument on the stack, above it the context of the code that the
interrupt has broken off, interrupts disabled, and the EOI sent. It is the one that the table of
handlers names. -/
structure HandlerCalled (p p' : Processor) : Prop where
  frame : ∃ padding, Stacked p.machine p'.machine (Memory.bytes32 (link.afterCall line) ++
    (Memory.bytes32 (BitVec.ofNat 32 line) ++ (interruptedState p.machine padding).bytes))
  target : p'.machine.eip = p.machine.mem.load32 (link.slot line)
  segments : ∀ g, g ≠ .cs → p'.machine.seg g = p.machine.seg g
  disabled : p'.machine.interruptible = false
  ports : p'.ports = p.ports ++ eoiWrites line

theorem gateFlags_if (eflags : BitVec 32) : (Machine.gateFlags eflags).getLsbD 9 = false := by
  rw [Machine.gateFlags, BitVec.getLsbD_and, BitVec.getLsbD_not]
  simp

/-- The call pushes the argument and the return address. -/
theorem execStub_callHandler (p : Processor) (argument array disp next : BitVec 32) :
    let m := (p.machine.push32 argument).setReg .edi array
    execStub arith p [.stack (.pushImm argument), .movImm .edi array, .callMem .edi disp next] =
      { p with machine := m.call (m.mem.load32 (array + disp)) next } := rfl

/-- The table of handlers lies outside the bytes that the wrapper has pushed. -/
theorem wrapperEntry_called (p : Processor) (gate : IdtEntry) (harith : KeepsIf arith)
    (hslot : ∀ j < 4, ∀ i < 60, link.slot line + BitVec.ofNat 32 j ≠
      p.machine.esp - 60 + BitVec.ofNat 32 i) :
    HandlerCalled link line p (execStub arith { p with machine := p.machine.enterGate gate }
      (x86IrqWrapperEntry link line)) := by
  obtain ⟨padding, hsaved, hcs, hseg, ⟨result, hflags⟩, hports⟩ := stacked_saved arith p gate
  simp only [x86IrqWrapperEntry]
  rw [execStub_append, execStub_append, execStub_sendEoi, execStub_callHandler]
  generalize execStub arith { p with machine := p.machine.enterGate gate }
    ([.stack (.pushImm 0), .stack (.push .ebp), .mov .ebp .esp] ++ saveRegisters.map .stack) = q
    at hsaved hcs hseg hflags hports
  let m1 := q.machine.setReg .eax ((q.machine.reg .eax).extractLsb' 8 24 ++ 0x20#8)
  let m2 := (m1.push32 (BitVec.ofNat 32 line)).setReg .edi link.handlerArray
  have h1 : Stacked p.machine m1 _ := hsaved.setReg (by decide) _
  have h2 : Stacked p.machine m2 _ :=
    (h1.push32 (BitVec.ofNat 32 line) (by simp)).setReg (by decide) _
  have h3 : Stacked p.machine (m2.call (m2.mem.load32 (link.slot line)) (link.afterCall line)) _ :=
    h2.call _ _ (by simp)
  have hload : m2.mem.load32 (link.slot line) = p.machine.mem.load32 (link.slot line) := by
    apply StackLayout.load32_congr
    rintro c ⟨j, hj, rfl⟩
    apply h2.mem
    intro i hi
    rw [h2.esp]
    exact hslot j hj i (Nat.lt_of_lt_of_le hi (by simp))
  constructor
  case frame => exact ⟨padding, h3⟩
  case target => exact hload
  case segments => exact hseg
  case disabled =>
    have hif : q.machine.eflags.getLsbD 9 = false := by
      rw [hflags, harith, gateFlags_if]
    rw [Machine.interruptible, Machine.call_eflags, Machine.setReg_eflags, Machine.push32_eflags,
      Machine.setReg_eflags]
    exact hif
  case ports => rw [hports]

/-- The registers of one machine are those of the other. -/
structure SameProcessor (m m' : Machine) : Prop where
  reg : ∀ r, m'.reg r = m.reg r
  seg : ∀ g, m'.seg g = m.seg g
  eflags : m'.eflags = m.eflags
  eip : m'.eip = m.eip

/-- The handler has returned, and has left alone what the wrapper had saved. -/
structure HandlerReturned (m m' : Machine) : Prop where
  esp : m'.esp = m.esp - 60
  frame : ∃ padding, m'.mem.Holds (m.esp - 56) (interruptedState m padding).bytes

theorem wrapperExit_eq : x86IrqWrapperExit = .addEsp 4 :: restoreContext := rfl

/-- The interrupted code goes on as if nothing had happened. -/
theorem wrapperExit_resumes {m m' : Machine} (h : HandlerReturned m m') :
    SameProcessor m (execBlock arith m' x86IrqWrapperExit) ∧
      (execBlock arith m' x86IrqWrapperExit).mem = m'.mem := by
  obtain ⟨hesp, padding, hframe⟩ := h
  let m1 := m'.addEsp arith 4
  have hesp1 : m1.esp = m.esp - 56 := by
    rw [Machine.addEsp_esp, hesp]
    bv_omega
  have hholds : m1.mem.Holds m1.esp ((interruptedState m padding).bytes ++ []) := by
    rw [List.append_nil, hesp1]
    exact hframe
  obtain ⟨hres, hesp2, hmem, -⟩ := restoreContext_restored arith m1 _ [] hholds
  rw [wrapperExit_eq, execBlock, Instr.exec]
  refine ⟨⟨?_, ?_, hres.eflags, hres.eip⟩, hmem⟩
  · intro r
    cases r with
    | esp =>
      apply hesp2.trans
      rw [hesp1]
      exact BitVec.sub_add_cancel ..
    | eax => exact hres.eax
    | ebx => exact hres.ebx
    | ecx => exact hres.ecx
    | edx => exact hres.edx
    | esi => exact hres.esi
    | edi => exact hres.edi
    | ebp => exact hres.ebp
  · intro g
    cases g with
    | cs =>
      apply hres.cs.trans
      exact BitVec.setWidth_setWidth_of_le _ (by decide)
    | ds => exact hres.ds
    | es => exact hres.es
    | fs => exact hres.fs
    | gs => exact hres.gs
    | ss => exact hres.ss

end Wrapper

end Einherjar.Arch
