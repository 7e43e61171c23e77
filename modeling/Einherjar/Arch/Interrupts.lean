import Mathlib.Data.Nat.Notation
import Mathlib.Logic.Function.Basic

/-! Interrupt requests: the handlers of `irq.c`, the interrupt descriptor table, and the masks of
the two interrupt controllers. -/
namespace Einherjar.Arch

/-! The interrupt controllers. -/

/-- The mask registers: the last byte written to the data port of each controller. -/
structure Pic where
  masterMask : BitVec 8
  slaveMask : BitVec 8

namespace Pic

def masterCommand : BitVec 16 := 0x20
def slaveCommand : BitVec 16 := 0xa0

/-- `outb(port, value)`; a write to another port does not change a mask. -/
def outb (pic : Pic) (port : BitVec 16) (value : BitVec 8) : Pic :=
  if port = masterCommand + 1 then { pic with masterMask := value }
  else if port = slaveCommand + 1 then { pic with slaveMask := value }
  else pic

/-- Whether the mask bit of a line is set in the controller that it belongs to. -/
def Masked (pic : Pic) (line : Fin 16) : Prop :=
  if line.val < 8 then pic.masterMask.getLsbD line.val = true
  else pic.slaveMask.getLsbD (line.val - 8) = true

instance (pic : Pic) (line : Fin 16) : Decidable (pic.Masked line) := by
  unfold Masked
  infer_instance

end Pic

def x86PicSetup (pic : Pic) : Pic :=
  -- ICW1 to ICW4 of both controllers, then OCW1: all lines masked but the cascade
  let pic := (pic.outb Pic.masterCommand 0x11).outb Pic.slaveCommand 0x11
  let pic := (pic.outb (Pic.masterCommand + 1) 0x20).outb (Pic.slaveCommand + 1) 0x28
  let pic := (pic.outb (Pic.masterCommand + 1) 0x4).outb (Pic.slaveCommand + 1) 0x2
  let pic := (pic.outb (Pic.masterCommand + 1) 0x1).outb (Pic.slaveCommand + 1) 0x1
  (pic.outb (Pic.masterCommand + 1) 0xFB).outb (Pic.slaveCommand + 1) 0xFF

/-- `inb` of a data port reads the mask. -/
def x86PicEnableIrqLine (pic : Pic) (paramIrqNumber : BitVec 32) : Pic :=
  if paramIrqNumber.toNat < 8 then
    pic.outb (Pic.masterCommand + 1) (pic.masterMask &&& ~~~(1#8 <<< paramIrqNumber.toNat))
  else
    pic.outb (Pic.slaveCommand + 1) (pic.slaveMask &&& ~~~(1#8 <<< (paramIrqNumber.toNat - 8)))

/-- The arguments of `outb` are the other way round here: the mask is the port, and the number
of the port is the value. -/
def x86PicDisableIrqLine (pic : Pic) (paramIrqNumber : BitVec 32) : Pic :=
  if paramIrqNumber.toNat < 8 then
    pic.outb ((pic.masterMask ||| 1#8 <<< paramIrqNumber.toNat).setWidth 16)
      ((Pic.masterCommand + 1).setWidth 8)
  else
    pic.outb ((pic.slaveMask ||| 1#8 <<< (paramIrqNumber.toNat - 8)).setWidth 16)
      ((Pic.slaveCommand + 1).setWidth 8)

/-! The interrupt descriptor table. -/

/-- `struct x86_idt_entry` -/
structure IdtEntry where
  offsetLow : BitVec 16
  segmentSelector : BitVec 16
  unused : BitVec 8
  gateType : BitVec 4
  storageSegment : BitVec 1
  descriptorPrivilidgeLevel : BitVec 2
  present : BitVec 1
  offsetHigh : BitVec 16

abbrev interruptionsMaxLimit : ℕ := 256

def kernelOk : BitVec 32 := 0
def kernelInvalidValue : BitVec 32 := 1

/-- `global_idt` -/
abbrev Idt := Fin interruptionsMaxLimit → IdtEntry

/-- What `x86_idt_set_handler` does to an entry. -/
def IdtEntry.setHandler (idtEntry : IdtEntry) (handlerAddress : BitVec 32) : IdtEntry :=
  if handlerAddress ≠ 0 then
    { idtEntry with
      offsetLow := (handlerAddress &&& 0xffff).setWidth 16
      offsetHigh := ((handlerAddress >>> 16) &&& 0xffff).setWidth 16
      descriptorPrivilidgeLevel := 0
      present := 1 }
  else
    { idtEntry with
      offsetLow := 0
      offsetHigh := 0
      descriptorPrivilidgeLevel := 0
      present := 0 }

def x86IdtSetHandler (globalIdt : Idt) (index handlerAddress : BitVec 32) : BitVec 32 × Idt :=
  if h : index.toNat < interruptionsMaxLimit then
    (kernelOk, Function.update globalIdt ⟨index.toNat, h⟩
      ((globalIdt ⟨index.toNat, h⟩).setHandler handlerAddress))
  else (-kernelInvalidValue, globalIdt)

/-- `x86_idt_setup`: the iterations of its loop write one entry each. -/
def x86IdtSetup (globalIdt : Idt) : Idt := fun i =>
  { globalIdt i with
    segmentSelector := 0x08
    unused := 0
    gateType := 0xE
    storageSegment := 0 }.setHandler 0

/-! Interrupt requests. -/

abbrev x86IrqNum : ℕ := 16
def x86IrqBase : BitVec 32 := 32

/-- The addresses in `x86_irq_wrapper_array`: code, which does not lie at address 0. -/
structure IrqWrappers where
  address : Fin x86IrqNum → BitVec 32
  address_ne : ∀ line, address line ≠ 0

/-- The data of the interrupt handling. A handler that is 0 is NULL. -/
structure Interrupts where
  x86IrqHandlerArray : Fin x86IrqNum → BitVec 32
  globalIdt : Idt
  pic : Pic

/-- A call of `x86_irq_set_routine`. -/
structure IrqCall where
  irqLevel : BitVec 32
  routine : BitVec 32

/-- `x86_idt_setup` and `x86_irq_setup`. The handlers are NULL before. -/
def interruptsSetup (globalIdt : Idt) (pic : Pic) : Interrupts where
  x86IrqHandlerArray _ := 0
  globalIdt := x86IdtSetup globalIdt
  pic := x86PicSetup pic

def x86IrqSetRoutine (wrappers : IrqWrappers) (s : Interrupts) (call : IrqCall) :
    BitVec 32 × Interrupts :=
  if h : call.irqLevel.toNat < x86IrqNum then
    let line : Fin x86IrqNum := ⟨call.irqLevel.toNat, h⟩
    let s := { s with
      x86IrqHandlerArray := Function.update s.x86IrqHandlerArray line call.routine }
    let set := x86IdtSetHandler s.globalIdt (x86IrqBase + call.irqLevel)
      (if call.routine ≠ 0 then wrappers.address line else 0)
    let ret : BitVec 16 := set.1.setWidth 16
    let s := { s with globalIdt := set.2 }
    let s := if call.routine ≠ 0 ∧ ret.setWidth 32 ≠ kernelOk then
        { s with x86IrqHandlerArray := Function.update s.x86IrqHandlerArray line 0 }
      else s
    let pic := if s.x86IrqHandlerArray line ≠ 0 then x86PicEnableIrqLine s.pic call.irqLevel
      else x86PicDisableIrqLine s.pic call.irqLevel
    (ret.setWidth 32, { s with pic := pic })
  else (-kernelInvalidValue, s)

end Einherjar.Arch
