import Einherjar.Arch.IrqStubs
import Einherjar.Io.Printf

/-! Exceptions: the stubs of `isr-stubs.asm`, the `struct regs` that they build, and
`x86_isr_handler`. -/
namespace Einherjar.Arch
open Einherjar.Io Einherjar.Lib

abbrev exceptionsNumber : ℕ := 32

/-- The fields of `struct regs`. -/
inductive RegsField where
  | gs | fs | es | ds
  | edi | esi | ebp | esp | ebx | edx | ecx | eax
  | interruptNumber | errorCode
  | eip | cs | eflags | userEsp | ss
  deriving DecidableEq

namespace RegsField

/-- The fields in the order of their declaration, each an `unsigned int`. -/
def declared : List RegsField :=
  [.gs, .fs, .es, .ds, .edi, .esi, .ebp, .esp, .ebx, .edx, .ecx, .eax, .interruptNumber,
    .errorCode, .eip, .cs, .eflags, .userEsp, .ss]

def offset (f : RegsField) : ℕ := 4 * declared.idxOf f

/-- The fields that an exception of the kernel fills: it pushes no stack pointer. -/
def pushed : List RegsField := declared.take 17

end RegsField

/-- The processor raises an exception. For some vectors it pushes an error code. -/
def Machine.raise (m : Machine) (gate : IdtEntry) : Option (BitVec 32) → Machine
  | none => m.enterGate gate
  | some code => (m.enterGate gate).push32 code

/-- The vectors with an `ISR_ERROR_CODE` stub. -/
def isrErrorCodes : List (Fin exceptionsNumber) := [8, 10, 11, 12, 13, 14]

/-- `isr_common_stub` up to its call of the handler. -/
def isrCommonStub (isrHandler next : BitVec 32) : List StubInstr :=
  [.pusha, .stack (.pushSeg .ds), .stack (.pushSeg .es), .stack (.pushSeg .fs),
    .stack (.pushSeg .gs),
    .movAx 0x10, .movSeg .ds, .movSeg .es, .movSeg .fs, .movSeg .gs,
    .mov .eax .esp, .stack (.push .eax), .movImm .eax isrHandler, .callReg .eax next]

/-- The stub of a vector. -/
def isr (isrHandler next : BitVec 32) (vector : Fin exceptionsNumber) : List StubInstr :=
  [.cli] ++ (if vector ∈ isrErrorCodes then [] else [.stack (.pushImm 0)]) ++
    [.stack (.pushImm (BitVec.ofNat 32 vector))] ++ isrCommonStub isrHandler next

/-- `exception_messages` -/
def exceptionMessages (vector : Fin exceptionsNumber) : String :=
  ["Division By Zero", "Debug", "Non Maskable Interrupt", "Breakpoint", "Into Detected Overflow",
    "Out of Bounds", "Invalid Opcode", "No Coprocessor", "Double Fault",
    "Coprocessor Segment Overrun", "Bad TSS", "Segment Not Present", "Stack Fault",
    "General Protection Fault", "Page Fault", "Unknown Interrupt", "Coprocessor Fault",
    "Alignment Check", "Machine Check"].getD vector "Reserved"

def exceptionFormat : String := ">> Exception: %s. System Halted! <<\n"

/-- The addresses of the constants that the handler uses. -/
structure IsrConstants where
  /-- The format of its `printf`. -/
  format : BitVec 32
  /-- `exception_messages` -/
  messages : BitVec 32
  message : Fin exceptionsNumber → BitVec 32
  message_ne : ∀ vector, message vector ≠ 0
  nullText : BitVec 32

/-- `x86_isr_handler(r)`: the text that it prints before it loops for ever, or `none` when it
returns. The argument of `printf` is passed at `arg`. -/
def x86IsrHandler (constants : IsrConstants) (mem : Memory 32) (r arg : BitVec 32)
    (buffer : ℕ → BitVec 8) (fuel : ℕ) : Option (Traced PrintfEvent Unit) :=
  let interruptNumber := mem.load32 (r + BitVec.ofNat 32 (RegsField.offset .interruptNumber))
  if interruptNumber.toNat < exceptionsNumber then
    let mem := mem.store32 arg (mem.load32 (constants.messages + 4 * interruptNumber))
    some (printf mem constants.nullText fuel constants.format arg buffer)
  else none

section Stub

variable (arith : BitVec 32 → BitVec 32 → BitVec 32)

theorem pushed_pusha (m : Machine) :
    Pushed m m.pusha ([m.reg .edi, m.reg .esi, m.reg .ebp, m.esp, m.reg .ebx, m.reg .edx,
      m.reg .ecx, m.reg .eax].flatMap Memory.bytes32) := by
  let m1 := (((m.push32 (m.reg .eax)).push32 (m.reg .ecx)).push32 (m.reg .edx)).push32 (m.reg .ebx)
  have h1 := (((pushed_push32 m (m.reg .eax)).trans (pushed_push32 _ (m.reg .ecx))
    (by simp)).trans (pushed_push32 _ (m.reg .edx)) (by simp)).trans
    (pushed_push32 _ (m.reg .ebx)) (by simp)
  have h2 := (((h1.trans (pushed_push32 m1 m.esp) (by simp)).trans
    (pushed_push32 _ (m.reg .ebp)) (by simp)).trans (pushed_push32 _ (m.reg .esi))
    (by simp)).trans (pushed_push32 _ (m.reg .edi)) (by simp)
  exact h2

/-- The registers as the stub pushes them. -/
def savedRegisters (m : Machine) : List (BitVec 32) :=
  [(m.seg .gs).setWidth 32, (m.seg .fs).setWidth 32, (m.seg .es).setWidth 32,
    (m.seg .ds).setWidth 32, m.reg .edi, m.reg .esi, m.reg .ebp, m.esp, m.reg .ebx, m.reg .edx,
    m.reg .ecx, m.reg .eax]

theorem stub_pushes (p : Processor) :
    let q := execStub arith p [.pusha, .stack (.pushSeg .ds), .stack (.pushSeg .es),
      .stack (.pushSeg .fs), .stack (.pushSeg .gs)]
    Pushed p.machine q.machine ((savedRegisters p.machine).flatMap Memory.bytes32) ∧
      q.machine.eflags = p.machine.eflags := by
  have h1 := pushed_pusha p.machine
  have h2 := (((h1.trans (pushed_push32 _ ((p.machine.seg .ds).setWidth 32)) (by simp)).trans
    (pushed_push32 _ ((p.machine.seg .es).setWidth 32)) (by simp)).trans
    (pushed_push32 _ ((p.machine.seg .fs).setWidth 32)) (by simp)).trans
    (pushed_push32 _ ((p.machine.seg .gs).setWidth 32)) (by simp)
  exact ⟨h2, rfl⟩

/-- What lies above the registers: the vector, the fake error code, that of the processor, and
the interrupt frame. -/
def frameAbove (m : Machine) (vector : Fin exceptionsNumber) (code : Option (BitVec 32)) :
    List (BitVec 32) :=
  BitVec.ofNat 32 vector :: ((if vector ∈ isrErrorCodes then [] else [0]) ++
    (code.toList ++ [m.eip, (m.seg .cs).setWidth 32, m.eflags]))

/-- The registers of the interrupted code are unchanged but for the stack pointer, the code segment
and the flags. -/
structure Raised (m m' : Machine) (ws : List (BitVec 32)) : Prop where
  stacked : Stacked m m' (ws.flatMap Memory.bytes32)
  reg : ∀ r, r ≠ .esp → m'.reg r = m.reg r
  seg : ∀ g, g ≠ .cs → m'.seg g = m.seg g

theorem Raised.push32 {m m' : Machine} {ws : List (BitVec 32)} (h : Raised m m' ws)
    (v : BitVec 32) (hlen : ws.length < 2 ^ 28) : Raised m (m'.push32 v) (v :: ws) := by
  have hbytes := Memory.words_length ws
  constructor
  case stacked => exact h.stacked.push32 v (by omega)
  case reg => exact fun r hr => (Function.update_of_ne hr ..).trans (h.reg r hr)
  case seg => exact h.seg

theorem raised_enterGate (m : Machine) (gate : IdtEntry) :
    Raised m (m.enterGate gate) [m.eip, (m.seg .cs).setWidth 32, m.eflags] := by
  have h := (((pushed_push32 m m.eflags).trans (pushed_push32 _ ((m.seg .cs).setWidth 32))
    (by simp)).trans (pushed_push32 _ m.eip) (by simp))
  constructor
  case stacked => exact h.stacked.congr rfl rfl rfl rfl
  case reg => exact h.reg
  case seg => exact fun g hg => Function.update_of_ne hg ..

theorem raised_raise (m : Machine) (gate : IdtEntry) (code : Option (BitVec 32)) :
    Raised m (m.raise gate code)
      (code.toList ++ [m.eip, (m.seg .cs).setWidth 32, m.eflags]) := by
  cases code with
  | none => exact raised_enterGate m gate
  | some code => exact (raised_enterGate m gate).push32 code (show 3 < 2 ^ 28 by decide)

/-- The first part of the stub. -/
def isrEntry (vector : Fin exceptionsNumber) : List StubInstr :=
  [.cli] ++ (if vector ∈ isrErrorCodes then [] else [.stack (.pushImm 0)]) ++
    [.stack (.pushImm (BitVec.ofNat 32 vector))]

theorem raised_isrEntry (p : Processor) (gate : IdtEntry) (code : Option (BitVec 32))
    (vector : Fin exceptionsNumber) :
    Raised p.machine (execStub arith { p with machine := p.machine.raise gate code }
      (isrEntry vector)).machine (frameAbove p.machine vector code) := by
  obtain ⟨m, ports⟩ := p
  have hraise := raised_raise m gate code
  have hlen : (code.toList ++ [m.eip, (m.seg .cs).setWidth 32, m.eflags]).length < 2 ^ 27 := by
    cases code <;> simp
  generalize m.raise gate code = m1 at hraise
  let m2 : Machine := { m1 with eflags := m1.eflags &&& ~~~0x200#32 }
  have hcli : Raised m m2 _ := ⟨hraise.stacked.congr rfl rfl rfl rfl, hraise.reg, hraise.seg⟩
  unfold isrEntry frameAbove
  by_cases hv : vector ∈ isrErrorCodes
  · rw [if_pos hv, if_pos hv]
    exact hcli.push32 _ (by omega)
  · rw [if_neg hv, if_neg hv]
    exact (hcli.push32 0 (by omega)).push32 _ (by simp only [List.length_cons]; omega)

/-- `cli` turns the interrupts off, whatever the gate does. -/
theorem isrEntry_disables (p : Processor) (vector : Fin exceptionsNumber) :
    (execStub arith p (isrEntry vector)).machine.interruptible = false := by
  obtain ⟨m, ports⟩ := p
  let m1 : Machine := { m with eflags := m.eflags &&& ~~~0x200#32 }
  have hcli : m1.interruptible = false := by
    simp [m1, Machine.interruptible]
  unfold isrEntry
  by_cases hv : vector ∈ isrErrorCodes
  · rw [if_pos hv]
    change (m1.push32 _).interruptible = false
    rwa [Machine.interruptible, Machine.push32_eflags]
  · rw [if_neg hv]
    change ((m1.push32 0).push32 _).interruptible = false
    rwa [Machine.interruptible, Machine.push32_eflags, Machine.push32_eflags]

/-- The processor in the handler, with the address of the registers as the argument. -/
def inIsrHandler (m : Machine) (isrHandler next : BitVec 32) : Machine :=
  ((m.push32 m.esp).setReg .eax isrHandler).call isrHandler next

/-- The last part of the stub. -/
theorem execStub_callIsr (p : Processor) (isrHandler next : BitVec 32) :
    ∃ m : Machine, m.esp = p.machine.esp ∧ m.mem = p.machine.mem ∧
      m.eflags = p.machine.eflags ∧
      execStub arith p [.movAx 0x10, .movSeg .ds, .movSeg .es, .movSeg .fs, .movSeg .gs,
          .mov .eax .esp, .stack (.push .eax), .movImm .eax isrHandler, .callReg .eax next] =
        { p with machine := inIsrHandler m isrHandler next } := by
  let m1 := p.machine.setReg .eax ((p.machine.reg .eax).extractLsb' 16 16 ++ 0x10#16)
  let selector := (m1.reg .eax).setWidth 16
  let m2 := (((m1.setSeg .ds selector).setSeg .es selector).setSeg .fs selector).setSeg .gs selector
  exact ⟨m2.setReg .eax m2.esp, rfl, rfl, rfl, rfl⟩

/-- The words of `struct regs`, from the lowest one up. -/
def regsWords (m : Machine) (vector : Fin exceptionsNumber) (code : Option (BitVec 32)) :
    List (BitVec 32) :=
  [(m.seg .gs).setWidth 32, (m.seg .fs).setWidth 32, (m.seg .es).setWidth 32,
    (m.seg .ds).setWidth 32, m.reg .edi, m.reg .esi, m.reg .ebp,
    m.esp - BitVec.ofNat 32 (4 * (frameAbove m vector code).length), m.reg .ebx, m.reg .edx,
    m.reg .ecx, m.reg .eax] ++ frameAbove m vector code

theorem regsWords_length (m : Machine) (vector : Fin exceptionsNumber)
    (code : Option (BitVec 32)) : 16 ≤ (regsWords m vector code).length ∧
      (regsWords m vector code).length ≤ 18 := by
  unfold regsWords frameAbove
  cases code <;> split_ifs <;> simp

/-- The registers pushed in the common part and what the stub pushed before are the structure. -/
theorem Raised.savedRegisters_append {m m' : Machine} {vector : Fin exceptionsNumber}
    {code : Option (BitVec 32)} (h : Raised m m' (frameAbove m vector code)) :
    savedRegisters m' ++ frameAbove m vector code = regsWords m vector code := by
  have hesp : m'.esp = m.esp - BitVec.ofNat 32 (4 * (frameAbove m vector code).length) := by
    rw [h.stacked.esp, Memory.words_length]
  unfold savedRegisters regsWords
  rw [h.seg .gs (by decide), h.seg .fs (by decide), h.seg .es (by decide),
    h.seg .ds (by decide), h.reg .edi (by decide), h.reg .esi (by decide), h.reg .ebp (by decide),
    h.reg .ebx (by decide), h.reg .edx (by decide), h.reg .ecx (by decide),
    h.reg .eax (by decide), hesp]

/-- The call leaves the return address and the argument below the registers, which the argument
leads to. -/
theorem Stacked.callIsr {m m' : Machine} {bs : List (BitVec 8)} (h : Stacked m m' bs)
    (hlen : bs.length < 2 ^ 30) (isrHandler next : BitVec 32) :
    (inIsrHandler m' isrHandler next).esp + 8 = m'.esp ∧
      Stacked m (inIsrHandler m' isrHandler next)
        (Memory.bytes32 next ++ (Memory.bytes32 m'.esp ++ bs)) := by
  have hcalled : Stacked m (inIsrHandler m' isrHandler next)
      (Memory.bytes32 next ++ (Memory.bytes32 m'.esp ++ bs)) := by
    refine ((h.push32 m'.esp (by omega)).setReg (by decide) isrHandler).call isrHandler next ?_
    rw [List.length_append, Memory.bytes32_length]
    omega
  refine ⟨?_, hcalled⟩
  rw [hcalled.esp, h.esp, List.length_append, List.length_append, Memory.bytes32_length,
    Memory.bytes32_length]
  bv_omega

/-- The handler is called with the address of the registers, which lie above its argument. -/
theorem isr_calls (isrHandler next : BitVec 32) (p : Processor) (gate : IdtEntry)
    (code : Option (BitVec 32)) (vector : Fin exceptionsNumber) :
    let q := execStub arith { p with machine := p.machine.raise gate code }
      (isr isrHandler next vector)
    q.machine.eip = isrHandler ∧ q.machine.interruptible = false ∧
      Stacked p.machine q.machine
        ((next :: (q.machine.esp + 8) :: regsWords p.machine vector code).flatMap
          Memory.bytes32) := by
  intro q
  have hentry := raised_isrEntry arith p gate code vector
  let p1 := execStub arith { p with machine := p.machine.raise gate code } (isrEntry vector)
  obtain ⟨hpush, hpushed⟩ := stub_pushes arith p1
  let p2 := execStub arith p1 [.pusha, .stack (.pushSeg .ds), .stack (.pushSeg .es),
    .stack (.pushSeg .fs), .stack (.pushSeg .gs)]
  obtain ⟨m, hesp, hmem, heflags, hcall⟩ := execStub_callIsr arith p2 isrHandler next
  have hq : q = { p2 with machine := inIsrHandler m isrHandler next } := by
    rw [← hcall]
    change execStub arith _ (isrEntry vector ++ ([_, _, _, _, _] ++ _)) = _
    rw [execStub_append, execStub_append]
  have hregs := hentry.savedRegisters_append
  have hlen := regsWords_length p.machine vector code
  have hbytes := Memory.words_length (regsWords p.machine vector code)
  have hframe : Stacked p.machine p2.machine
      ((regsWords p.machine vector code).flatMap Memory.bytes32) := by
    rw [← hregs, List.flatMap_append]
    refine hentry.stacked.trans hpush.stacked ?_
    rw [← List.length_append, ← List.flatMap_append, hregs, hbytes]
    omega
  have hm : Stacked p.machine m _ := hframe.congr rfl rfl hesp hmem
  obtain ⟨harg, hcalled⟩ := hm.callIsr (by omega) isrHandler next
  have hdisabled : (inIsrHandler m isrHandler next).interruptible = false := by
    rw [Machine.interruptible, inIsrHandler, Machine.call_eflags, Machine.setReg_eflags,
      Machine.push32_eflags, heflags, hpushed]
    exact isrEntry_disables arith _ vector
  rw [hq]
  refine ⟨rfl, hdisabled, ?_⟩
  rw [List.flatMap_cons, List.flatMap_cons]
  change Stacked p.machine (inIsrHandler m isrHandler next) (_ ++
    (Memory.bytes32 ((inIsrHandler m isrHandler next).esp + 8) ++ _))
  rw [harg]
  exact hcalled

end Stub

/-- The value that a field should have: that of the interrupted code, or of the exception. -/
def RegsField.value (m : Machine) (vector : Fin exceptionsNumber) (code : Option (BitVec 32)) :
    RegsField → BitVec 32
  | .gs => (m.seg .gs).setWidth 32
  | .fs => (m.seg .fs).setWidth 32
  | .es => (m.seg .es).setWidth 32
  | .ds => (m.seg .ds).setWidth 32
  | .edi => m.reg .edi
  | .esi => m.reg .esi
  | .ebp => m.reg .ebp
  -- below the interrupt frame, the error code and the vector
  | .esp => m.esp - 20
  | .ebx => m.reg .ebx
  | .edx => m.reg .edx
  | .ecx => m.reg .ecx
  | .eax => m.reg .eax
  | .interruptNumber => BitVec.ofNat 32 vector
  | .errorCode => code.getD 0
  | .eip => m.eip
  | .cs => (m.seg .cs).setWidth 32
  | .eflags => m.eflags
  -- not pushed at the privilege level of the kernel
  | .userEsp | .ss => 0

/-- The stub expects an error code exactly when the processor pushes one. -/
def CodeExpected (vector : Fin exceptionsNumber) (code : Option (BitVec 32)) : Prop :=
  code.isSome ↔ vector ∈ isrErrorCodes

theorem regsWords_eq {m : Machine} {vector : Fin exceptionsNumber} {code : Option (BitVec 32)}
    (h : CodeExpected vector code) :
    regsWords m vector code = RegsField.pushed.map (RegsField.value m vector code) := by
  have habove : frameAbove m vector code =
      [BitVec.ofNat 32 vector, code.getD 0, m.eip, (m.seg .cs).setWidth 32, m.eflags] := by
    unfold frameAbove
    cases code with
    | none =>
      rw [if_neg (mt h.mpr Bool.false_ne_true)]
      rfl
    | some code =>
      rw [if_pos (h.mp rfl)]
      rfl
  rw [regsWords, habove]
  rfl

section Handler

def bytesOf (text : String) : List (BitVec 8) := text.toList.map byteOf

/-- The line that the handler prints. -/
def exceptionText (vector : Fin exceptionsNumber) : List (BitVec 8) :=
  bytesOf ">> Exception: " ++
    (bytesOf (exceptionMessages vector) ++ bytesOf ". System Halted! <<\n")

namespace IsrConstants

variable (constants : IsrConstants) (vector : Fin exceptionsNumber)

/-- What the handler reads for a vector lies in memory. -/
structure In (mem : Memory 32) : Prop where
  format : mem.Holds constants.format (bytesOf exceptionFormat ++ [0])
  messages : mem.load32 (constants.messages + 4 * BitVec.ofNat 32 vector) = constants.message vector
  message : mem.Holds (constants.message vector) (bytesOf (exceptionMessages vector) ++ [0])
  nullText : mem.Holds constants.nullText (nullString ++ [0])

/-- The bytes of it. -/
def Occupies (a : BitVec 32) : Prop :=
  (∃ i < (bytesOf exceptionFormat ++ [(0 : BitVec 8)]).length,
      a = constants.format + BitVec.ofNat 32 i) ∨
    InSlot (constants.messages + 4 * BitVec.ofNat 32 vector) a ∨
    (∃ i < (bytesOf (exceptionMessages vector) ++ [(0 : BitVec 8)]).length,
      a = constants.message vector + BitVec.ofNat 32 i) ∨
    ∃ i < (nullString ++ [(0 : BitVec 8)]).length, a = constants.nullText + BitVec.ofNat 32 i

variable {constants vector}

theorem In.congr {mem mem' : Memory 32} (h : constants.In vector mem)
    (heq : ∀ a, constants.Occupies vector a → mem' a = mem a) : constants.In vector mem' := by
  constructor
  case format => exact h.format.congr fun i hi => heq _ (.inl ⟨i, hi, rfl⟩)
  case messages =>
    rw [StackLayout.load32_congr fun c hc => heq c (.inr (.inl hc))]
    exact h.messages
  case message =>
    exact h.message.congr fun i hi => heq _ (.inr (.inr (.inl ⟨i, hi, rfl⟩)))
  case nullText => exact h.nullText.congr fun i hi => heq _ (.inr (.inr (.inr ⟨i, hi, rfl⟩)))

end IsrConstants

theorem exceptionFormat_eq : bytesOf exceptionFormat =
    bytesOf ">> Exception: " ++ ([byteOf '%', byteOf 's'] ++ bytesOf ". System Halted! <<\n") := by
  simp [bytesOf, exceptionFormat]

theorem exceptionMessages_nonNul (vector : Fin exceptionsNumber) :
    ∀ c ∈ bytesOf (exceptionMessages vector), c ≠ 0 := by
  have hall : ∀ (messages : List String) (other : String) (i : ℕ),
      (∀ s ∈ other :: messages, ∀ c ∈ bytesOf s, c ≠ 0) →
      ∀ c ∈ bytesOf (messages.getD i other), c ≠ 0 := by
    intro messages other i h
    rw [List.getD_eq_getElem?_getD]
    cases hi : messages[i]? with
    | none => exact h _ List.mem_cons_self
    | some s => exact h _ (List.mem_cons_of_mem _ (List.mem_of_getElem? hi))
  apply hall
  simp [bytesOf, byteOf]

/-- What the format and its argument display. -/
theorem exceptionFormat_renders {constants : IsrConstants} {mem : Memory 32}
    {vector : Fin exceptionsNumber} (h : constants.In vector mem) {arg : BitVec 32}
    (harg : mem.load32 arg = constants.message vector) :
    (parseFormat (bytesOf exceptionFormat)).2 = false ∧
      RendersAll mem arg (parseFormat (bytesOf exceptionFormat)).1 (exceptionText vector) := by
  have hbefore : ∀ c ∈ bytesOf ">> Exception: ", c ≠ byteOf '%' := by
    simp [bytesOf, byteOf]
  have hbehind : ∀ c ∈ bytesOf ". System Halted! <<\n", c ≠ byteOf '%' := by
    simp [bytesOf, byteOf]
  rw [exceptionFormat_eq, parseFormat_string hbefore hbehind]
  refine ⟨rfl, ?_⟩
  have hnil : RendersAll mem (arg + BitVec.ofNat 32 (4 * Directive.string.arity)) [] [] := .nil _
  have hend := hnil.literals (bytesOf ". System Halted! <<\n")
  have hmessage : Directive.Renders mem (mem.load32 arg) .string
      (bytesOf (exceptionMessages vector)) := by
    rw [Directive.Renders, harg, if_neg (constants.message_ne vector)]
    exact ⟨exceptionMessages_nonNul vector, h.message⟩
  have hall := (RendersAll.cons hmessage hend).literals (bytesOf ">> Exception: ")
  rw [List.append_nil] at hall
  exact hall

/-- For a vector of an exception the handler prints its line, and does not return. -/
theorem isrHandler_prints {constants : IsrConstants} {mem : Memory 32}
    {vector : Fin exceptionsNumber} (h : constants.In vector mem) {r arg : BitVec 32}
    (hvector : mem.load32 (r + BitVec.ofNat 32 (RegsField.offset .interruptNumber)) =
      BitVec.ofNat 32 vector)
    (harg : ∀ a, constants.Occupies vector a → ¬ InSlot arg a) (buffer : ℕ → BitVec 8) :
    ∃ n, ∀ fuel ≥ n, ∃ x, x86IsrHandler constants mem r arg buffer fuel = some x ∧
      x.outcome = .done () ∧ displayed x = exceptionText vector := by
  have hlt : (BitVec.ofNat 32 vector.val).toNat < exceptionsNumber := by
    rw [BitVec.toNat_ofNat]
    omega
  let mem' := mem.store32 arg (constants.message vector)
  have hin : constants.In vector mem' := h.congr fun a ha =>
    mem.storeBytes_of_ne fun j hj he => harg a ha ⟨j, hj, he⟩
  have hword : mem'.load32 arg = constants.message vector := Memory.load32_store32 mem arg _
  obtain ⟨hclosed, hrender⟩ := exceptionFormat_renders hin hword
  have hnonNul : ∀ c ∈ bytesOf exceptionFormat, c ≠ 0 := by
    simp [bytesOf, byteOf, exceptionFormat]
  have hlen : (bytesOf exceptionFormat).length + 1 < 2 ^ 32 := by
    simp [bytesOf, exceptionFormat]
  obtain ⟨n, hprints⟩ := (printf_prints_iff mem' constants.nullText constants.format arg _ _
    buffer hin.nullText hin.format hnonNul hlen hrender).mpr hclosed
  refine ⟨n, fun fuel hfuel => ⟨_, ?_, (hprints fuel hfuel).returns, (hprints fuel hfuel).text⟩⟩
  unfold x86IsrHandler
  rw [hvector]
  simp only [if_pos hlt, h.messages]
  rfl

end Handler

/-- Memory keeps what does not lie close below the stack pointer. -/
theorem Stacked.outside {m m' : Machine} {bs : List (BitVec 8)} (h : Stacked m m' bs)
    {a : BitVec 32} {len : ℕ} (hlen : bs.length ≤ len)
    (ha : ∀ k, 0 < k → k ≤ len → a ≠ m.esp - BitVec.ofNat 32 k) : m'.mem a = m.mem a := by
  refine h.mem a fun i hi he => ha (bs.length - i) (by omega) (by omega) (he.trans ?_)
  have hsplit : BitVec.ofNat 32 bs.length =
      BitVec.ofNat 32 (bs.length - i) + BitVec.ofNat 32 i := by
    rw [← BitVec.ofNat_add, Nat.sub_add_cancel hi.le]
  rw [h.esp, hsplit]
  bv_omega

/-- The registers of `struct regs`, as the handler reads them. -/
theorem regs_loads {m m' : Machine} {next : BitVec 32} {ws : List (BitVec 32)}
    (h : Stacked m m' ((next :: (m'.esp + 8) :: ws).flatMap Memory.bytes32)) :
    m'.mem.load32 (m'.esp + 4) = m'.esp + 8 ∧
      ∀ k (hk : k < ws.length), m'.mem.load32 (m'.esp + 8 + BitVec.ofNat 32 (4 * k)) = ws[k] := by
  have hword : ∀ k (hk : k < (next :: (m'.esp + 8) :: ws).length),
      m'.mem.load32 (m'.esp + BitVec.ofNat 32 (4 * k)) = (next :: (m'.esp + 8) :: ws)[k] :=
    fun k hk => h.holds.word hk
  refine ⟨hword 1 (by simp), fun k hk => ?_⟩
  have hnext := hword (k + 2) (by simp [hk])
  rw [show 4 * (k + 2) = 8 + 4 * k by omega, BitVec.ofNat_add, ← BitVec.add_assoc] at hnext
  exact hnext

theorem pushed_idxOf :
    ∀ f ∈ RegsField.pushed, RegsField.pushed[RegsField.declared.idxOf f]? = some f := by
  decide

/-- Every exception is reported: its stub calls `x86_isr_handler` with the interrupts off, and the
handler prints the message of the vector and does not return. The fields of `struct regs` have the
values of the interrupted code, unless the processor pushes an error code that the stub does not
expect, which then stands in the field `eip`. -/
theorem exception_reported (arith : BitVec 32 → BitVec 32 → BitVec 32)
    (isrHandler next : BitVec 32) (p : Processor) (gate : IdtEntry) (code : Option (BitVec 32))
    (vector : Fin exceptionsNumber) (constants : IsrConstants)
    (hin : constants.In vector p.machine.mem)
    (hstack : ∀ a, constants.Occupies vector a → ∀ k, 0 < k → k ≤ 80 →
      a ≠ p.machine.esp - BitVec.ofNat 32 k) :
    let q := execStub arith { p with machine := p.machine.raise gate code }
      (isr isrHandler next vector)
    let r := q.machine.mem.load32 (q.machine.esp + 4)
    q.machine.eip = isrHandler ∧ q.machine.interruptible = false ∧
      (CodeExpected vector code → ∀ f ∈ RegsField.pushed,
        q.machine.mem.load32 (r + BitVec.ofNat 32 f.offset) = f.value p.machine vector code) ∧
      (vector ∉ isrErrorCodes → ∀ c, code = some c →
        q.machine.mem.load32 (r + BitVec.ofNat 32 (RegsField.offset .eip)) = c) ∧
      ∀ arg, (∀ a, constants.Occupies vector a → ¬ InSlot arg a) → ∀ buffer,
        ∃ n, ∀ fuel ≥ n, ∃ x,
          x86IsrHandler constants q.machine.mem r arg buffer fuel = some x ∧
            x.outcome = .done () ∧ displayed x = exceptionText vector := by
  intro q r
  obtain ⟨heip, hdisabled, hstacked⟩ := isr_calls arith isrHandler next p gate code vector
  obtain ⟨hr, hwords⟩ := regs_loads hstacked
  change r = q.machine.esp + 8 at hr
  have hlen := regsWords_length p.machine vector code
  refine ⟨heip, hdisabled, fun hcode f hf => ?_, fun hfake c hc => ?_, fun arg harg buffer => ?_⟩
  · rw [regsWords_eq hcode] at hwords
    obtain ⟨hlt, hfield⟩ := List.getElem?_eq_some_iff.mp (pushed_idxOf f hf)
    have hload := hwords (RegsField.declared.idxOf f) (by rwa [List.length_map])
    rw [List.getElem_map, hfield] at hload
    rwa [hr, RegsField.offset]
  · have hcode : (regsWords p.machine vector code)[14]? = some c := by
      rw [regsWords, frameAbove, if_neg hfake, hc]
      rfl
    obtain ⟨hlt, hword⟩ := List.getElem?_eq_some_iff.mp hcode
    have hload := hwords 14 hlt
    rwa [hword, ← hr] at hload
  · have hconstants : constants.In vector q.machine.mem := by
      have hbytes := Memory.words_length
        (next :: (q.machine.esp + 8) :: regsWords p.machine vector code)
      rw [List.length_cons, List.length_cons] at hbytes
      exact hin.congr fun a ha => hstacked.outside (hbytes.le.trans (by omega)) (hstack a ha)
    have hnumber := hwords 12 (by omega)
    have hvector : (regsWords p.machine vector code)[12] = BitVec.ofNat 32 vector := rfl
    rw [hvector, ← hr] at hnumber
    exact isrHandler_prints hconstants hnumber harg buffer

section PageFault

/-- The format, `(null)`, the message, and the address of the message. -/
def pageFaultTexts : ℕ → List (BitVec 8)
  | 1 => bytesOf exceptionFormat
  | 2 => nullString
  | 3 => bytesOf "Page Fault"
  | 4 => Memory.bytes32 192
  | _ => []

/-- A memory with one text in each block of 64 bytes. -/
def pageFaultMemory : Memory 32 := fun a =>
  (pageFaultTexts (a.toNat / 64)).getD (a.toNat % 64) 0

theorem pageFaultMemory_holds {k : ℕ} (hk : k < 2 ^ 20) (hlen : (pageFaultTexts k).length < 64) :
    pageFaultMemory.Holds (BitVec.ofNat 32 (64 * k)) (pageFaultTexts k ++ [0]) := by
  refine Memory.holds_iff.mpr fun i hi => ?_
  rw [List.length_append] at hi
  have hlt : i < 64 := by
    simp only [List.length_cons, List.length_nil] at hi
    omega
  rw [← BitVec.ofNat_add]
  unfold pageFaultMemory
  rw [BitVec.toNat_ofNat, Nat.mod_eq_of_lt (by omega), show (64 * k + i) / 64 = k by omega,
    show (64 * k + i) % 64 = i by omega, List.getD_eq_getElem?_getD]
  by_cases hinside : i < (pageFaultTexts k).length
  · rw [List.getElem_append_left hinside, List.getElem?_eq_getElem hinside, Option.getD_some]
  · rw [List.getElem?_eq_none (by omega), Option.getD_none, List.getElem_append_right (by omega)]
    simp

def pageFaultConstants : IsrConstants where
  format := 64
  messages := 200
  message _ := 192
  message_ne _ := by decide
  nullText := 128

theorem pageFaultConstants_in : pageFaultConstants.In 14 pageFaultMemory := by
  have hformat := @pageFaultMemory_holds 1 (by decide)
    (by simp [pageFaultTexts, bytesOf, exceptionFormat])
  have hmessage := @pageFaultMemory_holds 3 (by decide) (by simp [pageFaultTexts, bytesOf])
  have haddress := @pageFaultMemory_holds 4 (by decide) (by decide)
  constructor
  case format => exact hformat
  case messages => exact (Memory.holds_append.mp haddress).1.load32.1
  case message => exact hmessage
  case nullText => exact @pageFaultMemory_holds 2 (by decide) (by decide)

/-- The constants lie below 260, and the stack well above. -/
theorem pageFaultConstants_below {a : BitVec 32} (h : pageFaultConstants.Occupies 14 a) :
    a.toNat < 260 := by
  have hformat : (bytesOf exceptionFormat ++ [(0 : BitVec 8)]).length = 37 := by
    simp [bytesOf, exceptionFormat]
  have hmessage : (bytesOf (exceptionMessages 14) ++ [(0 : BitVec 8)]).length = 11 := by
    rw [show exceptionMessages 14 = "Page Fault" from rfl]
    simp [bytesOf]
  have hnull : (nullString ++ [(0 : BitVec 8)]).length = 7 := by decide
  rw [IsrConstants.Occupies, hformat, hmessage, hnull] at h
  rcases h with ⟨i, hi, rfl⟩ | ⟨i, hi, rfl⟩ | ⟨i, hi, rfl⟩ | ⟨i, hi, rfl⟩
  · change ((64 : BitVec 32) + BitVec.ofNat 32 i).toNat < 260
    bv_omega
  · change ((200 : BitVec 32) + 4 * 14 + BitVec.ofNat 32 i).toNat < 260
    bv_omega
  · change ((192 : BitVec 32) + BitVec.ofNat 32 i).toNat < 260
    bv_omega
  · change ((128 : BitVec 32) + BitVec.ofNat 32 i).toNat < 260
    bv_omega

def pageFaultGate : IdtEntry := ⟨0x5000, 8, 0, 14, 0, 0, 1, 0⟩

/-- Code at 0x4000 that is interrupted. -/
def faultingMachine : Machine where
  reg _ := 0x8000
  seg _ := 0x10
  eip := 0x4000
  eflags := 0x202
  mem := pageFaultMemory

/-- The handler finds where the page fault came from, and prints its line. -/
theorem exception_reported_pageFault :
    let q := execStub (fun flags _ => flags)
      ⟨faultingMachine.raise pageFaultGate (some 2), []⟩
      (isr 0x5000 0x5010 14)
    let r := q.machine.mem.load32 (q.machine.esp + 4)
    q.machine.mem.load32 (r + 56) = 0x4000 ∧ q.machine.mem.load32 (r + 52) = 2 ∧
      ∃ n, ∀ fuel ≥ n, ∃ x,
        x86IsrHandler pageFaultConstants q.machine.mem r 0x9000 (fun _ => 0) fuel = some x ∧
          displayed x = exceptionText 14 := by
  intro q r
  have hstack : ∀ a, pageFaultConstants.Occupies 14 a → ∀ k, 0 < k → k ≤ 80 →
      a ≠ faultingMachine.esp - BitVec.ofNat 32 k := by
    intro a ha k hk hk' he
    have hlow := pageFaultConstants_below ha
    have hesp : faultingMachine.esp = 0x8000 := rfl
    rw [he, hesp] at hlow
    bv_omega
  have harg : ∀ a, pageFaultConstants.Occupies 14 a → ¬ InSlot 0x9000 a := by
    rintro a ha ⟨j, hj, rfl⟩
    have hlow := pageFaultConstants_below ha
    bv_omega
  obtain ⟨-, -, hfields, -, hprints⟩ := exception_reported (fun flags _ => flags) 0x5000 0x5010
    ⟨faultingMachine, []⟩ pageFaultGate (some 2) 14
    pageFaultConstants pageFaultConstants_in hstack
  have hexpected : CodeExpected 14 (some 2) := ⟨fun _ => by decide, fun _ => rfl⟩
  have heip := hfields hexpected .eip (by decide)
  have hcode := hfields hexpected .errorCode (by decide)
  obtain ⟨n, hdone⟩ := hprints 0x9000 harg fun _ => 0
  refine ⟨heip, hcode, n, fun fuel hfuel => ?_⟩
  obtain ⟨x, hx, -, htext⟩ := hdone fuel hfuel
  exact ⟨x, hx, htext⟩

end PageFault

end Einherjar.Arch
