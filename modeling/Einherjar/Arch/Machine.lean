import Einherjar.Lib.ByteMemory

/-! The part of a 32-bit x86 processor that straight-line stack code uses: the registers,
flat memory, and pushes and pops of both operand sizes. -/
namespace Einherjar.Arch
open Einherjar.Lib

inductive Reg where
  | eax | ebx | ecx | edx | esi | edi | ebp | esp
  deriving DecidableEq

inductive Seg where
  | cs | ds | es | fs | gs | ss
  deriving DecidableEq

structure Machine where
  reg : Reg → BitVec 32
  seg : Seg → BitVec 16
  eip : BitVec 32
  eflags : BitVec 32
  mem : Memory 32

inductive Instr where
  | pushf
  | pushSeg (s : Seg)
  | pushImm (v : BitVec 32)
  | push (r : Reg)
  | o16PushSeg (s : Seg)
  | o16PopSeg (s : Seg)
  | pop (r : Reg)
  | subEsp (n : BitVec 32)
  | addEsp (n : BitVec 32)
  /-- `mov dst, [base+disp]` -/
  | load (dst base : Reg) (disp : BitVec 32)
  /-- `mov [base+disp], src` -/
  | store (base : Reg) (disp : BitVec 32) (src : Reg)
  | iret
  | ret

namespace Machine

def esp (m : Machine) : BitVec 32 := m.reg .esp

def setReg (m : Machine) (r : Reg) (v : BitVec 32) : Machine :=
  { m with reg := Function.update m.reg r v }

def setSeg (m : Machine) (s : Seg) (v : BitVec 16) : Machine :=
  { m with seg := Function.update m.seg s v }

def push32 (m : Machine) (v : BitVec 32) : Machine :=
  { m.setReg .esp (m.esp - 4) with mem := m.mem.store32 (m.esp - 4) v }

def push16 (m : Machine) (v : BitVec 16) : Machine :=
  { m.setReg .esp (m.esp - 2) with mem := m.mem.store16 (m.esp - 2) v }

/-- Add to `esp`. The arithmetic flags follow some function of the old flags and the result. -/
def addEsp (arith : BitVec 32 → BitVec 32 → BitVec 32) (m : Machine) (n : BitVec 32) : Machine :=
  { m.setReg .esp (m.esp + n) with eflags := arith m.eflags (m.esp + n) }

end Machine

/-- One instruction other than the transfer of control inside it: `eip` is set by `iret`
and `ret` only. A segment selector pushed as 32 bits is zero-extended, and `iret` returns
at the same privilege level. -/
def Instr.exec (arith : BitVec 32 → BitVec 32 → BitVec 32) (m : Machine) : Instr → Machine
  | .pushf => m.push32 m.eflags
  | .pushSeg s => m.push32 ((m.seg s).setWidth 32)
  | .pushImm v => m.push32 v
  | .push r => m.push32 (m.reg r)
  | .o16PushSeg s => m.push16 (m.seg s)
  | .o16PopSeg s => (m.setSeg s (m.mem.load16 m.esp)).setReg .esp (m.esp + 2)
  | .pop r => (m.setReg .esp (m.esp + 4)).setReg r (m.mem.load32 m.esp)
  | .subEsp n => m.addEsp arith (-n)
  | .addEsp n => m.addEsp arith n
  | .load dst base disp => m.setReg dst (m.mem.load32 (m.reg base + disp))
  | .store base disp src => { m with mem := m.mem.store32 (m.reg base + disp) (m.reg src) }
  | .iret =>
    { (m.setSeg .cs ((m.mem.load32 (m.esp + 4)).setWidth 16)).setReg .esp (m.esp + 12) with
      eip := m.mem.load32 m.esp
      eflags := m.mem.load32 (m.esp + 8) }
  | .ret => { m.setReg .esp (m.esp + 4) with eip := m.mem.load32 m.esp }

/-- The instructions of a block in order. -/
def execBlock (arith : BitVec 32 → BitVec 32 → BitVec 32) : Machine → List Instr → Machine
  | m, [] => m
  | m, i :: is => execBlock arith (i.exec arith m) is

theorem execBlock_append (arith : BitVec 32 → BitVec 32 → BitVec 32) (m : Machine)
    (is js : List Instr) :
    execBlock arith m (is ++ js) = execBlock arith (execBlock arith m is) js := by
  induction is generalizing m with
  | nil => rfl
  | cons i is ih => exact ih _

/-- `m'` comes from `m` by pushing a string of bytes: it lies at the new top of the stack,
and memory outside it and all registers but `esp` and the flags are as before. -/
structure Pushed (m m' : Machine) (bs : List (BitVec 8)) : Prop where
  esp : m'.esp = m.esp - BitVec.ofNat 32 bs.length
  holds : m'.mem.Holds m'.esp bs
  mem : ∀ c, (∀ i < bs.length, c ≠ m'.esp + BitVec.ofNat 32 i) → m'.mem c = m.mem c
  reg : ∀ r, r ≠ .esp → m'.reg r = m.reg r
  seg : m'.seg = m.seg

theorem Pushed.trans {m m' m'' : Machine} {bs cs : List (BitVec 8)} (h : Pushed m m' bs)
    (h' : Pushed m' m'' cs) (hlen : cs.length + bs.length ≤ 2 ^ 32) :
    Pushed m m'' (cs ++ bs) := by
  have hesp : m'.esp = m''.esp + BitVec.ofNat 32 cs.length := by
    rw [h'.esp, BitVec.sub_add_cancel]
  refine ⟨?_, Memory.holds_append.mpr ⟨h'.holds, ?_⟩, fun c hc => ?_, fun r hr => ?_, ?_⟩
  · rw [h'.esp, h.esp, List.length_append, Nat.add_comm, BitVec.ofNat_add, BitVec.sub_sub]
  · rw [← hesp]
    refine h.holds.congr fun i hi => h'.mem _ fun j hj => ?_
    rw [hesp]
    exact Memory.add_offset_ne (by omega) (by omega) (by omega)
  · rw [h'.mem c fun i hi => hc i (by simp; omega), h.mem c fun i hi => ?_]
    rw [hesp, BitVec.add_assoc, ← BitVec.ofNat_add]
    exact hc _ (by simp; omega)
  · rw [h'.reg r hr, h.reg r hr]
  · rw [h'.seg, h.seg]

theorem pushed_push32 (m : Machine) (v : BitVec 32) :
    Pushed m (m.push32 v) (Memory.bytes32 v) where
  esp := by simp [Machine.push32, Machine.setReg, Machine.esp]
  holds := Memory.holds_storeBytes _ _ _ (by simp)
  mem c hc := Memory.storeBytes_of_ne _ hc
  reg r hr := Function.update_of_ne hr ..
  seg := rfl

theorem pushed_push16 (m : Machine) (v : BitVec 16) :
    Pushed m (m.push16 v) (Memory.bytes16 v) where
  esp := by simp [Machine.push16, Machine.setReg, Machine.esp]
  holds := Memory.holds_storeBytes _ _ _ (by simp)
  mem c hc := Memory.storeBytes_of_ne _ hc
  reg r hr := Function.update_of_ne hr ..
  seg := rfl

/-- Making room on the stack pushes whatever memory holds there. -/
theorem pushed_subEsp (arith : BitVec 32 → BitVec 32 → BitVec 32) (m : Machine) :
    Pushed m (m.addEsp arith (-2)) (Memory.bytes16 (m.mem.load16 (m.esp + -2))) where
  esp := by simp [Machine.addEsp, Machine.setReg, Machine.esp, BitVec.sub_eq_add_neg]
  holds := Memory.holds_load16 m.mem _
  mem c _ := rfl
  reg r hr := Function.update_of_ne hr ..
  seg := rfl

end Einherjar.Arch
