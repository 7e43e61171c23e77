import Mathlib.Data.List.Induction
import Einherjar.Arch.Exceptions

/-! The descriptor table as the processor reads it: what each of its 256 gates says after the
set-up and any run of `x86_irq_set_routine` calls. -/
namespace Einherjar.Arch
open Einherjar.Lib

/-! The layout of a gate, and what the processor reads from it. -/

/-- The eight bytes of the packed `struct x86_idt_entry` as one number: the fields in the order of
their declaration, from the lowest bit up. -/
def IdtEntry.raw (e : IdtEntry) : BitVec 64 :=
  e.offsetHigh ++ (e.present ++ (e.descriptorPrivilidgeLevel ++ (e.storageSegment ++
    (e.gateType ++ (e.unused ++ (e.segmentSelector ++ e.offsetLow))))))

/-- What the processor takes from a gate. -/
structure Gate where
  present : Bool
  privilege : BitVec 2
  storage : Bool
  type : BitVec 4
  selector : BitVec 16
  offset : BitVec 32

/-- The processor's fields of a gate: the offset in the bits 0 to 15 and 48 to 63, the selector in
16 to 31, the type in 40 to 43, and the bits 44, 45 to 46, and 47. -/
def Gate.read (raw : BitVec 64) : Gate where
  present := raw.getLsbD 47
  privilege := raw.extractLsb' 45 2
  storage := raw.getLsbD 44
  type := raw.extractLsb' 40 4
  selector := raw.extractLsb' 16 16
  offset := raw.extractLsb' 48 16 ++ raw.extractLsb' 0 16

/-- The processor reads the fields where the structure has them. -/
theorem Gate.read_raw (e : IdtEntry) : Gate.read e.raw =
    { present := e.present.getLsbD 0
      privilege := e.descriptorPrivilidgeLevel
      storage := e.storageSegment.getLsbD 0
      type := e.gateType
      selector := e.segmentSelector
      offset := e.offsetHigh ++ e.offsetLow } := by
  unfold Gate.read IdtEntry.raw
  -- each field lies on one side of every concatenation above it
  simp (disch := omega) only [BitVec.extractLsb'_append_eq_of_add_le,
    BitVec.extractLsb'_append_eq_of_le, BitVec.getLsbD_append]
  simp

/-! The table after the set-up, and along runs. -/

/-- An entry as `x86_idt_setup` prepares it, with a handler. -/
def IdtEntry.gate (handlerAddress : BitVec 32) : IdtEntry :=
  IdtEntry.setHandler ⟨0, 0x08, 0, 0xE, 0, 0, 0, 0⟩ handlerAddress

/-- `x86_isr_setup`, with the addresses of the stubs. -/
def x86IsrSetup (isrAddress : Fin exceptionsNumber → BitVec 32) (globalIdt : Idt) : Idt :=
  (List.finRange exceptionsNumber).foldl
    (fun idt vector => (x86IdtSetHandler idt (BitVec.ofNat 32 vector.val) (isrAddress vector)).2)
    globalIdt

/-- `x86_idt_setup`, `x86_isr_setup` and `x86_irq_setup`, as `roentgenium_main` calls them. The
last does not touch the table. -/
def descriptorSetup (isrAddress : Fin exceptionsNumber → BitVec 32) (globalIdt : Idt) (pic : Pic) :
    Interrupts :=
  let s := interruptsSetup globalIdt pic
  { s with globalIdt := x86IsrSetup isrAddress s.globalIdt }

def irqRun (wrappers : IrqWrappers) (s : Interrupts) (calls : List IrqCall) : Interrupts :=
  calls.foldl (fun s call => (x86IrqSetRoutine wrappers s call).2) s

/-- The routine of the last call that names the line, or NULL. -/
def lastRoutine (calls : List IrqCall) (line : Fin x86IrqNum) : BitVec 32 :=
  ((calls.filter fun call => call.irqLevel.toNat = line.val).getLast?.map IrqCall.routine).getD 0

/-- The handler that a vector should have after the calls, or NULL. -/
def installed (isrAddress : Fin exceptionsNumber → BitVec 32) (wrappers : IrqWrappers)
    (calls : List IrqCall) (vector : Fin interruptionsMaxLimit) : BitVec 32 :=
  if h : vector.val < exceptionsNumber then isrAddress ⟨vector.val, h⟩
  else if h : vector.val - exceptionsNumber < x86IrqNum then
    if lastRoutine calls ⟨_, h⟩ ≠ 0 then wrappers.address ⟨_, h⟩ else 0
  else 0

theorem setHandler_gate (a b : BitVec 32) : (IdtEntry.gate a).setHandler b = .gate b := by
  unfold IdtEntry.gate IdtEntry.setHandler
  split_ifs <;> rfl

theorem x86IdtSetup_eq (globalIdt : Idt) : x86IdtSetup globalIdt = fun _ => .gate 0 := rfl

/-- The offset and the present bit come from the handler, the rest from the set-up. -/
theorem read_gate (handlerAddress : BitVec 32) : Gate.read (IdtEntry.gate handlerAddress).raw =
    { present := handlerAddress != 0
      privilege := 0
      storage := false
      type := 0xE
      selector := 0x08
      offset := handlerAddress } := by
  rw [Gate.read_raw, IdtEntry.gate]
  by_cases h : handlerAddress = 0
  · subst h
    rfl
  · rw [(setHandler_leadsTo _ h).2, IdtEntry.setHandler, if_pos h]
    have hne : (handlerAddress != 0) = true := bne_iff_ne.mpr h
    rw [hne]
    simp

/-- Setting a handler changes one gate. -/
theorem setHandler_gates (f : Fin interruptionsMaxLimit → BitVec 32)
    (vector : Fin interruptionsMaxLimit) (address : BitVec 32) :
    (x86IdtSetHandler (fun v => .gate (f v)) (BitVec.ofNat 32 vector.val) address).2 =
      fun v => .gate (Function.update f vector address v) := by
  have hval : (BitVec.ofNat 32 vector.val).toNat = vector.val := by
    have h256 : vector.val < 256 := vector.isLt
    rw [BitVec.toNat_ofNat]
    omega
  have hlt : (BitVec.ofNat 32 vector.val).toNat < interruptionsMaxLimit := by
    rw [hval]
    exact vector.isLt
  have hfin : (⟨_, hlt⟩ : Fin interruptionsMaxLimit) = vector := Fin.ext hval
  rw [x86IdtSetHandler, dif_pos hlt, hfin]
  funext v
  change Function.update (fun v => IdtEntry.gate (f v)) vector _ v = _
  by_cases hv : v = vector
  · subst hv
    rw [Function.update_self, Function.update_self, setHandler_gate]
  · rw [Function.update_of_ne hv, Function.update_of_ne hv]

/-- The exceptions of a list have their stubs. -/
theorem isrSetup_fold (isrAddress : Fin exceptionsNumber → BitVec 32)
    (vectors : List (Fin exceptionsNumber)) (f : Fin interruptionsMaxLimit → BitVec 32) :
    vectors.foldl
      (fun idt vector => (x86IdtSetHandler idt (BitVec.ofNat 32 vector.val) (isrAddress vector)).2)
      (fun v => .gate (f v)) =
    fun v => .gate (if h : ∃ hlt : v.val < exceptionsNumber, ⟨v.val, hlt⟩ ∈ vectors then
      isrAddress ⟨v.val, h.1⟩ else f v) := by
  induction vectors generalizing f with
  | nil =>
    funext v
    rw [dif_neg (by simp)]
    rfl
  | cons vector vectors ih =>
    have hlt : vector.val < interruptionsMaxLimit :=
      vector.isLt.trans (by decide : exceptionsNumber < interruptionsMaxLimit)
    have hset := setHandler_gates f ⟨vector.val, hlt⟩ (isrAddress vector)
    rw [List.foldl_cons, hset, ih]
    funext v
    congr 1
    by_cases hmem : ∃ h : v.val < exceptionsNumber, ⟨v.val, h⟩ ∈ vectors
    · rw [dif_pos hmem, dif_pos ⟨hmem.1, List.mem_cons_of_mem _ hmem.2⟩]
    · rw [dif_neg hmem]
      by_cases hv : v.val = vector.val
      · obtain rfl : v = ⟨vector.val, hlt⟩ := Fin.ext hv
        rw [dif_pos ⟨vector.isLt, List.mem_cons_self⟩, Function.update_self]
      · have hne : v ≠ ⟨vector.val, hlt⟩ := fun he => hv (congrArg Fin.val he)
        rw [Function.update_of_ne hne, dif_neg]
        rintro ⟨h, hin⟩
        rcases List.mem_cons.mp hin with he | hin
        · exact hv (congrArg Fin.val he)
        · exact hmem ⟨h, hin⟩

/-- A call behind others. -/
theorem lastRoutine_concat (calls : List IrqCall) (call : IrqCall) (line : Fin x86IrqNum) :
    lastRoutine (calls ++ [call]) line =
      if call.irqLevel.toNat = line.val then call.routine else lastRoutine calls line := by
  unfold lastRoutine
  rw [List.filter_append]
  by_cases h : call.irqLevel.toNat = line.val
  · rw [if_pos h, List.filter_cons_of_pos (by simpa using h), List.filter_nil, List.getLast?_concat]
    rfl
  · rw [if_neg h, List.filter_cons_of_neg (by simpa using h), List.filter_nil, List.append_nil]

theorem idtLine_val (line : Fin x86IrqNum) : (idtLine line).val = exceptionsNumber + line.val :=
  rfl

/-- The gate of a line has its wrapper while the line has a routine. -/
theorem installed_line (isrAddress : Fin exceptionsNumber → BitVec 32) (wrappers : IrqWrappers)
    (calls : List IrqCall) (line : Fin x86IrqNum) :
    installed isrAddress wrappers calls (idtLine line) =
      if lastRoutine calls line ≠ 0 then wrappers.address line else 0 := by
  have hsub : (idtLine line).val - exceptionsNumber = line.val := by
    rw [idtLine_val, Nat.add_sub_cancel_left]
  have hfin (h : (idtLine line).val - exceptionsNumber < x86IrqNum) :
      (⟨(idtLine line).val - exceptionsNumber, h⟩ : Fin x86IrqNum) = line := Fin.ext hsub
  rw [installed, dif_neg (Nat.not_lt.mpr (idtLine_val line ▸ Nat.le_add_right _ _)),
    dif_pos (hsub.symm ▸ line.isLt), hfin]

/-- A gate depends on the calls for its own line only. -/
theorem installed_congr {isrAddress : Fin exceptionsNumber → BitVec 32} {wrappers : IrqWrappers}
    {calls calls' : List IrqCall} (vector : Fin interruptionsMaxLimit)
    (h : ∀ line, vector = idtLine line → lastRoutine calls' line = lastRoutine calls line) :
    installed isrAddress wrappers calls vector = installed isrAddress wrappers calls' vector := by
  unfold installed
  by_cases hexc : vector.val < exceptionsNumber
  · rw [dif_pos hexc, dif_pos hexc]
  · rw [dif_neg hexc, dif_neg hexc]
    by_cases hirq : vector.val - exceptionsNumber < x86IrqNum
    · have hline : vector = idtLine ⟨_, hirq⟩ :=
        Fin.ext (Nat.add_sub_cancel' (Nat.le_of_not_lt hexc)).symm
      rw [dif_pos hirq, dif_pos hirq, h _ hline]
    · rw [dif_neg hirq, dif_neg hirq]

/-- The handlers and the gates are those of the last calls. -/
structure Installs (isrAddress : Fin exceptionsNumber → BitVec 32) (wrappers : IrqWrappers)
    (calls : List IrqCall) (s : Interrupts) : Prop where
  handlers : s.x86IrqHandlerArray = lastRoutine calls
  gates : s.globalIdt = fun vector => .gate (installed isrAddress wrappers calls vector)

theorem descriptorSetup_installs (isrAddress : Fin exceptionsNumber → BitVec 32)
    (wrappers : IrqWrappers) (globalIdt : Idt) (pic : Pic) :
    Installs isrAddress wrappers [] (descriptorSetup isrAddress globalIdt pic) := by
  constructor
  case handlers => rfl
  case gates =>
    change x86IsrSetup isrAddress (x86IdtSetup globalIdt) = _
    rw [x86IdtSetup_eq, x86IsrSetup, isrSetup_fold]
    funext vector
    congr 1
    unfold installed
    by_cases h : vector.val < exceptionsNumber
    · rw [dif_pos ⟨h, List.mem_finRange _⟩, dif_pos h]
    · rw [dif_neg fun he => h he.1, dif_neg h]
      split_ifs with h1 h2
      · exact absurd rfl h2
      · rfl
      · rfl

/-- A call changes what the last calls say. -/
theorem Installs.call {isrAddress : Fin exceptionsNumber → BitVec 32} {wrappers : IrqWrappers}
    {calls : List IrqCall} {s : Interrupts} (h : Installs isrAddress wrappers calls s)
    (call : IrqCall) :
    Installs isrAddress wrappers (calls ++ [call]) (x86IrqSetRoutine wrappers s call).2 := by
  obtain ⟨irqLevel, routine⟩ := call
  by_cases hlt : irqLevel.toNat < x86IrqNum
  · obtain ⟨line, rfl⟩ : ∃ line : Fin x86IrqNum, irqLevel = BitVec.ofNat 32 line.val :=
      ⟨⟨_, hlt⟩, by simp⟩
    have hlevel : (BitVec.ofNat 32 line.val).toNat = line.val := Pic.toNat_line line
    rw [setRoutine_line]
    constructor
    case handlers =>
      funext i
      change Function.update s.x86IrqHandlerArray line routine i = _
      rw [lastRoutine_concat, h.handlers, hlevel]
      by_cases hi : i = line
      · subst hi
        rw [Function.update_self, if_pos rfl]
      · rw [Function.update_of_ne hi, if_neg fun he => hi (Fin.ext he.symm)]
    case gates =>
      funext v
      change Function.update s.globalIdt (idtLine line) _ v = _
      rw [h.gates]
      by_cases hv : v = idtLine line
      · subst hv
        rw [Function.update_self, setHandler_gate, installed_line, lastRoutine_concat, hlevel,
          if_pos rfl]
      · rw [Function.update_of_ne hv]
        congr 1
        refine installed_congr v fun line' hline => ?_
        rw [lastRoutine_concat, hlevel, if_neg]
        rintro hsame
        exact hv (hline.trans (congrArg idtLine (Fin.ext hsame.symm)))
  · have hout : x86IrqNum ≤ irqLevel.toNat := Nat.le_of_not_lt hlt
    have hlast : lastRoutine (calls ++ [⟨irqLevel, routine⟩]) = lastRoutine calls := by
      funext line
      rw [lastRoutine_concat, if_neg]
      have := line.isLt
      change irqLevel.toNat ≠ line.val
      omega
    rw [setRoutine_outside wrappers hout]
    constructor
    case handlers => rw [hlast, h.handlers]
    case gates => simp only [installed, hlast, h.gates]

theorem irqRun_installs (isrAddress : Fin exceptionsNumber → BitVec 32) (wrappers : IrqWrappers)
    (globalIdt : Idt) (pic : Pic) (calls : List IrqCall) :
    Installs isrAddress wrappers calls
      (irqRun wrappers (descriptorSetup isrAddress globalIdt pic) calls) := by
  induction calls using List.reverseRecOn with
  | nil => exact descriptorSetup_installs isrAddress wrappers globalIdt pic
  | append_singleton calls call ih =>
    have hrun := ih.call call
    rwa [irqRun, List.foldl_append]

/-- After the set-up and any calls, the processor reads a well-formed interrupt gate in each of the
256 vectors: it leads to the stub of the exception or to the wrapper of the line, and it is present
exactly when there is one, which for a line the last call that names it decides. -/
theorem gate_reads (isrAddress : Fin exceptionsNumber → BitVec 32) (wrappers : IrqWrappers)
    (globalIdt : Idt) (pic : Pic) (calls : List IrqCall) :
    (irqRun wrappers (descriptorSetup isrAddress globalIdt pic) calls).x86IrqHandlerArray =
        lastRoutine calls ∧
      ∀ vector, Gate.read
          ((irqRun wrappers (descriptorSetup isrAddress globalIdt pic) calls).globalIdt vector).raw =
        { present := installed isrAddress wrappers calls vector != 0
          privilege := 0
          storage := false
          type := 0xE
          selector := 0x08
          offset := installed isrAddress wrappers calls vector } := by
  have hrun := irqRun_installs isrAddress wrappers globalIdt pic calls
  refine ⟨hrun.handlers, fun vector => ?_⟩
  rw [hrun.gates]
  exact read_gate _

end Einherjar.Arch
