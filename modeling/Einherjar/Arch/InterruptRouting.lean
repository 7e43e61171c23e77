import Einherjar.Arch.Interrupts
import Einherjar.Lib.Run

/-! When the handlers, the descriptor table and the masks agree along a run of
`x86_irq_set_routine` calls. -/
namespace Einherjar.Arch
open Einherjar.Lib

/-- The entry is present and leads to the address. -/
def IdtEntry.LeadsTo (idtEntry : IdtEntry) (address : BitVec 32) : Prop :=
  idtEntry.present = 1 ∧ idtEntry.offsetHigh ++ idtEntry.offsetLow = address

theorem setWidth_low (x : BitVec 32) : (x &&& 0xffff).setWidth 16 = x.setWidth 16 := by
  apply BitVec.eq_of_toNat_eq
  rw [BitVec.toNat_setWidth, BitVec.toNat_and, BitVec.toNat_setWidth,
    show (0xffff : BitVec 32).toNat = 2 ^ 16 - 1 from rfl, Nat.and_two_pow_sub_one_eq_mod,
    Nat.mod_mod]

theorem halves_append (address : BitVec 32) :
    ((address >>> 16) &&& 0xffff).setWidth 16 ++ (address &&& 0xffff).setWidth 16 = address := by
  have hlt := address.isLt
  apply BitVec.eq_of_toNat_eq
  rw [setWidth_low, setWidth_low, BitVec.toNat_append, BitVec.toNat_setWidth,
    BitVec.toNat_setWidth, BitVec.toNat_ushiftRight, Nat.shiftRight_eq_div_pow,
    ← Nat.shiftLeft_add_eq_or_of_lt (Nat.mod_lt _ (by decide)), Nat.shiftLeft_eq]
  omega

theorem setHandler_leadsTo (idtEntry : IdtEntry) {address : BitVec 32} (h : address ≠ 0) :
    (idtEntry.setHandler address).LeadsTo address := by
  rw [IdtEntry.setHandler, if_pos h]
  exact ⟨rfl, halves_append address⟩

theorem setHandler_null (idtEntry : IdtEntry) (address : BitVec 32) :
    ¬ (idtEntry.setHandler 0).LeadsTo address := by
  intro h
  have hpresent : (0 : BitVec 1) = 1 := h.1
  exact absurd hpresent (by decide)

section masks

variable {line i : ℕ}

theorem getLsbD_setBit (mask : BitVec 8) (hi : i < 8) :
    (mask ||| 1#8 <<< line).getLsbD i = (mask.getLsbD i || decide (i = line)) := by
  rw [BitVec.getLsbD_or, ← BitVec.twoPow_eq, BitVec.getLsbD_twoPow]
  by_cases h : i = line
  · subst h
    simp [hi]
  · simp [h, Ne.symm h]

theorem getLsbD_clearBit (mask : BitVec 8) (hi : i < 8) :
    (mask &&& ~~~(1#8 <<< line)).getLsbD i = (mask.getLsbD i && decide (i ≠ line)) := by
  rw [BitVec.getLsbD_and, BitVec.getLsbD_not, ← BitVec.twoPow_eq, BitVec.getLsbD_twoPow]
  by_cases h : i = line
  · subst h
    simp [hi]
  · simp [h, Ne.symm h, hi]

theorem setWidth_eq_port {v port : BitVec 8} : v.setWidth 16 = port.setWidth 16 ↔ v = port := by
  constructor
  · intro h
    have := congrArg BitVec.toNat h
    apply BitVec.eq_of_toNat_eq
    rw [BitVec.toNat_setWidth, BitVec.toNat_setWidth] at this
    omega
  · exact congrArg _

end masks

namespace Pic

@[simp] theorem outb_master (pic : Pic) (value : BitVec 8) :
    pic.outb (masterCommand + 1) value = { pic with masterMask := value } := if_pos rfl

@[simp] theorem outb_slave (pic : Pic) (value : BitVec 8) :
    pic.outb (slaveCommand + 1) value = { pic with slaveMask := value } :=
  (if_neg (by decide)).trans (if_pos rfl)

/-- `outb` to a port with the number of a byte. -/
theorem outb_byte (pic : Pic) (port value : BitVec 8) :
    pic.outb (port.setWidth 16) value =
      if port = 0x21 then { pic with masterMask := value }
      else if port = 0xa1 then { pic with slaveMask := value } else pic := by
  have hmaster : port.setWidth 16 = masterCommand + 1 ↔ port = 0x21 :=
    @setWidth_eq_port port 0x21
  have hslave : port.setWidth 16 = slaveCommand + 1 ↔ port = 0xa1 :=
    @setWidth_eq_port port 0xa1
  unfold outb
  simp only [hmaster, hslave]

section lines

variable (pic : Pic) {i : Fin 16}

theorem masked_master (hi : i.val < 8) : pic.Masked i ↔ pic.masterMask.getLsbD i.val = true := by
  rw [Masked, if_pos hi]

theorem masked_slave (hi : ¬ i.val < 8) :
    pic.Masked i ↔ pic.slaveMask.getLsbD (i.val - 8) = true := by
  rw [Masked, if_neg hi]

theorem sub_eight_inj {line : Fin 16} (hi : ¬ i.val < 8) (hl : ¬ line.val < 8) :
    i.val - 8 = line.val - 8 ↔ i = line := by
  rw [Fin.ext_iff]
  omega

end lines

theorem toNat_line (line : Fin 16) : (BitVec.ofNat 32 line.val).toNat = line.val := by
  rw [BitVec.toNat_ofNat]
  omega

theorem masked_enable (pic : Pic) (line i : Fin 16) :
    (x86PicEnableIrqLine pic (BitVec.ofNat 32 line)).Masked i ↔ pic.Masked i ∧ i ≠ line := by
  unfold x86PicEnableIrqLine
  rw [toNat_line]
  by_cases hl : line.val < 8
  · rw [if_pos hl, outb_master]
    by_cases hi : i.val < 8
    · rw [masked_master _ hi, masked_master _ hi, getLsbD_clearBit _ hi, Bool.and_eq_true,
        decide_eq_true_eq, Ne, Fin.val_inj]
    · have hne : i ≠ line := fun he => hi (he ▸ hl)
      rw [masked_slave _ hi, masked_slave _ hi, and_iff_left hne]
  · rw [if_neg hl, outb_slave]
    by_cases hi : i.val < 8
    · have hne : i ≠ line := fun he => hl (he ▸ hi)
      rw [masked_master _ hi, masked_master _ hi, and_iff_left hne]
    · rw [masked_slave _ hi, masked_slave _ hi, getLsbD_clearBit _ (by omega), Bool.and_eq_true,
        decide_eq_true_eq, Ne, sub_eight_inj hi hl]

/-- When `x86_pic_disable_irq_line` masks its line and nothing else: the mask with the bit of
the line is the port of the mask itself, or the line is masked already and the write goes to a
port that is not a mask's, or leaves the other mask as it is. The cascade line may stay open. -/
def DisablesSafely (pic : Pic) (line : Fin 16) : Prop :=
  if line.val < 8 then
    let port := pic.masterMask ||| 1#8 <<< line.val
    port = 0x21 ∨ line = 2 ∨ pic.Masked line ∧ (port = 0xa1 → pic.slaveMask = 0x21)
  else
    let port := pic.slaveMask ||| 1#8 <<< (line.val - 8)
    port = 0xa1 ∨ pic.Masked line ∧ (port = 0x21 → pic.masterMask = 0xa1)

/-- The write to the own mask masks the line and keeps the others. -/
theorem masked_of_own_master {pic : Pic} {line : Fin 16} (hl : line.val < 8) (i : Fin 16) :
    ({ pic with masterMask := pic.masterMask ||| 1#8 <<< line.val } : Pic).Masked i ↔
      pic.Masked i ∨ i = line := by
  by_cases hi : i.val < 8
  · rw [masked_master _ hi, masked_master _ hi, getLsbD_setBit _ hi, Bool.or_eq_true,
      decide_eq_true_eq, Fin.val_inj]
  · have hne : i ≠ line := fun he => hi (he ▸ hl)
    rw [masked_slave _ hi, masked_slave _ hi, or_iff_left hne]

theorem masked_of_own_slave {pic : Pic} {line : Fin 16} (hl : ¬ line.val < 8) (i : Fin 16) :
    ({ pic with slaveMask := pic.slaveMask ||| 1#8 <<< (line.val - 8) } : Pic).Masked i ↔
      pic.Masked i ∨ i = line := by
  by_cases hi : i.val < 8
  · have hne : i ≠ line := fun he => hl (he ▸ hi)
    rw [masked_master _ hi, masked_master _ hi, or_iff_left hne]
  · rw [masked_slave _ hi, masked_slave _ hi, getLsbD_setBit _ (by omega), Bool.or_eq_true,
      decide_eq_true_eq, sub_eight_inj hi hl]

/-- Masks that agree in every line are equal. -/
theorem masterMask_eq {pic : Pic} {mask : BitVec 8}
    (h : ∀ i : Fin 16, i.val < 8 →
      (({ pic with masterMask := mask } : Pic).Masked i ↔ pic.Masked i)) :
    pic.masterMask = mask := by
  apply BitVec.eq_of_getLsbD_eq
  intro i hi
  have hb : i < 8 := hi
  have := h ⟨i, by omega⟩ hb
  rw [masked_master _ hb, masked_master _ hb] at this
  exact (Bool.eq_iff_iff.mpr this).symm

theorem slaveMask_eq {pic : Pic} {mask : BitVec 8}
    (h : ∀ i : Fin 16, ¬ i.val < 8 →
      (({ pic with slaveMask := mask } : Pic).Masked i ↔ pic.Masked i)) : pic.slaveMask = mask := by
  apply BitVec.eq_of_getLsbD_eq
  intro i hi
  have hb : ¬ i + 8 < 8 := by omega
  have := h ⟨i + 8, by omega⟩ hb
  rw [masked_slave _ hb, masked_slave _ hb] at this
  simpa using (Bool.eq_iff_iff.mpr this).symm

/-- The call masks its line and keeps the others. -/
def MasksOnly (pic : Pic) (line : Fin 16) (pic' : Pic) : Prop :=
  (∀ i, i ≠ line → (pic'.Masked i ↔ pic.Masked i)) ∧ (line ≠ 2 → pic'.Masked line)

theorem masksOnly_unchanged {pic : Pic} {line : Fin 16} :
    pic.MasksOnly line pic ↔ line = 2 ∨ pic.Masked line := by
  unfold MasksOnly
  constructor
  · intro h
    by_cases h2 : line = 2
    · exact .inl h2
    · exact .inr (h.2 h2)
  · intro h
    exact ⟨fun _ _ => Iff.rfl, h.resolve_left⟩

theorem disable_master_iff {pic : Pic} {line : Fin 16} (hl : line.val < 8) :
    pic.MasksOnly line (x86PicDisableIrqLine pic (BitVec.ofNat 32 line)) ↔
      pic.DisablesSafely line := by
  have hcall : x86PicDisableIrqLine pic (BitVec.ofNat 32 line) =
      pic.outb ((pic.masterMask ||| 1#8 <<< line.val).setWidth 16) 0x21 := by
    rw [x86PicDisableIrqLine, toNat_line, if_pos hl]
    rfl
  rw [hcall, outb_byte, DisablesSafely, if_pos hl]
  have hown := @masked_of_own_master pic line hl
  have hbit : (pic.masterMask ||| 1#8 <<< line.val).getLsbD line.val = true := by
    simp [getLsbD_setBit _ hl]
  generalize pic.masterMask ||| 1#8 <<< line.val = port at hown hbit
  by_cases hmaster : port = 0x21
  · subst hmaster
    refine iff_of_true ⟨fun i hi => ?_, fun _ => ?_⟩ (.inl rfl)
    · rw [if_pos rfl, hown, or_iff_left hi]
    · rw [if_pos rfl, hown]
      exact .inr rfl
  · rw [if_neg hmaster]
    by_cases hslave : port = 0xa1
    · subst hslave
      have h2 : line ≠ 2 := by
        rintro rfl
        exact absurd hbit (by decide)
      rw [if_pos rfl]
      simp only [hmaster, h2, false_or, true_implies]
      constructor
      · intro h
        have hmask : pic.slaveMask = 0x21 :=
          slaveMask_eq fun i hi => h.1 i fun he => hi (he ▸ hl)
        have hline := h.2 h2
        rw [masked_master _ hl] at hline ⊢
        exact ⟨hline, hmask⟩
      · intro h
        obtain ⟨hline, hmask⟩ := h
        rw [← hmask]
        exact ⟨fun _ _ => Iff.rfl, fun _ => hline⟩
    · rw [if_neg hslave, masksOnly_unchanged]
      simp only [hmaster, hslave, false_or, false_implies, and_true]

theorem disable_slave_iff {pic : Pic} {line : Fin 16} (hl : ¬ line.val < 8) :
    pic.MasksOnly line (x86PicDisableIrqLine pic (BitVec.ofNat 32 line)) ↔
      pic.DisablesSafely line := by
  have hcall : x86PicDisableIrqLine pic (BitVec.ofNat 32 line) =
      pic.outb ((pic.slaveMask ||| 1#8 <<< (line.val - 8)).setWidth 16) 0xa1 := by
    rw [x86PicDisableIrqLine, toNat_line, if_neg hl]
    rfl
  rw [hcall, outb_byte, DisablesSafely, if_neg hl]
  have hown := @masked_of_own_slave pic line hl
  have h2 : line ≠ 2 := by
    rintro rfl
    exact hl (by decide)
  generalize pic.slaveMask ||| 1#8 <<< (line.val - 8) = port at hown
  by_cases hslave : port = 0xa1
  · subst hslave
    refine iff_of_true ⟨fun i hi => ?_, fun _ => ?_⟩ (.inl rfl)
    · rw [if_neg (by decide), if_pos rfl, hown, or_iff_left hi]
    · rw [if_neg (by decide), if_pos rfl, hown]
      exact .inr rfl
  · by_cases hmaster : port = 0x21
    · subst hmaster
      rw [if_pos rfl]
      simp only [hslave, false_or, true_implies]
      constructor
      · intro h
        have hmask : pic.masterMask = 0xa1 :=
          masterMask_eq fun i hi => h.1 i fun he => hl (he ▸ hi)
        have hline := h.2 h2
        rw [masked_slave _ hl] at hline ⊢
        exact ⟨hline, hmask⟩
      · intro h
        obtain ⟨hline, hmask⟩ := h
        rw [← hmask]
        exact ⟨fun _ _ => Iff.rfl, fun _ => hline⟩
    · rw [if_neg hmaster, if_neg hslave, masksOnly_unchanged]
      simp only [hmaster, hslave, h2, false_or, false_implies, and_true]

theorem disable_iff (pic : Pic) (line : Fin 16) :
    pic.MasksOnly line (x86PicDisableIrqLine pic (BitVec.ofNat 32 line)) ↔
      pic.DisablesSafely line := by
  by_cases hl : line.val < 8
  · exact disable_master_iff hl
  · exact disable_slave_iff hl

end Pic

section calls

variable (wrappers : IrqWrappers) {s s' : Interrupts}

/-- The entry of a line in the descriptor table. -/
def idtLine (line : Fin x86IrqNum) : Fin interruptionsMaxLimit :=
  ⟨32 + line.val, Nat.add_lt_add_left (Nat.lt_of_lt_of_le line.isLt (by decide : 16 ≤ 224)) 32⟩

/-- Handler, descriptor and mask of a line agree. -/
structure Routed (s : Interrupts) (line : Fin x86IrqNum) : Prop where
  descriptor : s.x86IrqHandlerArray line ≠ 0 ↔
    (s.globalIdt (idtLine line)).LeadsTo (wrappers.address line)
  mask : s.x86IrqHandlerArray line ≠ 0 ↔ ¬ s.pic.Masked line

/-- The data are coherent in every line but the cascade. -/
def Coherent (s : Interrupts) : Prop := ∀ line, line ≠ 2 → Routed wrappers s line

/-- A call changes nothing of the lines that it does not name, and nothing at all when it names
none. -/
structure Unaffected (s : Interrupts) (irqLevel : BitVec 32) (s' : Interrupts) : Prop where
  handlers : ∀ line, line.val ≠ irqLevel.toNat →
    s'.x86IrqHandlerArray line = s.x86IrqHandlerArray line
  entries : ∀ i, i.val ≠ 32 + irqLevel.toNat → s'.globalIdt i = s.globalIdt i
  masks : ∀ line, line.val ≠ irqLevel.toNat → (s'.pic.Masked line ↔ s.pic.Masked line)
  outside : x86IrqNum ≤ irqLevel.toNat → s' = s

/-- The calls that keep the data coherent. -/
def RoutesSafely (s : Interrupts) (call : IrqCall) : Prop :=
  call.routine ≠ 0 ∨ ∀ line : Fin x86IrqNum, line.val = call.irqLevel.toNat →
    s.pic.DisablesSafely line

theorem setRoutine_outside {call : IrqCall} (h : x86IrqNum ≤ call.irqLevel.toNat) :
    (x86IrqSetRoutine wrappers s call).2 = s := by
  rw [x86IrqSetRoutine, dif_neg (Nat.not_lt.mpr h)]

/-- A call that names a line. The descriptor table has an entry for it. -/
theorem setRoutine_line (line : Fin x86IrqNum) (routine : BitVec 32) :
    (x86IrqSetRoutine wrappers s ⟨BitVec.ofNat 32 line, routine⟩).2 =
      { x86IrqHandlerArray := Function.update s.x86IrqHandlerArray line routine
        globalIdt := Function.update s.globalIdt (idtLine line)
          ((s.globalIdt (idtLine line)).setHandler
            (if routine ≠ 0 then wrappers.address line else 0))
        pic := if routine ≠ 0 then x86PicEnableIrqLine s.pic (BitVec.ofNat 32 line)
          else x86PicDisableIrqLine s.pic (BitVec.ofNat 32 line) } := by
  have hlevel : (BitVec.ofNat 32 line.val).toNat = line.val := Pic.toNat_line line
  have h16 : line.val < 16 := line.isLt
  have hindex : (x86IrqBase + BitVec.ofNat 32 line.val).toNat = 32 + line.val := by
    rw [BitVec.toNat_add, hlevel, show x86IrqBase.toNat = 32 from rfl]
    omega
  have hset : ∀ address, x86IdtSetHandler s.globalIdt (x86IrqBase + BitVec.ofNat 32 line.val)
      address = (kernelOk, Function.update s.globalIdt (idtLine line)
        ((s.globalIdt (idtLine line)).setHandler address)) := by
    intro address
    have hlt : (x86IrqBase + BitVec.ofNat 32 line.val).toNat < interruptionsMaxLimit := by
      rw [hindex]
      exact (idtLine line).isLt
    have hfin : (⟨_, hlt⟩ : Fin interruptionsMaxLimit) = idtLine line := Fin.ext hindex
    rw [x86IdtSetHandler, dif_pos hlt, hfin]
  have hlt : (BitVec.ofNat 32 line.val).toNat < x86IrqNum := by
    rw [hlevel]
    exact line.isLt
  have hline : (⟨_, hlt⟩ : Fin x86IrqNum) = line := Fin.ext hlevel
  have hok : ((kernelOk.setWidth 16 : BitVec 16).setWidth 32 : BitVec 32) = kernelOk := rfl
  rw [x86IrqSetRoutine, dif_pos hlt]
  simp only [hline, hset, hok, ne_eq, not_true_eq_false, and_false, if_false,
    Function.update_self]

theorem setup_coherent (globalIdt : Idt) (pic : Pic) :
    Coherent wrappers (interruptsSetup globalIdt pic) := by
  intro line h2
  have hmask : ∀ line : Fin 16, line ≠ 2 → (x86PicSetup pic).Masked line := by
    have hsetup : x86PicSetup pic = ⟨0xfb, 0xff⟩ := rfl
    rw [hsetup]
    decide
  constructor
  case descriptor =>
    refine iff_of_false (fun h => h rfl) ?_
    exact setHandler_null _ _
  case mask => exact iff_of_false (fun h => h rfl) (not_not_intro (hmask line h2))

theorem idtLine_inj {line line' : Fin x86IrqNum} : idtLine line = idtLine line' ↔ line = line' := by
  unfold idtLine
  rw [Fin.mk.injEq, Fin.ext_iff]
  omega

/-- What the masks after a call must be for the data to be coherent. -/
theorem coherent_unaffected_iff (h : Coherent wrappers s) (line : Fin x86IrqNum)
    (routine : BitVec 32) {pic : Pic}
    (hcall : (x86IrqSetRoutine wrappers s ⟨BitVec.ofNat 32 line, routine⟩).2 =
      { x86IrqHandlerArray := Function.update s.x86IrqHandlerArray line routine
        globalIdt := Function.update s.globalIdt (idtLine line)
          ((s.globalIdt (idtLine line)).setHandler
            (if routine ≠ 0 then wrappers.address line else 0))
        pic := pic }) :
    (Coherent wrappers (x86IrqSetRoutine wrappers s ⟨BitVec.ofNat 32 line, routine⟩).2 ∧
      Unaffected s (BitVec.ofNat 32 line)
        (x86IrqSetRoutine wrappers s ⟨BitVec.ofNat 32 line, routine⟩).2) ↔
      (∀ i, i ≠ line → (pic.Masked i ↔ s.pic.Masked i)) ∧
        (line ≠ 2 → (routine ≠ 0 ↔ ¬ pic.Masked line)) := by
  have hlevel : (BitVec.ofNat 32 line.val).toNat = line.val := Pic.toNat_line line
  have hother : ∀ i : Fin x86IrqNum, i.val ≠ (BitVec.ofNat 32 line.val).toNat ↔ i ≠ line := by
    intro i
    rw [hlevel, Ne, Fin.val_inj]
  rw [hcall]
  constructor
  · intro hafter
    obtain ⟨hcoherent, hunaffected⟩ := hafter
    constructor
    · intro i hi
      exact hunaffected.masks i ((hother i).mpr hi)
    · intro h2
      have := (hcoherent line h2).mask
      simpa using this
  · intro hmasks
    obtain ⟨hkept, hline⟩ := hmasks
    constructor
    · intro i h2
      by_cases hi : i = line
      · subst hi
        constructor
        case descriptor =>
          simp only [Function.update_self]
          by_cases hr : routine = 0
          · subst hr
            exact iff_of_false (not_not_intro rfl) (setHandler_null _ _)
          · rw [if_pos hr]
            exact iff_of_true hr (setHandler_leadsTo _ (wrappers.address_ne i))
        case mask =>
          simp only [Function.update_self]
          exact hline h2
      · have hentry : idtLine i ≠ idtLine line := fun he => hi (idtLine_inj.mp he)
        constructor
        case descriptor =>
          simp only [Function.update_of_ne hi, Function.update_of_ne hentry]
          exact (h i h2).descriptor
        case mask =>
          simp only [Function.update_of_ne hi]
          rw [hkept i hi]
          exact (h i h2).mask
    · constructor
      case handlers =>
        intro i hi
        exact Function.update_of_ne ((hother i).mp hi) ..
      case entries =>
        intro i hi
        have hentry : i ≠ idtLine line := by
          rintro rfl
          exact hi (by rw [hlevel]; rfl)
        exact Function.update_of_ne hentry ..
      case masks =>
        intro i hi
        exact hkept i ((hother i).mp hi)
      case outside =>
        intro hge
        rw [hlevel] at hge
        exact absurd line.isLt (Nat.not_lt.mpr hge)

/-- A call keeps the data coherent, and the other lines as they are, exactly when it is safe. -/
theorem setRoutine_iff (h : Coherent wrappers s) (call : IrqCall) :
    (Coherent wrappers (x86IrqSetRoutine wrappers s call).2 ∧
      Unaffected s call.irqLevel (x86IrqSetRoutine wrappers s call).2) ↔ RoutesSafely s call := by
  obtain ⟨irqLevel, routine⟩ := call
  by_cases hlt : irqLevel.toNat < x86IrqNum
  · obtain ⟨line, rfl⟩ : ∃ line : Fin x86IrqNum, irqLevel = BitVec.ofNat 32 line :=
      ⟨⟨_, hlt⟩, by simp⟩
    rw [coherent_unaffected_iff wrappers h line routine (setRoutine_line wrappers line routine)]
    by_cases hr : routine = 0
    · subst hr
      have hsafe : RoutesSafely s ⟨BitVec.ofNat 32 line, 0⟩ ↔ s.pic.DisablesSafely line := by
        simp only [RoutesSafely, ne_eq, not_true_eq_false, false_or, Pic.toNat_line line,
          Fin.val_inj, forall_eq]
      rw [hsafe, ← Pic.disable_iff, if_neg (not_not_intro rfl)]
      simp only [Pic.MasksOnly, ne_eq, not_true_eq_false, false_iff, not_not]
    · rw [if_pos hr]
      refine iff_of_true ⟨fun i hi => ?_, fun _ => ?_⟩ (.inl hr)
      · rw [Pic.masked_enable, and_iff_left hi]
      · rw [Pic.masked_enable]
        exact iff_of_true hr fun he => he.2 rfl
  · rw [setRoutine_outside wrappers (Nat.le_of_not_lt hlt)]
    refine iff_of_true ⟨h, ⟨fun _ _ => rfl, fun _ _ => rfl, fun _ _ => Iff.rfl, fun _ => rfl⟩⟩ ?_
    exact .inr fun line he => absurd (he ▸ line.isLt) hlt

/-- After the set-up, the handlers, the descriptor table and the masks agree after each call of a
run, and each call leaves the other lines alone, exactly when no call with NULL is unsafe. -/
theorem irqRouting_iff (wrappers : IrqWrappers) (globalIdt : Idt) (pic : Pic)
    (calls : List IrqCall) :
    let step := fun s call => (x86IrqSetRoutine wrappers s call).2
    let start := interruptsSetup globalIdt pic
    Along (fun s call s' => Coherent wrappers s' ∧ Unaffected s call.irqLevel s') start
        (trace step start calls) ↔
      Guarded RoutesSafely start (trace step start calls) := by
  intro step start
  refine Path.along_iff_guarded (I := Coherent wrappers) ?_ ?_ (path_trace step start calls)
    (setup_coherent wrappers globalIdt pic)
  · rintro s call s' h hsafe rfl
    have hafter := (setRoutine_iff wrappers h call).mpr hsafe
    exact ⟨hafter.1, hafter⟩
  · rintro s call s' h rfl hafter
    exact (setRoutine_iff wrappers h call).mp hafter

end calls

section ConcreteRouting

/-- Wrappers of 32 bytes each. -/
def wrappersAt : IrqWrappers where
  address line := BitVec.ofNat 32 (0x100600 + 32 * line.val)
  address_ne := by decide

def clearedIdt : Idt := fun _ => ⟨0, 0, 0, 0, 0, 0, 0, 0⟩

/-- The keyboard's line is enabled and disabled again: it stays open at the controller. -/
theorem keyboard_stays_unmasked : ¬ ∀ (wrappers : IrqWrappers) (globalIdt : Idt) (pic : Pic)
    (calls : List IrqCall), Along
      (fun s call s' => Coherent wrappers s' ∧ Unaffected s call.irqLevel s')
      (interruptsSetup globalIdt pic)
      (trace (fun s call => (x86IrqSetRoutine wrappers s call).2)
        (interruptsSetup globalIdt pic) calls) := by
  intro h
  obtain ⟨-, ⟨hcoherent, -⟩, -⟩ := h wrappersAt clearedIdt ⟨0, 0⟩ [⟨1, 0x100500⟩, ⟨1, 0⟩]
  have hmask := (hcoherent 1 (by decide)).mask
  revert hmask
  decide

end ConcreteRouting

end Einherjar.Arch
