import Einherjar.Colorforth.Editor
import Einherjar.Lib.Run
import Mathlib.Algebra.Group.Nat.Even

/-! The cells that the editor reads: the number of the block it shows, and the walk over that
block, which goes past its end when a word of two cells begins in the last one. -/
namespace Einherjar.Colorforth
open Einherjar.Io Einherjar.Lib

/-- The length of the run of `p` that ends just before `n`. -/
def trailingRun (p : ℕ → Prop) [DecidablePred p] : ℕ → ℕ
  | 0 => 0
  | n + 1 => if p n then trailingRun p n + 1 else 0

section runs

variable {p : ℕ → Prop} [DecidablePred p]

theorem trailingRun_le (p : ℕ → Prop) [DecidablePred p] (n : ℕ) : trailingRun p n ≤ n := by
  induction n with
  | zero => exact le_rfl
  | succ n ih =>
    rw [trailingRun]
    split_ifs <;> omega

theorem sub_le_trailingRun_iff {j n : ℕ} (hj : j ≤ n) :
    n - j ≤ trailingRun p n ↔ ∀ k, j ≤ k → k < n → p k := by
  induction n with
  | zero => simp
  | succ n ih =>
    rw [trailingRun]
    rcases Nat.lt_or_eq_of_le hj with hlt | rfl
    · have hle : j ≤ n := Nat.le_of_lt_succ hlt
      by_cases hp : p n
      · rw [if_pos hp, show n + 1 - j = n - j + 1 by omega, Nat.add_le_add_iff_right, ih hle]
        refine ⟨fun h k hjk hk => ?_, fun h k hjk hk => h k hjk (Nat.lt_succ_of_lt hk)⟩
        rcases Nat.lt_or_eq_of_le (Nat.le_of_lt_succ hk) with hlt | rfl
        · exact h k hjk hlt
        · exact hp
      · rw [if_neg hp]
        refine iff_of_false (by omega) fun h => hp (h n hle (Nat.lt_succ_self n))
    · rw [Nat.sub_self]
      exact iff_of_true (Nat.zero_le _) fun k hjk hk => by omega

end runs

/-- The indices of `blocks` that are read for a position: the word, and its second cell. -/
def readsAt (blocks : ℕ → Cell) (position : ℕ) : List ℕ :=
  position :: if ownsPayload (blocks position) then [position + 1] else []

/-- The indices of `blocks` that `display_block(n)` reads. -/
def displayBlockReads (image : BlockImage) (n : Cell) : List ℕ :=
  (displayBlock image.cells n).flatMap fun pass => readsAt image.cells pass.position

/-- The walk from a cell on reads below the limit. -/
def ReadsBelow (blocks : ℕ → Cell) (limit i : ℕ) : Prop :=
  ∀ pass ∈ displayFrom blocks limit i, ∀ a ∈ readsAt blocks pass.position, a < limit

/-- `display_block(n)` reads cells of block `n` only. -/
def ReadsOwn (image : BlockImage) (n : Cell) : Prop :=
  ∀ a ∈ displayBlockReads image n, 256 * n.toNat ≤ a ∧ a < 256 * (n.toNat + 1)

/-- The block ends with an even number of cells that carry the tag of a word of two cells. -/
def EndsPaired (image : BlockImage) (n : Cell) : Prop :=
  Even (trailingRun (fun k => ownsPayload (image.cells (256 * n.toNat + k))) 256)

instance (image : BlockImage) (n : Cell) : Decidable (EndsPaired image n) := by
  unfold EndsPaired
  infer_instance

section walk

variable {blocks : ℕ → Cell} {limit i : ℕ}

theorem readsBelow_of_ge (h : limit ≤ i) : ReadsBelow blocks limit i := by
  unfold ReadsBelow
  simp [displayFrom_of_le blocks h]

theorem readsBelow_of_lt (h : i < limit) :
    ReadsBelow blocks limit i ↔
      if ownsPayload (blocks i) then i + 1 < limit ∧ ReadsBelow blocks limit (i + 2)
      else ReadsBelow blocks limit (i + 1) := by
  unfold ReadsBelow
  rw [displayFrom_of_lt blocks h, List.forall_mem_cons]
  by_cases hpay : ownsPayload (blocks i)
  · simp only [if_pos hpay, readsAt, List.mem_cons, forall_eq_or_imp, List.not_mem_nil,
      false_implies, implies_true, and_true]
    exact ⟨fun hs => ⟨hs.1.2, hs.2⟩, fun hs => ⟨⟨h, hs.1⟩, hs.2⟩⟩
  · simp only [if_neg hpay, readsAt, List.mem_cons, forall_eq_or_imp, List.not_mem_nil,
      false_implies, implies_true, and_true]
    exact and_iff_right h

/-- The walk comes to the start of the last run of two-cell tags, and then takes them in pairs. -/
theorem readsBelow_iff (blocks : ℕ → Cell) (start size j : ℕ) (hj : j ≤ size) :
    ReadsBelow blocks (start + size) (start + j) ↔
      Even (min (trailingRun (fun k => ownsPayload (blocks (start + k))) size) (size - j)) := by
  have hrun := sub_le_trailingRun_iff (p := fun k => ownsPayload (blocks (start + k))) hj
  rcases Nat.lt_or_eq_of_le hj with hlt | rfl
  · rw [readsBelow_of_lt (by omega)]
    by_cases hpay : ownsPayload (blocks (start + j))
    · rw [if_pos hpay]
      by_cases hlast : j + 1 = size
      · have hone : 1 ≤ trailingRun (fun k => ownsPayload (blocks (start + k))) size := by
          refine (show 1 = size - j by omega).trans_le (hrun.mpr fun k hjk hk => ?_)
          rwa [show k = j by omega]
        rw [show min (trailingRun _ size) (size - j) = 1 by omega]
        exact iff_of_false (fun h => by omega) (by decide)
      · have ih := readsBelow_iff blocks start size (j + 2) (by omega)
        rw [show start + j + 2 = start + (j + 2) by omega, ih, and_iff_right (by omega)]
        have hskip : size - (j + 1) ≤ trailingRun (fun k => ownsPayload (blocks (start + k))) size →
            size - j ≤ trailingRun (fun k => ownsPayload (blocks (start + k))) size := by
          intro h
          refine hrun.mpr fun k hjk hk => ?_
          rcases Nat.lt_or_eq_of_le hjk with hlt | rfl
          · exact (sub_le_trailingRun_iff (by omega)).mp h k hlt hk
          · exact hpay
        rw [Nat.even_iff, Nat.even_iff]
        omega
    · have ih := readsBelow_iff blocks start size (j + 1) (by omega)
      have hshort : ¬ size - j ≤ trailingRun (fun k => ownsPayload (blocks (start + k))) size :=
        fun h => hpay (hrun.mp h j le_rfl hlt)
      rw [if_neg hpay, show start + j + 1 = start + (j + 1) by omega, ih, Nat.even_iff,
        Nat.even_iff]
      omega
  · rw [Nat.sub_self, Nat.min_zero]
    exact iff_of_true (readsBelow_of_ge le_rfl) (by decide)
termination_by size - j

end walk

theorem readsOwn_iff (image : BlockImage) {n : Cell} (hn : n.toNat < image.totalBlocks) :
    ReadsOwn image n ↔ EndsPaired image n := by
  have heq := displayBlock_eq image.cells (hn.trans image.small)
  have hbelow := readsBelow_iff image.cells (256 * n.toNat) 256 0 (by decide)
  have hle := trailingRun_le (fun k => ownsPayload (image.cells (256 * n.toNat + k))) 256
  rw [Nat.sub_zero, min_eq_left hle, Nat.add_zero] at hbelow
  unfold EndsPaired
  rw [← hbelow]
  unfold ReadsOwn displayBlockReads ReadsBelow
  rw [heq]
  constructor
  · intro h pass hpass a ha
    have := h a (List.mem_flatMap.mpr ⟨pass, hpass, ha⟩)
    omega
  · intro h a ha
    obtain ⟨pass, hpass, ha⟩ := List.mem_flatMap.mp ha
    have hlow := (displayFrom_position _ _ _ pass hpass).1
    have hhigh := h pass hpass a ha
    have hge : pass.position ≤ a := by
      unfold readsAt at ha
      split_ifs at ha <;> simp at ha <;> omega
    omega

/-! The number of the block. -/

section numbers

variable {around : Surroundings} {e e' : Editor} {scancode : BitVec 8} {n : Cell}

/-- The shown block is one of the image. -/
def ShowsBlock (around : Surroundings) (e : Editor) : Prop :=
  e.nbBlock.toNat < around.image.totalBlocks

theorem pageTarget_lt (h : ShowsBlock around e) (hn : pageTarget around e scancode = some n) :
    n.toNat < around.image.totalBlocks := by
  have hsmall := around.image.small
  unfold ShowsBlock at h
  unfold pageTarget at hn
  split_ifs at hn with hup hfirst hdown hlast
  · obtain rfl := Option.some.inj hn
    have hne : e.nbBlock ≠ 0 := by
      intro h0
      rw [h0] at hfirst
      exact hfirst rfl
    bv_omega
  · obtain rfl := Option.some.inj hn
    rw [BitVec.slt_iff_toInt_lt] at hlast
    have htotal : (BitVec.ofNat 32 around.image.totalBlocks - 1).toNat =
        around.image.totalBlocks - 1 := by bv_omega
    have hnext : (e.nbBlock + 1).toNat = e.nbBlock.toNat + 1 := by bv_omega
    rw [BitVec.toInt_eq_toNat_of_lt (by omega), BitVec.toInt_eq_toNat_of_lt (by omega), htotal,
      hnext] at hlast
    omega

theorem Handled.nbBlock {behind : List (BitVec 8)} (h : Handled around behind e scancode e') :
    e'.nbBlock = (pageTarget around e scancode).getD e.nbBlock := by
  cases h with
  | page target =>
    rw [target]
    rfl
  | stay key target =>
    rw [target]
    rfl
  | colour foreground taken =>
    rw [pageTarget_of_not_special taken.not_special]
    rfl
  | leavePrompt taken =>
    rw [pageTarget_of_not_special taken.not_special]
    rfl
  | character ordinary =>
    rw [pageTarget_of_not_special ordinary.1]
    rfl
  | move key =>
    rw [pageTarget_of_cursorMove key]
    rfl
  | _ => rfl

/-- A page key with a target shows that block. -/
theorem handleInput_page (h : pageTarget around e scancode = some n) (behind : List (BitVec 8))
    (fuel : ℕ) : handleInput around behind fuel e scancode =
      .done (turnPage around n { e with escape := false }) := by
  have hkey : scancode = keyPageUp ∨ scancode = keyPageDown := by
    by_contra hne
    rw [pageTarget_eq_none (not_or.mp hne)] at h
    cases h
  rcases hkey with rfl | rfl
  · rw [handleInput_eq_keySwitch (by decide) (by decide)]
    change (if e.nbBlock - 1 = -1 then _ else _) = _
    change (if e.nbBlock - 1 = -1 then none else some (e.nbBlock - 1)) = some n at h
    split_ifs at h with hfirst
    rw [if_neg hfirst, ← Option.some.inj h]
  · rw [handleInput_eq_keySwitch (by decide) (by decide)]
    change (if (BitVec.ofNat 32 around.image.totalBlocks - 1).slt (e.nbBlock + 1) then _ else _) = _
    change (if (BitVec.ofNat 32 around.image.totalBlocks - 1).slt (e.nbBlock + 1) then none
      else some (e.nbBlock + 1)) = some n at h
    split_ifs at h with hlast
    rw [if_neg hlast, ← Option.some.inj h]

theorem KeyStep.showsBlock (h : KeyStep around e scancode e')
    (hstores : StoresInside around e scancode) (he : ShowsBlock around e) :
    ShowsBlock around e' := by
  obtain ⟨behind, hhandled⟩ := h.handled hstores
  unfold ShowsBlock
  rw [hhandled.nbBlock]
  cases hn : pageTarget around e scancode with
  | none => exact he
  | some n => exact pageTarget_lt he hn

theorem editor_showsBlock (htotal : 1 ≤ around.image.totalBlocks) (s : Forth) :
    ShowsBlock around (editor around.image s) := htotal

end numbers

/-- Every block that a key shows has the property. -/
def OfShown (around : Surroundings) (P : BlockImage → Cell → Prop) (e : Editor)
    (scancode : BitVec 8) : Prop :=
  ∀ n, pageTarget around e scancode = some n → P around.image n

/-- As long as the keys store inside their arrays, the number of the block stays in the image; and
the editor reads cells of the block it shows only, exactly when that block and those that the keys
turn to end with paired tags of two-cell words. -/
theorem editor_readsOwn_iff (around : Surroundings) (htotal : 1 ≤ around.image.totalBlocks)
    (s : Forth) (keys : List (BitVec 8 × Editor))
    (hrun : Path (KeyStep around) (editor around.image s) keys)
    (hstores : Guarded (StoresInside around) (editor around.image s) keys) :
    (∀ x ∈ keys, ShowsBlock around x.2) ∧
      ((ReadsOwn around.image 0 ∧ Guarded (OfShown around ReadsOwn) (editor around.image s) keys) ↔
        (EndsPaired around.image 0 ∧
          Guarded (OfShown around EndsPaired) (editor around.image s) keys)) := by
  have hstart := editor_showsBlock htotal s
  have hinside := hrun.and_guarded hstores
  have hkeeps : ∀ e k e', ShowsBlock around e →
      StoresInside around e k ∧ KeyStep around e k e' → ShowsBlock around e' :=
    fun _ _ _ he hk => hk.2.showsBlock hk.1 he
  refine ⟨hinside.invariant hkeeps hstart, and_congr (readsOwn_iff _ htotal) ?_⟩
  have hiff : ∀ e k, ShowsBlock around e →
      (OfShown around ReadsOwn e k ↔ OfShown around EndsPaired e k) := fun e k he =>
    forall_congr' fun n => imp_congr_right fun hn => readsOwn_iff _ (pageTarget_lt he hn)
  exact hinside.along_iff_guarded
    (fun e k e' he hg hk => ⟨hkeeps e k e' he hk, (hiff e k he).mpr hg⟩)
    (fun e k e' he _ hr => (hiff e k he).mp hr) hstart

section ConcreteImages

/-- Two blocks of zeros. -/
def twoBlocks : Surroundings := surroundingsOf ⟨fun _ => 0, 2, by decide⟩

theorem editor_readsOwn_iff_twoBlocks :
    let start := editor twoBlocks.image colorforthInitialize
    let keys := [(keyPageDown, turnPage twoBlocks 1 { start with escape := false })]
    1 ≤ twoBlocks.image.totalBlocks ∧ Path (KeyStep twoBlocks) start keys ∧
      Guarded (StoresInside twoBlocks) start keys ∧
      ((ReadsOwn twoBlocks.image 0 ∧ Guarded (OfShown twoBlocks ReadsOwn) start keys) ↔
        (EndsPaired twoBlocks.image 0 ∧ Guarded (OfShown twoBlocks EndsPaired) start keys)) := by
  have hpath : Path (KeyStep twoBlocks) (editor twoBlocks.image colorforthInitialize)
      [(keyPageDown, turnPage twoBlocks 1
        { editor twoBlocks.image colorforthInitialize with escape := false })] :=
    .cons (fun _ => ⟨[], 0, handleInput_page rfl [] 0⟩) (.nil _)
  have hstores : Guarded (StoresInside twoBlocks)
      (editor twoBlocks.image colorforthInitialize) [(keyPageDown, turnPage twoBlocks 1
        { editor twoBlocks.image colorforthInitialize with escape := false })] :=
    ⟨storesInside_of_special (by decide) (by decide), trivial⟩
  exact ⟨by decide, hpath, hstores,
    (editor_readsOwn_iff twoBlocks (by decide) _ _ hpath hstores).2⟩

/-- A big number begins in the last cell of the only block. -/
def numberCut : Surroundings := surroundingsOf (oneBlock fun i => if i = 255 then 5 else 0)

/-- The first block that the editor shows makes it read the cell behind the image. -/
theorem numberCut_reads_outside : ¬ ∀ around : Surroundings, 1 ≤ around.image.totalBlocks →
    ∀ (s : Forth) (keys : List (BitVec 8 × Editor)),
      Path (KeyStep around) (editor around.image s) keys →
        (∀ x ∈ keys, ShowsBlock around x.2) ∧ ReadsOwn around.image 0 ∧
          Guarded (OfShown around ReadsOwn) (editor around.image s) keys := by
  intro h
  obtain ⟨-, hown, -⟩ := h numberCut (by decide) colorforthInitialize [] (.nil _)
  have hpaired := (readsOwn_iff numberCut.image (by decide)).mp hown
  revert hpaired
  decide +kernel

end ConcreteImages

end Einherjar.Colorforth
