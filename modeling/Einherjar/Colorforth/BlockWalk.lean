import Einherjar.Colorforth.Display

/-! The two walks over a block: the interpreter's, which passes cells to `dispatch_word`, and
the editor's, which passes cells to `display_word`. -/
namespace Einherjar.Colorforth
open Einherjar.Lib

/-- The blocks of an initial RAM disk. The cells go on into the memory after it; its size in
bytes fits in 32 bits. -/
structure BlockImage where
  cells : ℕ → Cell
  totalBlocks : ℕ
  small : totalBlocks < 2 ^ 22

/-- Dispatching the word at a position, with loads nested as deep as the fuel allows. -/
def dispatchAt (image : BlockImage) (fuel : ℕ) (i : ℕ) (s : Forth) : Outcome Forth :=
  dispatchWord fuel (runBlock image.cells fuel) (image.cells i) s

/-- `run_block(n)`, called in the state `s`, passes the positions `ps` to `dispatch_word`, in
this order, at its own level. A dispatch that does not return is the last one. -/
def RunBlockPasses (image : BlockImage) (n : Cell) (s : Forth) (ps : List ℕ) : Prop :=
  Outcome.Attempts (dispatchAt image) (runBlockCells n) s ps

/-- The positions that `display_block(n)` passes to `display_word`, in this order. -/
def displayBlockPositions (image : BlockImage) (n : Cell) : List ℕ :=
  (displayBlock image.cells n).map (·.position)

def RunBlockReturns (image : BlockImage) (n : Cell) (s : Forth) : Prop :=
  ∃ fuel t, runBlock image.cells fuel n s = .done t

/-- The second last cell of the block begins a word of two cells, and no cell before it does. -/
def EndsWithPayload (image : BlockImage) (n : ℕ) : Prop :=
  ownsPayload (image.cells (256 * n + 254)) ∧
    ∀ k < 254, ¬ ownsPayload (image.cells (256 * n + k))

theorem dispatchAt_mono (image : BlockImage) (i : ℕ) (s : Forth) :
    Monotone fun fuel => dispatchAt image fuel i s := by
  intro fuel fuel' h
  exact dispatchWord_mono (fun n s => runBlock_mono image.cells n s h) h _ _

/-- The positions passed are the same in every account of a run. -/
theorem runBlockPasses_unique {image : BlockImage} {n : Cell} {s : Forth} {ps qs : List ℕ}
    (hp : RunBlockPasses image n s ps) (hq : RunBlockPasses image n s qs) : ps = qs :=
  hp.unique (dispatchAt_mono image) hq

theorem runBlockPasses_exists (image : BlockImage) (n : Cell) (s : Forth) :
    ∃ ps, RunBlockPasses image n s ps := Outcome.attempts_exists _ _ s

/-- A word with a payload does nothing when it is dispatched. -/
theorem dispatchWord_of_ownsPayload {word : Cell} (h : ownsPayload word) (fuel : ℕ)
    (run : Cell → Forth → Outcome Forth) (s : Forth) : dispatchWord fuel run word s = .done s := by
  unfold dispatchWord
  rcases h with h | h | h
  all_goals
    rw [h]
    rfl

section bounds

variable {n : Cell}

theorem blockStart_toNat (hn : n.toNat < 2 ^ 22) : (n * 256).toNat = 256 * n.toNat := by
  rw [BitVec.toNat_mul, show (256 : BitVec 32).toNat = 256 from rfl]
  omega

theorem blockLimit_toNat (hn : n.toNat < 2 ^ 22) :
    ((n + 1) * 256).toNat = 256 * n.toNat + 256 := by
  rw [BitVec.toNat_mul, BitVec.toNat_add, show (256 : BitVec 32).toNat = 256 from rfl,
    show (1 : BitVec 32).toNat = 1 from rfl]
  omega

theorem runBlockCells_eq (hn : n.toNat < 2 ^ 22) :
    runBlockCells n = List.range' (256 * n.toNat) 254 ++ [256 * n.toNat + 254] := by
  have hlast : ((n + 1) * 256 - 1).toNat = 256 * n.toNat + 255 := by
    rw [BitVec.toNat_sub, blockLimit_toNat hn, show (1 : BitVec 32).toNat = 1 from rfl]
    omega
  simp only [runBlockCells, blockStart_toNat hn, hlast, Nat.add_sub_cancel_left]
  exact List.range'_1_concat

theorem displayBlock_eq (blocks : ℕ → Cell) (hn : n.toNat < 2 ^ 22) :
    displayBlock blocks n = displayFrom blocks (256 * n.toNat + 256) (256 * n.toNat) := by
  simp only [displayBlock, displayFrom, blockStart_toNat hn, blockLimit_toNat hn]

end bounds

/-- A walk that passes `k` positions without a gap leaves out at most the last cell. -/
theorem le_of_displayFrom_eq_range' {blocks : ℕ → Cell} {r i k : ℕ}
    (h : (displayFrom blocks (i + r) i).map (·.position) = List.range' i k) : r ≤ k + 1 := by
  induction r generalizing i k with
  | zero => exact Nat.zero_le _
  | succ r ih =>
    rw [displayFrom_of_lt blocks (by omega), List.map_cons] at h
    cases k with
    | zero => simp at h
    | succ k =>
      rw [List.range'_succ] at h
      have htail := (List.cons.inj h).2
      by_cases hpay : ownsPayload (blocks i)
      · rw [if_pos hpay] at htail
        by_cases hr : r ≤ 1
        · omega
        · rw [displayFrom_of_lt blocks (by omega), List.map_cons] at htail
          cases k with
          | zero => simp at htail
          | succ k =>
            rw [List.range'_succ] at htail
            have hhead : i + 2 = i + 1 := (List.cons.inj htail).1
            omega
      · rw [if_neg hpay, show i + (r + 1) = i + 1 + r by omega] at htail
        have := ih htail
        omega

/-- The last of `m + 2` cells is left out exactly when it is the only payload. -/
theorem displayFrom_eq_range'_iff (blocks : ℕ → Cell) (m i : ℕ) :
    (displayFrom blocks (i + (m + 2)) i).map (·.position) = List.range' i (m + 1) ↔
      ownsPayload (blocks (i + m)) ∧ ∀ k < m, ¬ ownsPayload (blocks (i + k)) := by
  induction m generalizing i with
  | zero =>
    rw [displayFrom_of_lt blocks (by omega)]
    by_cases hpay : ownsPayload (blocks i)
    · rw [if_pos hpay, displayFrom_of_le blocks (by omega)]
      simp [hpay]
    · rw [if_neg hpay, displayFrom_of_lt blocks (by omega)]
      simp [hpay]
  | succ m ih =>
    rw [displayFrom_of_lt blocks (by omega), List.map_cons, List.range'_succ]
    by_cases hpay : ownsPayload (blocks i)
    · refine iff_of_false ?_ fun h => h.2 0 (Nat.succ_pos m) hpay
      intro h
      have htail := (List.cons.inj h).2
      rw [if_pos hpay, displayFrom_of_lt blocks (by omega), List.map_cons,
        List.range'_succ] at htail
      have hhead : i + 2 = i + 1 := (List.cons.inj htail).1
      omega
    · rw [if_neg hpay, show i + (m + 1 + 2) = i + 1 + (m + 2) by omega, List.cons_inj_right, ih,
        show i + 1 + m = i + (m + 1) by omega]
      refine and_congr_right fun _ => ⟨fun h k hk => ?_, fun h k hk => ?_⟩
      · cases k with
        | zero => exact hpay
        | succ k =>
          rw [show i + (k + 1) = i + 1 + k by omega]
          exact h k (by omega)
      · rw [show i + 1 + k = i + (k + 1) by omega]
        exact h (k + 1) (by omega)

section walks

variable {image : BlockImage} {n : Cell} {s : Forth}

/-- The interpreter can only reach the editor's last position by passing all of its own. -/
theorem displayBlockPositions_of_passes (hn : n.toNat < 2 ^ 22)
    (h : RunBlockPasses image n s (displayBlockPositions image n)) :
    displayBlockPositions image n = runBlockCells n := by
  have hpre := h.isPrefix
  rw [runBlockCells_eq hn, ← List.range'_1_concat] at hpre ⊢
  obtain ⟨k, hk, heq⟩ : ∃ k ≤ 255,
      displayBlockPositions image n = List.range' (256 * n.toNat) k := by
    have hle : (displayBlockPositions image n).length ≤ 255 := by simpa using hpre.length_le
    have htake := List.prefix_iff_eq_take.mp hpre
    rw [List.take_range'_of_length_ge hle] at htake
    exact ⟨_, hle, htake⟩
  have hlen : 256 ≤ k + 1 := by
    unfold displayBlockPositions at heq
    rw [displayBlock_eq _ hn] at heq
    exact le_of_displayFrom_eq_range' heq
  rw [heq, show k = 255 by omega]

theorem displayBlockPositions_eq_iff (hn : n.toNat < 2 ^ 22) :
    displayBlockPositions image n = runBlockCells n ↔ EndsWithPayload image n.toNat := by
  rw [runBlockCells_eq hn, ← List.range'_1_concat]
  unfold displayBlockPositions
  rw [displayBlock_eq _ hn]
  exact displayFrom_eq_range'_iff image.cells 254 _

theorem runBlockReturns_iff (hn : n.toNat < 2 ^ 22)
    (hpay : ownsPayload (image.cells (256 * n.toNat + 254))) :
    RunBlockReturns image n s ↔
      ∃ fuel t, Outcome.forEach (dispatchAt image fuel) (List.range' (256 * n.toNat) 254) s =
        .done t := by
  constructor
  · intro hs
    obtain ⟨fuel, t, h⟩ := hs
    cases fuel with
    | zero => cases h
    | succ fuel =>
      rw [runBlock, runBlockCells_eq hn, Outcome.forEach_append] at h
      obtain ⟨u, hu, -⟩ := Outcome.bind_eq_done h
      exact ⟨fuel, u, hu⟩
  · intro hs
    obtain ⟨fuel, t, h⟩ := hs
    refine ⟨fuel + 1, t, ?_⟩
    rw [runBlock, runBlockCells_eq hn, Outcome.forEach_append]
    unfold dispatchAt at h
    rw [h, Outcome.done_bind, Outcome.forEach, dispatchWord_of_ownsPayload hpay]
    rfl

end walks

/-- The interpreter and the editor pass the same positions exactly when the block ends with the
only payload in it and its words return. -/
theorem runBlock_passes_displayed_iff (image : BlockImage) (n : Cell)
    (hn : n.toNat < image.totalBlocks) (s : Forth) :
    RunBlockPasses image n s (displayBlockPositions image n) ↔
      EndsWithPayload image n.toNat ∧ RunBlockReturns image n s := by
  have hsmall := hn.trans image.small
  constructor
  · intro h
    have heq := displayBlockPositions_of_passes hsmall h
    have hends := (displayBlockPositions_eq_iff hsmall).mp heq
    refine ⟨hends, (runBlockReturns_iff hsmall hends.1).mpr ?_⟩
    rw [heq] at h
    unfold RunBlockPasses at h
    rw [runBlockCells_eq hsmall] at h
    exact (Outcome.attempts_all_iff (dispatchAt_mono image) _ _ s).mp h
  · intro h
    obtain ⟨hends, hret⟩ := h
    rw [(displayBlockPositions_eq_iff hsmall).mpr hends]
    unfold RunBlockPasses
    rw [runBlockCells_eq hsmall]
    exact (Outcome.attempts_all_iff (dispatchAt_mono image) _ _ s).mpr
      ((runBlockReturns_iff hsmall hends.1).mp hret)

/-- An image of one block. -/
def oneBlock (cells : ℕ → Cell) : BlockImage := ⟨cells, 1, by decide⟩

/-- A block with the word dot in its last cell and nothing before it. -/
def dotLast : BlockImage := oneBlock fun i => if i = 255 then 0xea000001 else 0

/-- The editor displays the word in the last cell, and the interpreter does not execute it. -/
theorem dotLast_not_dispatched :
    ¬ ∀ (image : BlockImage) (n : Cell), n.toNat < image.totalBlocks →
      ∀ s, RunBlockPasses image n s (displayBlockPositions image n) := by
  intro h
  have hpasses := h dotLast 0 (by decide) colorforthInitialize
  have heq := displayBlockPositions_of_passes (by decide) hpasses
  have hends := ((displayBlockPositions_eq_iff (by decide)).mp heq).1
  revert hends
  decide

/-- A block with a big number in its last two cells. -/
def numberLast : BlockImage := oneBlock fun i => if i = 254 then 5 else 0

theorem runBlock_passes_displayed_iff_numberLast :
    (0 : Cell).toNat < numberLast.totalBlocks ∧
      (RunBlockPasses numberLast 0 colorforthInitialize (displayBlockPositions numberLast 0) ↔
        EndsWithPayload numberLast 0 ∧ RunBlockReturns numberLast 0 colorforthInitialize) :=
  ⟨by decide, runBlock_passes_displayed_iff numberLast 0 (by decide) colorforthInitialize⟩

end Einherjar.Colorforth
