import Mathlib.Algebra.Group.Int.Defs
import Einherjar.Colorforth.Interpreter

/-! `loads` executes every other block from `i` to `j`, unless its counter overflows. The cells
above the top of the stack, where it leaves block numbers, do not matter to any word. -/
namespace Einherjar.Colorforth
open Einherjar.Io Einherjar.Lib

/-- The same state, up to the memory from the top of the stack on. -/
structure SameStack (s t : Forth) : Prop where
  tos : t.tos = s.tos
  below : ∀ i < s.tos, t.stack i = s.stack i
  selectedDictionary : t.selectedDictionary = s.selectedDictionary
  isHex : t.isHex = s.isHex
  ip : t.ip = s.ip
  calls : t.calls = s.calls

/-- The numbers `i`, `i + 2`, `i + 4` and so on that do not exceed `j`. -/
def loadedBlocks (i j : Cell) : List Cell :=
  (List.range ((j.toInt - i.toInt + 2) / 2).toNat).map fun k : ℕ =>
    BitVec.ofInt 32 (i.toInt + 2 * k)

/-- The number after the last of these is still a signed number of 32 bits. -/
def StepsEnd (i j : Cell) : Prop :=
  j.toInt < i.toInt ∨ i.toInt + 2 * ((j.toInt - i.toInt) / 2) + 2 < 2 ^ 31

namespace SameStack

variable {s t : Forth}

theorem refl (s : Forth) : SameStack s s := ⟨rfl, fun _ _ => rfl, rfl, rfl, rfl, rfl⟩

theorem top (h : SameStack s t) : t.top = s.top := by
  unfold Forth.top
  rw [h.tos]
  exact h.below _ (Int.sub_one_lt_of_le le_rfl)

theorem drop (h : SameStack s t) : SameStack s.drop t.drop where
  tos := congrArg (· - 1) h.tos
  below i hi := h.below i (hi.trans (Int.sub_one_lt_of_le le_rfl))
  selectedDictionary := h.selectedDictionary
  isHex := h.isHex
  ip := h.ip
  calls := h.calls

theorem push (h : SameStack s t) (x : Cell) : SameStack (s.push x) (t.push x) where
  tos := congrArg (· + 1) h.tos
  below i hi := by
    change Function.update t.stack t.tos x i = Function.update s.stack s.tos x i
    rw [h.tos]
    by_cases htop : i = s.tos
    · rw [htop, Function.update_self, Function.update_self]
    · rw [Function.update_of_ne htop, Function.update_of_ne htop]
      exact h.below i (lt_of_le_of_ne (Int.lt_add_one_iff.mp hi) htop)
  selectedDictionary := h.selectedDictionary
  isHex := h.isHex
  ip := h.ip
  calls := h.calls

theorem call (h : SameStack s t) (calls : List VgaCall) : SameStack (s.call calls) (t.call calls) :=
  ⟨h.tos, h.below, h.selectedDictionary, h.isHex, h.ip, congrArg (· ++ calls) h.calls⟩

theorem select (h : SameStack s t) (dictionary : Dictionary) :
    SameStack { s with selectedDictionary := dictionary }
      { t with selectedDictionary := dictionary } :=
  ⟨h.tos, h.below, rfl, h.isHex, h.ip, h.calls⟩

theorem enter (h : SameStack s t) (b : Builtin) :
    SameStack { s with ip := some b } { t with ip := some b } :=
  ⟨h.tos, h.below, h.selectedDictionary, h.isHex, rfl, h.calls⟩

/-- `loads` pushes the number of a block only for `load` to pop it. -/
theorem push_drop (h : SameStack s t) (x : Cell) : SameStack s (t.push x).drop where
  tos := (Int.add_sub_cancel t.tos 1).trans h.tos
  below i hi := by
    change Function.update t.stack t.tos x i = s.stack i
    rw [Function.update_of_ne (by rw [h.tos]; exact hi.ne)]
    exact h.below i hi
  selectedDictionary := h.selectedDictionary
  isHex := h.isHex
  ip := h.ip
  calls := h.calls

end SameStack

section words

variable {run : Cell → Forth → Outcome Forth} {s t : Forth}

/-- Executions from states that are the same give states that are the same. -/
abbrev Same (x y : Outcome Forth) : Prop := Outcome.Rel SameStack x y

theorem top_push_drop (s : Forth) (x : Cell) : (s.push x).top = x := by
  change Function.update s.stack s.tos x (s.tos + 1 - 1) = x
  rw [Int.add_sub_cancel, Function.update_self]

theorem same_loadsLoop (hrun : ∀ n s t, SameStack s t → Same (run n s) (run n t)) (fuel : ℕ)
    (i j : Cell) (h : SameStack s t) :
    Same (loadsLoop run j fuel i s) (loadsLoop run j fuel i t) := by
  induction fuel generalizing i s t with
  | zero => exact .outOfFuel
  | succ fuel ih =>
    unfold loadsLoop
    split_ifs
    · refine Outcome.Rel.bind ?_ fun s t h => ih (i + 2) h
      unfold load
      rw [top_push_drop, top_push_drop]
      exact hrun i _ _ (h.push i).drop
    · exact .done h

theorem same_runBuiltin (hrun : ∀ n s t, SameStack s t → Same (run n s) (run n t)) (b : Builtin)
    (fuel : ℕ) (h : SameStack s t) : Same (runBuiltin b fuel run s) (runBuiltin b fuel run t) := by
  cases b with
  | comma => exact .done h
  | load =>
    change Same (run s.top s.drop) (run t.top t.drop)
    rw [h.top]
    exact hrun _ _ _ h.drop
  | loads =>
    change Same (loadsLoop run s.top fuel s.drop.top s.drop.drop)
      (loadsLoop run t.top fuel t.drop.top t.drop.drop)
    rw [h.top, h.drop.top]
    exact same_loadsLoop hrun fuel _ _ h.drop.drop
  | forth => exact .done (h.select _)
  | macroWord => exact .done (h.select _)
  | dot =>
    change Same (dot s) (dot t)
    unfold dot
    rw [h.top]
    exact .done (h.drop.call _)
  | add =>
    change Same (add s) (add t)
    unfold add
    rw [h.top, h.drop.top]
    exact .done (h.drop.drop.push _)
  | divide =>
    change Same (divide s) (divide t)
    unfold divide
    rw [h.top, h.drop.top]
    split_ifs
    · exact .stopped
    · exact .done (h.drop.drop.push _)

theorem same_dispatchWord (hrun : ∀ n s t, SameStack s t → Same (run n s) (run n t)) (fuel : ℕ)
    (word : Cell) (h : SameStack s t) :
    Same (dispatchWord fuel run word s) (dispatchWord fuel run word t) := by
  unfold dispatchWord colorWordAction
  split
  · unfold interpretForthWord
    cases lookupWord word .forthDictionary with
    | none => exact .done h
    | some foundWord => exact same_runBuiltin hrun _ fuel (h.enter _)
  case h_8 => exact .done (h.push _)
  all_goals exact .done h

theorem same_runBlock (blocks : ℕ → Cell) (fuel : ℕ) (n : Cell) (h : SameStack s t) :
    Same (runBlock blocks fuel n s) (runBlock blocks fuel n t) := by
  induction fuel generalizing n s t with
  | zero => exact .outOfFuel
  | succ fuel ih =>
    exact Outcome.Rel.forEach
      (fun i s t h => same_dispatchWord (fun n s t h => ih n h) fuel (blocks i) h) _ h

end words

section counting

variable {i j : Cell}

theorem sle_iff (i j : Cell) : i.sle j = true ↔ i.toInt ≤ j.toInt := by
  rw [BitVec.sle, decide_eq_true_iff]

theorem loadedBlocks_of_not_sle (h : ¬ i.sle j = true) : loadedBlocks i j = [] := by
  rw [sle_iff] at h
  rw [loadedBlocks, show ((j.toInt - i.toInt + 2) / 2).toNat = 0 by omega]
  rfl

/-- The counter does not overflow on the way to the next number. -/
theorem StepsEnd.toInt_next (hend : StepsEnd i j) (h : i.sle j = true) :
    (i + 2).toInt = i.toInt + 2 := by
  rw [sle_iff] at h
  have hle := @BitVec.le_toInt 32 i
  unfold StepsEnd at hend
  rw [BitVec.toInt_add, show (2 : BitVec 32).toInt = 2 from rfl]
  exact Int.bmod_eq_of_le (by omega) (by omega)

theorem StepsEnd.next (hend : StepsEnd i j) (h : i.sle j = true) : StepsEnd (i + 2) j := by
  have hnext := hend.toInt_next h
  rw [sle_iff] at h
  unfold StepsEnd at hend ⊢
  rw [hnext]
  omega

theorem StepsEnd.loadedBlocks_cons (hend : StepsEnd i j) (h : i.sle j = true) :
    loadedBlocks i j = i :: loadedBlocks (i + 2) j := by
  have hnext := hend.toInt_next h
  rw [sle_iff] at h
  obtain ⟨c, hc⟩ : ∃ c, ((j.toInt - i.toInt + 2) / 2).toNat = c + 1 :=
    Nat.exists_eq_succ_of_ne_zero (by omega)
  unfold loadedBlocks
  rw [hnext, hc, show ((j.toInt - (i.toInt + 2) + 2) / 2).toNat = c by omega,
    List.range_succ_eq_map, List.map_cons, List.map_map]
  congr 1
  · rw [Int.natCast_zero, Int.mul_zero, Int.add_zero, BitVec.ofInt_toInt]
  · apply List.map_congr_left
    intro k _
    change BitVec.ofInt 32 (i.toInt + 2 * (k + 1 : ℕ)) = BitVec.ofInt 32 (i.toInt + 2 + 2 * (k : ℤ))
    congr 1
    push_cast
    omega

/-- The loop of `loads` executes these blocks. -/
theorem loadsLoop_forEach {run : Cell → Forth → Outcome Forth}
    (hrun : ∀ n s t, SameStack s t → Same (run n s) (run n t)) {fuel : ℕ} {s s' t : Forth}
    (hend : StepsEnd i j) (hfuel : (loadedBlocks i j).length < fuel) (h : SameStack s s')
    (ht : Outcome.forEach run (loadedBlocks i j) s = .done t) :
    ∃ t', loadsLoop run j fuel i s' = .done t' ∧ SameStack t t' := by
  induction fuel generalizing i s s' with
  | zero => omega
  | succ fuel ih =>
    unfold loadsLoop
    by_cases hij : i.sle j = true
    · rw [hend.loadedBlocks_cons hij] at hfuel ht
      obtain ⟨u, hu, hrest⟩ := Outcome.bind_eq_done ht
      obtain ⟨u', hu', hsame⟩ := (hrun i _ _ (h.push_drop i)).exists_done hu
      have hload : load run (s'.push i) = .done u' := by
        unfold load
        rw [top_push_drop]
        exact hu'
      rw [if_pos hij, hload, Outcome.done_bind]
      exact ih (hend.next hij) (Nat.lt_of_succ_lt_succ hfuel) hsame hrest
    · rw [loadedBlocks_of_not_sle hij] at ht
      obtain rfl := Outcome.done.inj ht
      rw [if_neg hij]
      exact ⟨s', rfl, h⟩

/-- No number of the counter's parity exceeds `j`. -/
def NeverExceeds (i j : Cell) : Prop :=
  j.toInt = 2 ^ 31 - 1 ∨ j.toInt = 2 ^ 31 - 2 ∧ i.toInt % 2 = 0

theorem neverExceeds_of_not_stepsEnd (hend : ¬ StepsEnd i j) : NeverExceeds i j := by
  have hlt := @BitVec.toInt_lt 32 j
  unfold StepsEnd at hend
  unfold NeverExceeds
  omega

theorem NeverExceeds.sle (h : NeverExceeds i j) : i.sle j = true := by
  have hlt := @BitVec.toInt_lt 32 i
  rw [sle_iff]
  unfold NeverExceeds at h
  omega

theorem NeverExceeds.next (h : NeverExceeds i j) : NeverExceeds (i + 2) j := by
  have hparity : (i + 2).toInt % 2 = i.toInt % 2 := by
    rw [BitVec.toInt_add, show (2 : BitVec 32).toInt = 2 from rfl, Int.bmod_def]
    omega
  unfold NeverExceeds at h ⊢
  omega

theorem loadsLoop_endless {run : Cell → Forth → Outcome Forth} (h : NeverExceeds i j) (fuel : ℕ)
    (s t : Forth) : loadsLoop run j fuel i s ≠ .done t := by
  induction fuel generalizing i s with
  | zero => exact fun ht => by cases ht
  | succ fuel ih =>
    unfold loadsLoop
    rw [if_pos h.sle]
    intro ht
    obtain ⟨u, -, hrest⟩ := Outcome.bind_eq_done ht
    exact ih h.next u hrest

end counting

/-- When the blocks `i`, `i + 2` and so on up to `j` can be executed one after another, `loads`
returns in the state after them, if and only if its counter does not overflow behind the last of
them. -/
theorem loads_runs_iff (blocks : ℕ → Cell) (s t : Forth) (fuel : ℕ)
    (ht : Outcome.forEach (runBlock blocks fuel) (loadedBlocks s.drop.top s.top) s.drop.drop =
      .done t) :
    (∃ fuel t', loads fuel (runBlock blocks fuel) s = .done t' ∧ SameStack t t') ↔
      StepsEnd s.drop.top s.top := by
  constructor
  · rintro ⟨fuel, t', hloads, -⟩
    by_contra hend
    exact loadsLoop_endless (neverExceeds_of_not_stepsEnd hend) fuel _ t' hloads
  · intro hend
    let enough := max fuel ((loadedBlocks s.drop.top s.top).length + 1)
    have hblocks : Outcome.forEach (runBlock blocks enough) (loadedBlocks s.drop.top s.top)
        s.drop.drop = .done t := by
      refine Outcome.eq_done_of_le (Outcome.forEach_mono (fun n s => ?_) _ _) ht
      exact runBlock_mono blocks n s (le_max_left ..)
    exact ⟨enough, loadsLoop_forEach (fun n s t h => same_runBlock blocks enough n h) hend
      (lt_of_lt_of_le (Nat.lt_succ_self _) (le_max_right ..)) (.refl _) hblocks⟩

/-- A block of zeros does nothing. -/
theorem runBlock_zeros (fuel : ℕ) (n : Cell) (s : Forth) :
    runBlock (fun _ => 0) (fuel + 1) n s = .done s :=
  Outcome.forEach_done (f := fun _ => dispatchWord fuel (runBlock (fun _ => 0) fuel) 0)
    (fun _ _ => rfl) (runBlockCells n) s

theorem forEach_zeros (ns : List Cell) (s : Forth) :
    Outcome.forEach (runBlock (fun _ => 0) 1) ns s = .done s :=
  Outcome.forEach_done (runBlock_zeros 0) ns s

theorem loads_runs_iff_zeros :
    (∃ fuel t', loads fuel (runBlock (fun _ => 0) fuel)
        ((colorforthInitialize.push 1).push 6) = .done t' ∧
      SameStack ((colorforthInitialize.push 1).push 6).drop.drop t') ↔
        StepsEnd ((colorforthInitialize.push 1).push 6).drop.top
          ((colorforthInitialize.push 1).push 6).top :=
  loads_runs_iff (fun _ => 0) ((colorforthInitialize.push 1).push 6)
    ((colorforthInitialize.push 1).push 6).drop.drop 1 (forEach_zeros _ _)

/-- From the largest number to the largest number. -/
theorem loads_largest : ¬ ∀ (blocks : ℕ → Cell) (s t : Forth) (fuel : ℕ),
    Outcome.forEach (runBlock blocks fuel) (loadedBlocks s.drop.top s.top) s.drop.drop = .done t →
      ∃ fuel t', loads fuel (runBlock blocks fuel) s = .done t' ∧ SameStack t t' := by
  intro h
  obtain ⟨fuel, t', hloads, -⟩ := h (fun _ => 0)
    ((colorforthInitialize.push 0x7fffffff).push 0x7fffffff) _ 1 (forEach_zeros _ _)
  exact loadsLoop_endless (.inl (by decide)) fuel _ t' hloads

end Einherjar.Colorforth
