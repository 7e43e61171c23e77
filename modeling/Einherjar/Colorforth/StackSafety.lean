import Einherjar.Colorforth.BlockWalk
import Einherjar.Colorforth.StackFrame

/-! No word checks the data stack, the number of a block or a divisor. An execution stays on the
stack and in the blocks exactly when each of its steps finds what it needs. -/
namespace Einherjar.Colorforth
open Einherjar.Io Einherjar.Lib

/-- The stack pointer is on the stack. -/
def Forth.OnStack (s : Forth) : Prop := 0 ≤ s.tos ∧ s.tos ≤ stackSize

def BlockExists (totalBlocks : ℕ) (n : Cell) : Prop := 0 ≤ n.toInt ∧ n.toInt < totalBlocks

/-- The division is by zero or overflows. -/
def DivisionFaults (b a : Cell) : Prop := a = 0 ∨ b = 0x80000000#32 ∧ a = -1

namespace Event

/-- The access stays on the stack and in the blocks, and the processor comes back from it. -/
def Allowed (totalBlocks : ℕ) : Event → Prop
  | .block n => BlockExists totalBlocks n
  | .divide b a => ¬ DivisionFaults b a
  | access => access.OnStack

end Event

/-- How many cells a built-in word pops. -/
def Builtin.operands : Builtin → ℕ
  | .comma | .forth | .macroWord => 0
  | .load | .dot => 1
  | .loads | .add | .divide => 2

/-- What a built-in word needs: its operands, and operands that it can work with. -/
structure Builtin.Ready (totalBlocks : ℕ) (b : Builtin) (s : Forth) : Prop where
  operands : b.operands ≤ s.tos
  block : b = .load → BlockExists totalBlocks s.top
  divisor : b = .divide → ¬ DivisionFaults s.drop.top s.top

namespace Event

/-- The step finds what it needs: an iteration of `loads` room for its number, and the block. -/
def Ready (totalBlocks : ℕ) : Event → Prop
  | .number s => s.tos < stackSize
  | .word b s => b.Ready totalBlocks s
  | .iteration i s => s.tos < stackSize ∧ BlockExists totalBlocks i
  | _ => True

end Event

section bounds

variable {s : Forth}

theorem Forth.OnStack.push (h : s.OnStack) (hroom : s.tos < stackSize) (x : Cell) :
    (s.push x).OnStack :=
  ⟨Int.add_nonneg h.1 Int.one_nonneg, hroom⟩

theorem Forth.OnStack.drop (h : s.OnStack) (hpos : 0 < s.tos) : s.drop.OnStack :=
  ⟨Int.le_sub_one_of_lt hpos, (Int.sub_le_self _ Int.one_nonneg).trans h.2⟩

@[simp] theorem top_push (s : Forth) (x : Cell) : (s.push x).top = x := by
  change Function.update s.stack s.tos x (s.tos + 1 - 1) = x
  rw [Int.add_sub_cancel, Function.update_self]

/-- A block of the image has all its cells in the image. -/
theorem runBlockCells_lt {image : BlockImage} {n : Cell} (hn : BlockExists image.totalBlocks n) :
    ∀ i ∈ runBlockCells n, i < 256 * image.totalBlocks := by
  have hsmall := image.small
  have hlt : n.toNat < image.totalBlocks := by
    obtain ⟨h0, hlt⟩ := hn
    rw [BitVec.toInt_eq_toNat_cond] at h0 hlt
    split_ifs at h0 hlt <;> omega
  intro i hi
  rw [runBlockCells_eq (hlt.trans hsmall), ← List.range'_1_concat] at hi
  obtain ⟨-, hi⟩ := List.mem_range'_1.mp hi
  omega

end bounds

namespace Watched

variable {totalBlocks : ℕ} {s : Forth}

/-- The accesses are allowed exactly when the steps are ready, and then the stack pointer stays
on the stack. -/
abbrev Safe (totalBlocks : ℕ) (x : Traced Event Forth) : Prop :=
  Traced.Agree (Event.Allowed totalBlocks) (Event.Ready totalBlocks) Forth.OnStack x

theorem safe_stackPush (hs : s.OnStack) (hroom : s.tos < stackSize) (x : Cell) :
    Safe totalBlocks (stackPush x s) :=
  .after ⟨hs.1, hroom⟩ trivial (.done (hs.push hroom x))

theorem safe_stackPop (hs : s.OnStack) (hpos : 0 < s.tos)
    {rest : Cell → Forth → Traced Event Forth}
    (hrest : s.drop.OnStack → Safe totalBlocks (rest s.top s.drop)) :
    Safe totalBlocks (stackPop s rest) :=
  .after ⟨hpos, hs.2⟩ trivial (hrest (hs.drop hpos))

theorem pos_of_allowed {rest : Cell → Forth → Traced Event Forth}
    (h : (stackPop s rest).All (Event.Allowed totalBlocks)) :
    0 < s.tos ∧ (rest s.top s.drop).All (Event.Allowed totalBlocks) := by
  obtain ⟨hpop, hrest⟩ := Traced.all_after.mp h
  exact ⟨hpop.1, hrest⟩

theorem two_le_of_allowed {rest : Cell → Cell → Forth → Traced Event Forth}
    (h : (stackPop s fun a s => stackPop s fun b s => rest a b s).All
      (Event.Allowed totalBlocks)) :
    2 ≤ s.tos ∧ (rest s.top s.drop.top s.drop.drop).All (Event.Allowed totalBlocks) := by
  obtain ⟨-, h⟩ := pos_of_allowed h
  obtain ⟨hpos, hrest⟩ := pos_of_allowed h
  change 0 < s.tos - 1 at hpos
  exact ⟨by omega, hrest⟩

/-- Two pops. -/
theorem safe_pops (hs : s.OnStack) (htwo : 2 ≤ s.tos)
    {rest : Cell → Cell → Forth → Traced Event Forth}
    (hrest : s.drop.drop.OnStack → Safe totalBlocks (rest s.top s.drop.top s.drop.drop)) :
    Safe totalBlocks (stackPop s fun a s => stackPop s fun b s => rest a b s) := by
  have hpos : 0 < s.drop.tos := Int.lt_sub_right_of_add_lt (Int.lt_of_add_one_le htwo)
  apply safe_stackPop hs (lt_of_lt_of_le two_pos htwo)
  exact fun hdrop => safe_stackPop hdrop hpos hrest

section words

variable {run : Cell → Forth → Traced Event Forth}

/-- `run` is safe on the blocks that exist, and does not begin with any other. -/
structure RunsBlocks (totalBlocks : ℕ) (run : Cell → Forth → Traced Event Forth) : Prop where
  safe : ∀ n s, s.OnStack → BlockExists totalBlocks n → Safe totalBlocks (run n s)
  exists_of_allowed : ∀ n s, (run n s).All (Event.Allowed totalBlocks) → BlockExists totalBlocks n

theorem safe_loadsLoop (hrun : RunsBlocks totalBlocks run) (j : Cell) (fuel : ℕ) (i : Cell)
    (hs : s.OnStack) : Safe totalBlocks (loadsLoop run j fuel i s) := by
  induction fuel generalizing i s with
  | zero => exact .quiet fun _ h => nomatch h
  | succ fuel ih =>
    unfold loadsLoop
    split_ifs
    · simp only [stackPush, load, stackPop, Traced.after_bind, Traced.quiet_done_bind, top_push]
      apply Traced.Agree.asks trivial
      · intro hready
        have hpush := hs.push hready.1 i
        have hdrop := hpush.drop (Int.lt_add_one_of_le hs.1)
        apply Traced.Agree.after ⟨hs.1, hready.1⟩ trivial
        apply Traced.Agree.after ⟨Int.lt_add_one_of_le hs.1, hpush.2⟩ trivial
        exact (hrun.safe i _ hdrop hready.2).bind fun _ ht => ih (i + 2) ht
      · intro hnot hall
        obtain ⟨hpush, hall⟩ := Traced.all_after.mp hall
        obtain ⟨-, hall⟩ := Traced.all_after.mp hall
        exact hnot ⟨hpush.2, hrun.exists_of_allowed _ _ (Traced.all_bind.mp hall).1⟩
    · exact .done hs

/-- The words that need nothing. -/
theorem safe_idle {b : Builtin} (hb : b.operands = 0) (hne : b ≠ .load ∧ b ≠ .divide) {t : Forth}
    (hs : s.OnStack) (ht : t.OnStack) :
    Safe totalBlocks (.after (.word b s) (.quiet (.done t))) := by
  apply Traced.Agree.after trivial _ (.done ht)
  exact ⟨hb ▸ hs.1, fun h => absurd h hne.1, fun h => absurd h hne.2⟩

theorem safe_load (hrun : RunsBlocks totalBlocks run) (hs : s.OnStack) :
    Safe totalBlocks (.after (.word .load s) (load run s)) := by
  apply Traced.Agree.asks trivial
  · intro hready
    apply safe_stackPop hs (Int.lt_of_add_one_le hready.operands)
    exact fun hdrop => hrun.safe _ _ hdrop (hready.block rfl)
  · intro hnot hall
    obtain ⟨hpos, hall⟩ := pos_of_allowed hall
    exact hnot ⟨hpos, fun _ => hrun.exists_of_allowed _ _ hall, by simp⟩

theorem safe_loads (hrun : RunsBlocks totalBlocks run) (fuel : ℕ) (hs : s.OnStack)
    :
    Safe totalBlocks (.after (.word .loads s) (loads fuel run s)) := by
  apply Traced.Agree.asks trivial
  · intro hready
    apply safe_pops hs hready.operands
    exact fun hdrop => safe_loadsLoop hrun _ _ _ hdrop
  · intro hnot hall
    exact hnot ⟨(two_le_of_allowed hall).1, by simp, by simp⟩

theorem safe_dot (hs : s.OnStack) :
    Safe totalBlocks (.after (.word .dot s) (dot s)) := by
  apply Traced.Agree.asks trivial
  · intro hready
    exact safe_stackPop hs (Int.lt_of_add_one_le hready.operands) fun hdrop => .done hdrop
  · intro hnot hall
    exact hnot ⟨(pos_of_allowed hall).1, by simp, by simp⟩

/-- After two pops there is room for a push. -/
theorem room_of_onStack (hs : s.OnStack) : s.drop.drop.tos < stackSize := by
  have := hs.2
  change s.tos - 1 - 1 < stackSize
  omega

theorem safe_add (hs : s.OnStack) :
    Safe totalBlocks (.after (.word .add s) (add s)) := by
  apply Traced.Agree.asks trivial
  · intro hready
    apply safe_pops hs hready.operands
    exact fun hdrop => safe_stackPush hdrop (room_of_onStack hs) _
  · intro hnot hall
    exact hnot ⟨(two_le_of_allowed hall).1, by simp, by simp⟩

theorem safe_divide (hs : s.OnStack) :
    Safe totalBlocks (.after (.word .divide s) (divide s)) := by
  apply Traced.Agree.asks trivial
  · intro hready
    have hdivisor := hready.divisor rfl
    apply safe_pops hs hready.operands
    intro hdrop
    apply Traced.Agree.after
    · exact hdivisor
    · trivial
    · split_ifs with hfaults
      · exact absurd hfaults hdivisor
      · exact safe_stackPush hdrop (room_of_onStack hs) _
  · intro hnot hall
    obtain ⟨htwo, hall⟩ := two_le_of_allowed hall
    exact hnot ⟨htwo, by simp, fun _ => (Traced.all_after.mp hall).1⟩

theorem safe_execute (hrun : RunsBlocks totalBlocks run) (fuel : ℕ) (word : DictionaryWord)
    (hs : s.OnStack) : Safe totalBlocks (execute fuel run word s) := by
  have hs : Forth.OnStack { s with ip := some word.codeAddress } := hs
  unfold execute
  cases word.codeAddress with
  | comma => exact safe_idle rfl (by decide) hs hs
  | load => exact safe_load hrun hs
  | loads => exact safe_loads hrun fuel hs
  | forth => exact safe_idle rfl (by decide) hs hs
  | macroWord => exact safe_idle rfl (by decide) hs hs
  | dot => exact safe_dot hs
  | add => exact safe_add hs
  | divide => exact safe_divide hs

theorem safe_dispatchWord (hrun : RunsBlocks totalBlocks run) (fuel : ℕ) (word : Cell)
    (hs : s.OnStack) : Safe totalBlocks (dispatchWord fuel run word s) := by
  unfold dispatchWord
  split
  · unfold interpretForthWord
    cases lookupWord word .forthDictionary with
    | none => exact .done hs
    | some foundWord => exact safe_execute hrun fuel foundWord hs
  · apply Traced.Agree.asks trivial
    · exact fun hroom => safe_stackPush hs hroom _
    · exact fun hnot hall => hnot (Traced.all_after.mp hall).1.2
  · exact .done hs

end words

/-- Whatever the blocks contain. -/
theorem runsBlocks (totalBlocks : ℕ) (blocks : ℕ → Cell) (fuel : ℕ) :
    RunsBlocks totalBlocks (runBlock blocks fuel) := by
  induction fuel with
  | zero =>
    constructor
    · exact fun n s _ hn => .after hn trivial (.quiet fun _ h => nomatch h)
    · exact fun n s hall => (Traced.all_after.mp hall).1
  | succ fuel ih =>
    constructor
    · intro n s hs hn
      apply Traced.Agree.after
      · exact hn
      · trivial
      · exact .forEach (fun i _ hs => safe_dispatchWord ih fuel (blocks i) hs) _ hs
    · exact fun n s hall => (Traced.all_after.mp hall).1

theorem safe_doCmd (codeAddress : BitVec 32) (fuel : ℕ)
    {run : Cell → Forth → Traced Event Forth} (hrun : RunsBlocks totalBlocks run)
    (word : List Char) (hs : s.OnStack) : Safe totalBlocks (doCmd codeAddress fuel run word s) := by
  have hdispatch : ∀ packed, ∀ t : Forth, t.OnStack →
      Safe totalBlocks (dispatchCommand fuel run packed t) := by
    intro packed t ht
    exact (safe_dispatchWord hrun fuel packed ht).bind fun u hu => .done hu
  unfold doCmd
  split_ifs
  · exact hdispatch _ _ hs
  · refine Traced.Agree.bind (I := fun _ => True) (.quiet fun _ _ => trivial) fun packed _ => ?_
    dsimp only
    cases lookupWord (packed &&& 0xfffffff0#32 ||| interpretWordTag) .forthDictionary with
    | none => exact .done hs
    | some _ => exact hdispatch _ _ hs

end Watched

/-- A sequence of words is typed at the prompt. -/
def commands (codeAddress : BitVec 32) (blocks : ℕ → Cell) (fuel : ℕ) (typed : List (List Char))
    (s : Forth) : Outcome Forth :=
  .forEach (doCmd codeAddress fuel (runBlock blocks fuel)) typed s

def Watched.commands (codeAddress : BitVec 32) (blocks : ℕ → Cell) (fuel : ℕ)
    (typed : List (List Char)) (s : Forth) : Traced Event Forth :=
  .forEach (doCmd codeAddress fuel (runBlock blocks fuel)) typed s

theorem Watched.outcome_commands (codeAddress : BitVec 32) (blocks : ℕ → Cell) (fuel : ℕ)
    (typed : List (List Char)) (s : Forth) :
    (commands codeAddress blocks fuel typed s).outcome =
      Colorforth.commands codeAddress blocks fuel typed s := by
  unfold commands Colorforth.commands
  simp only [Traced.outcome_forEach, outcome_doCmd, outcome_runBlock]

/-- Whatever is typed after the start, as far as its execution goes: it stays on the stack, runs
blocks of the image only and divides without a fault exactly when every number, every built-in
word and every iteration of `loads` finds what it needs in the state before it. -/
theorem commands_allowed_iff (image : BlockImage) (codeAddress : BitVec 32) (fuel : ℕ)
    (typed : List (List Char)) :
    let run := Watched.commands codeAddress image.cells fuel typed colorforthInitialize
    (run.All (Event.Ready image.totalBlocks) ↔ run.All (Event.Allowed image.totalBlocks)) ∧
      (run.All (Event.Ready image.totalBlocks) →
        (∀ n, .block n ∈ run.events → ∀ i ∈ runBlockCells n, i < 256 * image.totalBlocks) ∧
        ∀ t, commands codeAddress image.cells fuel typed colorforthInitialize = .done t →
          t.OnStack) := by
  intro run
  have hstart : colorforthInitialize.OnStack := ⟨le_rfl, Int.natCast_nonneg _⟩
  have hsafe : Watched.Safe image.totalBlocks run := by
    apply Traced.Agree.forEach _ _ hstart
    exact fun word s hs => Watched.safe_doCmd codeAddress fuel (Watched.runsBlocks _ _ _) word hs
  refine ⟨hsafe.iff.symm, fun hready => ⟨fun n hn => ?_, fun t ht => ?_⟩⟩
  · exact runBlockCells_lt (hsafe.iff.mpr hready _ hn)
  · apply hsafe.returns (hsafe.iff.mpr hready) t
    exact (Watched.outcome_commands codeAddress image.cells fuel typed _).trans ht

/-- The word `.` on the empty stack prints the cell below the stack and leaves the pointer
there. -/
theorem dot_below_stack : ¬ ∀ (image : BlockImage) (codeAddress : BitVec 32) (fuel : ℕ)
    (typed : List (List Char)) (t : Forth),
      commands codeAddress image.cells fuel typed colorforthInitialize = .done t →
        t.OnStack ∧ (Watched.commands codeAddress image.cells fuel typed colorforthInitialize).All
          (Event.Allowed image.totalBlocks) := by
  intro h
  have hdone : ((commands 0 (fun _ => 0) 0 [['.']] colorforthInitialize).bind fun t =>
      .done t.tos) = .done (-1) := by decide +kernel
  obtain ⟨t, ht, htos⟩ := Outcome.bind_eq_done hdone
  have hbelow := (h ⟨fun _ => 0, 1, by decide⟩ 0 0 [['.']] t ht).1.1
  rw [Outcome.done.inj htos] at hbelow
  exact absurd hbelow (by decide)

end Einherjar.Colorforth
