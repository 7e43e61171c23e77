import Einherjar.Lib.MovingWalk
import Einherjar.Memory.PhysicalMemory

/-! The calls of the allocator keep its two lists in order, do what is said of them, and return. -/
namespace Einherjar.Memory
open Einherjar.Lib.TailQueue

private theorem lists_ne : RangeList.freeMemoryRanges ≠ .usedMemoryRanges := nofun

section Moves

variable {s : HeapState} {fs us xs ys : List (BitVec 32)} {d : BitVec 32}

theorem Lists.allocate (h : Lists s (xs ++ d :: ys) us) :
    Lists (s.move .freeMemoryRanges .usedMemoryRanges d) (xs ++ ys) (us ++ [d]) := by
  obtain ⟨hfree, hused⟩ := h.free.relink h.used lists_ne h.disjoint
  exact ⟨hfree, hused, h.free.relink_disjoint h.disjoint⟩

theorem Lists.release (h : Lists s fs (xs ++ d :: ys)) :
    Lists (s.move .usedMemoryRanges .freeMemoryRanges d) (fs ++ [d]) (xs ++ ys) := by
  have hdisj : ∀ e ∈ xs ++ d :: ys, e ∉ fs := fun e he hf => h.disjoint e hf he
  obtain ⟨hused, hfree⟩ := h.used.relink h.free lists_ne.symm hdisj
  exact ⟨hfree, hused, fun e he hmem => h.used.relink_disjoint hdisj e hmem he⟩

/-- A place that is not NULL is inserted like every other. -/
theorem split_links (hnull : s.heap ≠ 0) (d size : BitVec 32) :
    (s.split d size).links = insertTail s.links .usedMemoryRanges s.heap := if_neg hnull

theorem Lists.split (h : Lists s fs us) (hnull : s.heap ≠ 0) (hheap : s.heap ∉ fs ++ us)
    (d size : BitVec 32) : Lists (s.split d size) fs (us ++ [s.heap]) := by
  have hlinks := split_links hnull d size
  have hhf : s.heap ∉ fs := fun hm => hheap (List.mem_append_left _ hm)
  have hhu : s.heap ∉ us := fun hm => hheap (List.mem_append_right _ hm)
  constructor
  case free =>
    rw [hlinks]
    exact h.free.insertTail_other h.used.queue lists_ne.symm
      (fun y hy hf => h.disjoint y hf hy) hhf
  case used =>
    rw [hlinks]
    exact h.used.insertTail hhu
  case disjoint =>
    intro e he hmem
    rcases List.mem_append.mp hmem with hmem | hmem
    · exact h.disjoint e he hmem
    · exact hhf (List.mem_singleton.mp hmem ▸ he)

end Moves

section Calls

variable {s s' : HeapState} {fs us fs' us' : List (BitVec 32)} {fuel : ℕ}
  {size address r : BitVec 32}

theorem split_chunk (s : HeapState) (d size : BitVec 32) :
    (s.split d size).range s.heap =
      { baseAddress := (s.range d).baseAddress + ((s.range d).size - size), size := size } := by
  simp [HeapState.split, HeapState.setRange]

theorem split_resized (s : HeapState) {d : BitVec 32} (hd : d ≠ s.heap) (size : BitVec 32) :
    (s.split d size).range d = { s.range d with size := (s.range d).size - size } := by
  simp [HeapState.split, HeapState.setRange, Function.update_of_ne hd]

theorem split_other (s : HeapState) {d e : BitVec 32} (he : e ≠ s.heap) (hde : e ≠ d)
    (size : BitVec 32) : (s.split d size).range e = s.range e := by
  simp [HeapState.split, HeapState.setRange, Function.update_of_ne he, Function.update_of_ne hde]

/-- Every call of `heap_alloc` that returns does one of three things. -/
theorem heapAlloc_allocates (h : Lists s fs us) (hcall : heapAlloc fuel s size = some (r, s')) :
    ∃ fs' us', Allocates s fs us size r s' fs' us' := by
  have hwalk := h.free.queue.walk
  unfold heapAlloc at hcall
  by_cases hstop : size = 0 ∨ isEmpty s.links .freeMemoryRanges
  · rw [if_pos hstop] at hcall
    obtain ⟨rfl, rfl⟩ := Prod.mk.inj (Option.some.inj hcall)
    refine ⟨fs, us, .refused ?_⟩
    rcases hstop with hzero | hempty
    · exact .inl hzero
    · right
      cases fs with
      | nil => nofun
      | cons d ds =>
        unfold isEmpty at hempty
        rw [(walk_cons.mp hwalk).1] at hempty
        exact absurd hempty (by simp)
  rw [if_neg hstop] at hcall
  rw [not_or] at hstop
  unfold first at hcall
  cases hfirst : findFrom s.links (fun d => (s.range d).size = size) fuel
      (s.links.load (.first .freeMemoryRanges)) with
  | none => simp [hfirst] at hcall
  | some found =>
    rcases findFrom_cases hwalk hfirst with ⟨rfl, hexact⟩ | ⟨xs, d, ys, rfl, hxs, hd, rfl⟩
    · simp only [hfirst] at hcall
      cases hsecond : findFrom s.links (fun d => size ≤ (s.range d).size) fuel
          (s.links.load (.first .freeMemoryRanges)) with
      | none => simp [hsecond] at hcall
      | some found =>
        simp only [decide_eq_true_eq] at hexact
        rcases findFrom_cases hwalk hsecond with ⟨rfl, hfit⟩ | ⟨xs, d, ys, rfl, hxs, hd, rfl⟩
        · simp only [hsecond] at hcall
          obtain ⟨rfl, rfl⟩ := Prod.mk.inj (Option.some.inj hcall)
          refine ⟨fs, us, .refused (.inr fun d hd => ?_)⟩
          have := hfit d hd
          simpa using this
        · simp only [hsecond] at hcall
          obtain ⟨rfl, rfl⟩ := Prod.mk.inj (Option.some.inj hcall)
          simp only [decide_eq_true_eq, BitVec.not_le] at hxs hd
          rw [split_chunk]
          refine ⟨_, _, .firstFit hstop.1 rfl hexact hxs ?_⟩
          have hne := hexact d (List.mem_append_right _ List.mem_cons_self)
          exact BitVec.lt_of_le_ne hd (Ne.symm hne)
    · simp only [hfirst] at hcall
      obtain ⟨rfl, rfl⟩ := Prod.mk.inj (Option.some.inj hcall)
      simp only [decide_eq_true_eq] at hxs hd
      exact ⟨_, _, .exactFit hstop.1 rfl hxs hd⟩

/-- The lists are in order after the call, if the bump pointer is right for a first fit. -/
theorem Allocates.lists (ha : Allocates s fs us size r s' fs' us') (h : Lists s fs us)
    (hheap : (∀ y ∈ fs, (s.range y).size ≠ size) → ∀ d ∈ fs, size < (s.range d).size →
      s.heap ≠ 0 ∧ s.heap ∉ fs ++ us) : Lists s' fs' us' := by
  cases ha with
  | refused => exact h
  | exactFit hsize hfs hxs hd =>
    subst hfs
    exact h.allocate
  | firstFit hsize hfs hexact hxs hd =>
    obtain ⟨hnull, hmem⟩ := hheap hexact _ (by simp [hfs]) hd
    exact h.split hnull hmem _ _

/-- The two loops of `heap_alloc` end. -/
theorem heapAlloc_terminates (h : Lists s fs us) (size : BitVec 32) (hfuel : fs.length < fuel) :
    ∃ r s', heapAlloc fuel s size = some (r, s') := by
  have hwalk := h.free.queue.walk
  obtain ⟨exact, hexact⟩ :=
    findFrom_terminates (fun d => decide ((s.range d).size = size)) hwalk hfuel
  obtain ⟨fit, hfit⟩ :=
    findFrom_terminates (fun d => decide (size ≤ (s.range d).size)) hwalk hfuel
  unfold heapAlloc first
  by_cases hstop : size = 0 ∨ isEmpty s.links .freeMemoryRanges
  · exact ⟨_, _, if_pos hstop⟩
  · rw [if_neg hstop, hexact, hfit]
    cases exact with
    | some d => exact ⟨_, _, rfl⟩
    | none =>
      cases fit with
      | some d => exact ⟨_, _, rfl⟩
      | none => exact ⟨_, _, rfl⟩

/-- The loop of `heap_free` is a walk that moves descriptors. -/
theorem heapFreeLoop_eq (address : BitVec 32) (fuel : ℕ) (s : HeapState)
    (o : Option (BitVec 32)) :
    heapFreeLoop address fuel s o =
      (moveWalk (fun d => decide ((s.range d).baseAddress = address)) .usedMemoryRanges
        .freeMemoryRanges fuel s.links o).map fun r => { s with links := r.2 } := by
  induction fuel generalizing s o with
  | zero => rfl
  | succ fuel ih =>
    cases o with
    | none => rfl
    | some d =>
      rw [heapFreeLoop, moveWalk]
      by_cases hd : (s.range d).baseAddress = address
      · simp only [hd, if_true, decide_true, ih, Option.map_map]
        rfl
      · simp only [hd, if_false, decide_false, Bool.false_eq_true, ih, Option.map_map]
        rfl

/-- A call of `heap_free` ends: it releases the first descriptor with the address, or none. -/
theorem heapFree_spec (h : Lists s fs us) (address : BitVec 32) :
    ∃ s' fs' us', Frees s fs us address s' fs' us' ∧ Lists s' fs' us' ∧
      ∀ fuel > us.length, heapFree fuel s address = some s' := by
  by_cases haddress : address = 0
  · exact ⟨s, fs, us, .nothing (.inl haddress), h, fun _ _ => if_pos haddress⟩
  · have hused : Tailq s.links .usedMemoryRanges ([] ++ us) := h.used
    obtain ⟨visited, m, hmoves, hwalk⟩ := moveWalk_moves
      (p := fun d => decide ((s.range d).baseAddress = address)) hused h.free lists_ne.symm
      fun d hd hf => h.disjoint d hf hd
    have hcall : ∀ fuel > us.length, heapFree fuel s address = some { s with links := m } := by
      intro fuel hfuel
      rw [heapFree, if_neg haddress, heapFreeLoop_eq, first]
      exact Option.map_eq_some_iff.mpr ⟨_, hwalk fuel hfuel, rfl⟩
    cases hmoves with
    | nothing hnone =>
      simp only [decide_eq_true_eq] at hnone
      exact ⟨s, fs, us, .nothing (.inr hnone), h, hcall⟩
    | moved hus hxs hx =>
      subst hus
      simp only [decide_eq_true_eq] at hxs hx
      exact ⟨_, _, _, .released haddress rfl hxs hx, h.release, hcall⟩

theorem heapFree_frees (h : Lists s fs us) (hcall : heapFree fuel s address = some s') :
    ∃ fs' us', Frees s fs us address s' fs' us' ∧ Lists s' fs' us' := by
  obtain ⟨s'', fs', us', hfrees, hlists, hmore⟩ := heapFree_spec h address
  have hsame : s' = s'' := by
    have hlarge := hmore (max fuel (us.length + 1)) (by omega)
    rw [heapFree] at hcall hlarge
    split_ifs at hcall hlarge
    · exact Option.some.inj (hcall.symm.trans hlarge)
    · rw [heapFreeLoop_eq] at hcall hlarge
      obtain ⟨r, hr, rfl⟩ := Option.map_eq_some_iff.mp hcall
      rw [moveWalk_mono (Nat.le_max_left ..) hr] at hlarge
      exact Option.some.inj hlarge
  exact ⟨fs', us', hsame ▸ hfrees, hsame ▸ hlists⟩

theorem heapFree_terminates (h : Lists s fs us) (address : BitVec 32)
    (hfuel : us.length + 1 < fuel) : ∃ s', heapFree fuel s address = some s' := by
  obtain ⟨s', -, -, -, -, hcall⟩ := heapFree_spec h address
  exact ⟨s', hcall fuel (Nat.lt_of_succ_lt hfuel)⟩

end Calls

end Einherjar.Memory
