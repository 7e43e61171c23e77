import Einherjar.Memory.Conservation

/-! Which range a call of `heap_alloc` takes, and when it takes none. -/
namespace Einherjar.Memory
open Einherjar.Lib Einherjar.Lib.TailQueue

/-- The first descriptor with a range of exactly the size. -/
def firstExact (s : HeapState) (size : BitVec 32) (ds : List (BitVec 32)) : Option (BitVec 32) :=
  ds.find? fun d => (s.range d).size = size

/-- The first descriptor with a larger range. -/
def firstLarger (s : HeapState) (size : BitVec 32) (ds : List (BitVec 32)) : Option (BitVec 32) :=
  ds.find? fun d => size < (s.range d).size

/-- No free range is as large as the size, which is not 0. -/
def NothingFits (s : HeapState) (fs : List (BitVec 32)) (size : BitVec 32) : Prop :=
  size = 0 ∨ ∀ d ∈ fs, (s.range d).size < size

/-- The range of `d` loses its top `size` bytes to a new range at `r`, and keeps some. -/
structure LosesTop (s : HeapState) (d size r : BitVec 32) (s' : HeapState) : Prop where
  chunk : s'.range s.heap = ⟨r, size⟩
  base : (s'.range d).baseAddress = (s.range d).baseAddress
  rest : (s'.range d).size ≠ 0
  sizes : (s.range d).size.toNat = (s'.range d).size.toNat + size.toNat
  top : r.toNat = (s.range d).baseAddress.toNat + (s'.range d).size.toNat
  others : ∀ e, e ≠ d → e ≠ s.heap → s'.range e = s.range e

/-- The call finds a range if there is one, prefers an exact fit, and fails cleanly. -/
structure PicksRange (s : HeapState) (fs us : List (BitVec 32)) (size r : BitVec 32)
    (s' : HeapState) (fs' us' : List (BitVec 32)) : Prop where
  null : r = 0 ↔ NothingFits s fs size
  clean : NothingFits s fs size → s' = s ∧ fs' = fs ∧ us' = us
  exact : ∀ d, firstExact s size fs = some d →
    r = (s.range d).baseAddress ∧ fs' = fs.erase d ∧ us' = us ++ [d] ∧ s'.range = s.range ∧
      s'.heap = s.heap
  larger : size ≠ 0 → firstExact s size fs = none → ∀ d, firstLarger s size fs = some d →
    LosesTop s d size r s' ∧ fs' = fs ∧ us' = us ++ [s.heap]

section find

variable {s s' : HeapState} {fs us xs ys : List (BitVec 32)} {size r d : BitVec 32} {u : Set ℕ}

theorem firstExact_eq_none : firstExact s size fs = none ↔ ∀ d ∈ fs, (s.range d).size ≠ size := by
  simp [firstExact]

theorem firstExact_append (hxs : ∀ y ∈ xs, (s.range y).size ≠ size)
    (hd : (s.range d).size = size) : firstExact s size (xs ++ d :: ys) = some d := by
  rw [firstExact, List.find?_eq_some_iff_append]
  exact ⟨decide_eq_true hd, xs, ys, rfl, fun y hy => by simp [hxs y hy]⟩

theorem firstLarger_append (hxs : ∀ y ∈ xs, (s.range y).size < size)
    (hd : size < (s.range d).size) : firstLarger s size (xs ++ d :: ys) = some d := by
  rw [firstLarger, List.find?_eq_some_iff_append]
  refine ⟨decide_eq_true hd, xs, ys, rfl, fun y hy => ?_⟩
  simp [BitVec.not_lt.mpr (BitVec.le_of_lt (hxs y hy))]

theorem not_nothingFits (hsize : size ≠ 0) (hd : d ∈ fs) (hfit : size ≤ (s.range d).size) :
    ¬ NothingFits s fs size := by
  rintro (h | h)
  · exact hsize h
  · exact BitVec.not_le.mpr (h d hd) hfit

/-- No range of a good state is empty. -/
theorem Partition.size_ne_zero (h : Partition s fs us u) : ∀ d ∈ fs, (s.range d).size ≠ 0 :=
  fun d hd => (h.proper d (List.mem_append_left _ hd)).1

theorem Partition.firstExact_of_nothingFits (h : Partition s fs us u)
    (hfits : NothingFits s fs size) : firstExact s size fs = none := by
  rw [firstExact_eq_none]
  intro d hd hsize
  refine not_nothingFits ?_ hd (BitVec.le_of_eq hsize.symm) hfits
  rw [← hsize]
  exact h.size_ne_zero d hd

theorem Partition.losesTop (h : Partition s fs us u) (hd : d ∈ fs) (hheap : d ≠ s.heap)
    (hsize : size ≠ 0) (hfit : size < (s.range d).size) :
    LosesTop s d size ((s.range d).baseAddress + ((s.range d).size - size)) (s.split d size) := by
  obtain ⟨hne, htop⟩ := h.proper d (List.mem_append_left _ hd)
  have hresized := split_resized s hheap size
  constructor
  case chunk => exact split_chunk s d size
  case base => rw [hresized]
  case rest =>
    rw [hresized]
    bv_omega
  case sizes =>
    rw [hresized]
    bv_omega
  case top =>
    rw [hresized]
    bv_omega
  case others => exact fun e hed hes => split_other s hes hed size

/-- The address of a chunk that is cut off is never 0. -/
theorem LosesTop.ne_zero (h : LosesTop s d size r s') : r ≠ 0 := by
  have hrest := h.rest
  have htop := h.top
  bv_omega

end find

section picks

variable {s s' : HeapState} {fs us fs' us' xs ys : List (BitVec 32)} {size r d : BitVec 32}
  {u : Set ℕ}

theorem Partition.picks_refused (h : Partition s fs us u) (hfits : NothingFits s fs size) :
    PicksRange s fs us size 0 s fs us := by
  constructor
  case null => exact iff_of_true rfl hfits
  case clean => exact fun _ => ⟨rfl, rfl, rfl⟩
  case exact =>
    intro d hd
    rw [h.firstExact_of_nothingFits hfits] at hd
    cases hd
  case larger =>
    intro hsize _ d hd
    obtain ⟨hfit, xs, ys, rfl, -⟩ := List.find?_eq_some_iff_append.mp hd
    exact absurd hfits
      (not_nothingFits hsize (by simp) (BitVec.le_of_lt (of_decide_eq_true hfit)))

/-- An exact fit is right but for its address, if that is 0. -/
theorem picks_exact (hsize : size ≠ 0) (hxs : ∀ y ∈ xs, (s.range y).size ≠ size)
    (hd : (s.range d).size = size) :
    PicksRange s (xs ++ d :: ys) us size (s.range d).baseAddress
        (s.move .freeMemoryRanges .usedMemoryRanges d) (xs ++ ys) (us ++ [d]) ↔
      (s.range d).baseAddress ≠ 0 := by
  have hexact : firstExact s size (xs ++ d :: ys) = some d := firstExact_append hxs hd
  have hfits : ¬ NothingFits s (xs ++ d :: ys) size :=
    not_nothingFits hsize (by simp) (BitVec.le_of_eq hd.symm)
  have hdxs : d ∉ xs := fun hmem => hxs d hmem hd
  constructor
  · intro hp h0
    exact hfits (hp.null.mp h0)
  · intro h0
    constructor
    case null => exact iff_of_false h0 hfits
    case clean => exact fun hnot => absurd hnot hfits
    case exact =>
      intro e he
      obtain rfl := Option.some.inj (hexact.symm.trans he)
      refine ⟨rfl, ?_, rfl, rfl, rfl⟩
      rw [List.erase_append_right _ hdxs, List.erase_cons_head]
    case larger =>
      intro _ hnone
      rw [hexact] at hnone
      cases hnone

theorem Partition.picks_larger (h : Partition s (xs ++ d :: ys) us u) (hheap : d ≠ s.heap)
    (hsize : size ≠ 0)
    (hexact : ∀ y ∈ xs ++ d :: ys, (s.range y).size ≠ size)
    (hxs : ∀ y ∈ xs, (s.range y).size < size) (hd : size < (s.range d).size) :
    PicksRange s (xs ++ d :: ys) us size ((s.range d).baseAddress + ((s.range d).size - size))
      (s.split d size) (xs ++ d :: ys) (us ++ [s.heap]) := by
  have hmem : d ∈ xs ++ d :: ys := by simp
  have hfits : ¬ NothingFits s (xs ++ d :: ys) size :=
    not_nothingFits hsize hmem (BitVec.le_of_lt hd)
  have htop := h.losesTop hmem hheap hsize hd
  constructor
  case null => exact iff_of_false htop.ne_zero hfits
  case clean => exact fun hnot => absurd hnot hfits
  case exact =>
    intro e he
    rw [firstExact_eq_none.mpr hexact] at he
    cases he
  case larger =>
    intro _ _ e he
    obtain rfl := Option.some.inj ((firstLarger_append hxs hd).symm.trans he)
    exact ⟨htop, rfl, rfl⟩

end picks

/-- A call of `heap_alloc` does what is said of it unless it finds an exact fit that starts at
address 0, which it cannot tell from a failure. The bump pointer is behind all descriptors. -/
theorem heapAlloc_picks_iff (s : HeapState) (fs us : List (BitVec 32)) (size : BitVec 32) (fuel : ℕ)
    (hs : Good s) (hlists : Lists s fs us) (hbelow : ∀ d ∈ fs ++ us, d < s.heap)
    (hfuel : fs.length < fuel) :
    ∃ r s' fs' us', heapAlloc fuel s size = some (r, s') ∧ Lists s' fs' us' ∧
      (PicksRange s fs us size r s' fs' us' ↔
        ∀ d, firstExact s size fs = some d → (s.range d).baseAddress ≠ 0) := by
  have hplace : s.heap ∉ fs ++ us := fun hm => BitVec.lt_irrefl _ (hbelow _ hm)
  obtain ⟨fs₀, us₀, h⟩ := hs.partition
  obtain rfl := h.lists.free.queue.walk.unique hlists.free.queue.walk
  obtain rfl := h.lists.used.queue.walk.unique hlists.used.queue.walk
  obtain ⟨r, s', hcall⟩ := heapAlloc_terminates hlists size hfuel
  obtain ⟨fs', us', hallocates⟩ := heapAlloc_allocates hlists hcall
  have hlists' : Lists s' fs' us' := hallocates.lists hlists fun _ d hd _ =>
    ⟨fun h0 => BitVec.not_lt_zero (h0 ▸ hbelow d (List.mem_append_left _ hd)), hplace⟩
  refine ⟨r, s', fs', us', hcall, hlists', ?_⟩
  cases hallocates with
  | refused hfits =>
    refine iff_of_true (h.picks_refused hfits) ?_
    rw [h.firstExact_of_nothingFits hfits]
    intro d hd
    cases hd
  | exactFit hsize hfs hxs hd =>
    subst hfs
    rw [picks_exact hsize hxs hd, firstExact_append hxs hd]
    simp
  | firstFit hsize hfs hexact hxs hd =>
    subst hfs
    refine iff_of_true (h.picks_larger (fun heq => hplace (by simp [← heq])) hsize hexact hxs hd) ?_
    rw [firstExact_eq_none.mpr hexact]
    intro d hd
    cases hd

theorem heapAlloc_picks_iff_oneRange :
    ∃ r s' fs' us', heapAlloc 2 oneRange 0x100 = some (r, s') ∧ Lists s' fs' us' ∧
      (PicksRange oneRange [0x200000] [] 0x100 r s' fs' us' ↔
        ∀ d, firstExact oneRange 0x100 [0x200000] = some d →
          (oneRange.range d).baseAddress ≠ 0) :=
  heapAlloc_picks_iff oneRange _ _ _ _ good_oneRange lists_oneRange (by simp [oneRange]) (by decide)

/-- A heap with one free range, the one from address 0 to the video memory. -/
def lowRange : HeapState :=
  { oneRange with range := fun _ => { baseAddress := 0, size := 0xa0000 } }

/-- The only range is taken and the result is NULL. -/
theorem lowRange_lost : ¬ ∀ (s : HeapState) (fs us : List (BitVec 32)) (size : BitVec 32)
    (fuel : ℕ), Good s → Lists s fs us → (∀ d ∈ fs ++ us, d < s.heap) → fs.length < fuel →
      ∃ r s' fs' us', heapAlloc fuel s size = some (r, s') ∧ Lists s' fs' us' ∧
        PicksRange s fs us size r s' fs' us' := by
  intro h
  have hlists : Lists lowRange [0x200000] [] :=
    ⟨lists_oneRange.free, lists_oneRange.used, lists_oneRange.disjoint⟩
  have hproper : MemoryRange.Proper ⟨0, 0xa0000⟩ := ⟨by decide, by decide⟩
  have hgood : Good lowRange := ⟨_, _, hlists, fun _ _ => hproper, by simp⟩
  obtain ⟨r, s', fs', us', hcall, -, hpicks⟩ :=
    h lowRange _ _ 0xa0000 2 hgood hlists (by simp [lowRange, oneRange]) (by decide)
  have hresult : (heapAlloc 2 lowRange 0xa0000).map Prod.fst = some 0 := rfl
  rw [hcall] at hresult
  obtain h0 | hlt := hpicks.null.mp (Option.some.inj hresult)
  · exact absurd h0 (by decide)
  · exact absurd (hlt 0x200000 (by simp)) (by decide)

end Einherjar.Memory
