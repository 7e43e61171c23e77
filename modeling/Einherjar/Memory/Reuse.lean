import Einherjar.Memory.Conservation

/-! Descriptors over runs of the allocator: what is freed is allocated again without a new one,
and one is made for each chunk that is cut off a larger range. -/
namespace Einherjar.Memory
open Einherjar.Lib Einherjar.Lib.TailQueue

/-- The descriptor is on one list and not on the other. -/
def ListedOnce (s : HeapState) (d : BitVec 32) : Prop :=
  Xor (Listed s .freeMemoryRanges d) (Listed s .usedMemoryRanges d)

def NoRangeAtZero (s : HeapState) : Prop :=
  ∀ list r, OnList s list r → r.baseAddress ≠ 0

open Classical in
/-- The descriptor that a call creates, at the bump pointer. -/
noncomputable def newDescriptors (s : HeapState) (c : HeapCall) : List (BitVec 32) :=
  if Splits s c then [s.heap] else []

/-- The bytes that descriptors take. -/
def descriptorBytes (ds : List (BitVec 32)) : BitVec 32 :=
  BitVec.ofNat 32 ds.length * sizeofMemoryRange

theorem descriptorBytes_append (ds es : List (BitVec 32)) :
    descriptorBytes (ds ++ es) = descriptorBytes ds + descriptorBytes es := by
  unfold descriptorBytes
  rw [List.length_append, BitVec.ofNat_add, BitVec.add_mul]

/-- The descriptors that the splits of a run create. -/
noncomputable def created : HeapState → List (HeapCall × HeapState) → List (BitVec 32)
  | _, [] => []
  | s, (c, t) :: p => newDescriptors s c ++ created t p

/-- A chunk that is freed is allocated again, or one of the same size, with the descriptors that
are there. -/
def Reusable (s : HeapState) : Prop :=
  ∀ p n, OnList s .usedMemoryRanges ⟨p, n⟩ →
    (∃ s', HeapStep s (.free p) s') ∧ ∀ s', HeapStep s (.free p) s' →
      (∃ r t, HeapStep s' (.alloc n r) t) ∧ ∀ r t, HeapStep s' (.alloc n r) t →
        r ≠ 0 ∧ OnList t .usedMemoryRanges ⟨r, n⟩ ∧ t.heap = s.heap

/-- A call that splits nothing creates no descriptor. -/
def CreatesNothing (s : HeapState) (c : HeapCall) (s' : HeapState) : Prop :=
  ¬ Splits s c → s'.heap = s.heap ∧
    ∀ d, Listed s' .freeMemoryRanges d ∨ Listed s' .usedMemoryRanges d →
      Listed s .freeMemoryRanges d ∨ Listed s .usedMemoryRanges d

section lists

variable {s s' : HeapState} {fs us fs' us' : List (BitVec 32)} {size address r d : BitVec 32}

theorem Lists.listedOnce (h : Lists s fs us) (hd : d ∈ fs ++ us) : ListedOnce s d := by
  rw [ListedOnce, h.listed_free, h.listed_used]
  rcases List.mem_append.mp hd with hd | hd
  · exact .inl ⟨hd, h.disjoint d hd⟩
  · exact .inr ⟨hd, fun hf => h.disjoint d hf hd⟩

theorem newDescriptors_of_splits {c : HeapCall} (h : Splits s c) :
    newDescriptors s c = [s.heap] := if_pos h

theorem newDescriptors_of_not_splits {c : HeapCall} (h : ¬ Splits s c) :
    newDescriptors s c = [] := if_neg h

/-- Which calls split, and what they do to the descriptors on the lists. -/
theorem Allocates.descriptors (ha : Allocates s fs us size r s' fs' us') (h : Lists s fs us) :
    (fs' ++ us').Perm (fs ++ us ++ newDescriptors s (.alloc size r)) ∧
      s'.heap = s.heap + descriptorBytes (newDescriptors s (.alloc size r)) := by
  by_cases hsplits : Splits s (.alloc size r)
  · obtain ⟨d, -, -, -, rfl, rfl, rfl⟩ := ha.firstFit_of_splits h hsplits
    rw [newDescriptors_of_splits hsplits]
    refine ⟨?_, rfl⟩
    rw [List.append_assoc]
  · rw [newDescriptors_of_not_splits hsplits, List.append_nil]
    cases ha with
    | refused hnone => exact ⟨.refl _, (BitVec.add_zero _).symm⟩
    | @exactFit xs ys d hsize hfs hxs hd =>
      subst hfs
      refine ⟨?_, (BitVec.add_zero _).symm⟩
      grind
    | @firstFit xs ys d hsize hfs hexact hxs hd =>
      exact absurd (h.splits hsize hexact (by simp [hfs]) hd _) hsplits

theorem Frees.descriptors (hf : Frees s fs us address s' fs' us') :
    (fs' ++ us').Perm (fs ++ us) ∧ s'.heap = s.heap := by
  cases hf with
  | nothing => exact ⟨.refl _, rfl⟩
  | released haddress hus hxs hd =>
    subst hus
    refine ⟨?_, rfl⟩
    grind

/-- One call leaves all descriptors on the lists, and adds the one that it creates. -/
theorem HeapStep.descriptors {c : HeapCall} (hstep : HeapStep s c s') (hroom : FindsRoom s c)
    (h : Lists s fs us) :
    ∃ fs' us', Lists s' fs' us' ∧ (fs' ++ us').Perm (fs ++ us ++ newDescriptors s c) ∧
      s'.heap = s.heap + descriptorBytes (newDescriptors s c) := by
  cases hstep with
  | alloc call =>
    obtain ⟨fs', us', ha⟩ := heapAlloc_allocates h call
    exact ⟨fs', us', ha.lists_of_room h hroom, ha.descriptors h⟩
  | free call =>
    obtain ⟨fs', us', hf, hlists⟩ := heapFree_frees h call
    obtain ⟨hperm, hheap⟩ := hf.descriptors
    rw [newDescriptors_of_not_splits id, List.append_nil]
    exact ⟨fs', us', hlists, hperm, hheap.trans (BitVec.add_zero _).symm⟩

theorem HeapStep.createsNothing {c : HeapCall} (hstep : HeapStep s c s') (h : Lists s fs us) :
    CreatesNothing s c s' := by
  intro hnot
  obtain ⟨fs', us', hlists, hperm, hheap⟩ := hstep.descriptors (fun hs => absurd hs hnot) h
  rw [newDescriptors_of_not_splits hnot] at hperm hheap
  refine ⟨hheap.trans (BitVec.add_zero _), fun d hd => ?_⟩
  rw [List.append_nil] at hperm
  rw [hlists.listed_free, hlists.listed_used, ← List.mem_append, hperm.mem_iff] at hd
  rwa [h.listed_free, h.listed_used, ← List.mem_append]

/-- A run leaves all descriptors on the lists, and adds those that it creates. -/
theorem descriptors_of_path {p : List (HeapCall × HeapState)} (hp : Path HeapStep s p)
    (hroom : Guarded FindsRoom s p) (h : Lists s fs us) :
    ∃ fs' us', Lists (finalState s p) fs' us' ∧ (fs' ++ us').Perm (fs ++ us ++ created s p) ∧
      (finalState s p).heap = s.heap + descriptorBytes (created s p) := by
  induction hp generalizing fs us with
  | nil => exact ⟨fs, us, h, by simp [created], (BitVec.add_zero _).symm⟩
  | @cons s t c p step rest ih =>
    obtain ⟨fs₁, us₁, hlists₁, hperm₁, hheap₁⟩ := step.descriptors hroom.1 h
    obtain ⟨fs', us', hlists, hperm, hheap⟩ := ih hroom.2 hlists₁
    refine ⟨fs', us', hlists, ?_, ?_⟩
    · rw [created, ← List.append_assoc]
      exact hperm.trans (hperm₁.append_right _)
    · rw [created, descriptorBytes_append, ← BitVec.add_assoc, ← hheap₁]
      exact hheap

end lists

section reuse

variable {s : HeapState} {fs us : List (BitVec 32)} {u : Set ℕ}

/-- The addresses tell the chunks in use apart. -/
theorem Partition.eq_of_base (h : Partition s fs us u) {d e : BitVec 32} (hd : d ∈ fs ++ us)
    (he : e ∈ fs ++ us) (hbase : (s.range d).baseAddress = (s.range e).baseAddress) : d = e := by
  by_contra hde
  have hdisj := Set.disjoint_left.mp (h.disjoint hd he hde)
  have hposd := (h.proper d hd).1
  have hpose := (h.proper e he).1
  refine hdisj (a := (s.range d).baseAddress.toNat) ⟨le_rfl, ?_⟩ ⟨?_, ?_⟩
  · bv_omega
  · rw [hbase]
  · rw [hbase]
    bv_omega

/-- The release of a chunk in use takes its own descriptor off the list. -/
theorem Partition.frees_live (h : Partition s fs us u) {p n : BitVec 32} (hp : p ≠ 0)
    (hlive : OnList s .usedMemoryRanges ⟨p, n⟩) {s' : HeapState} {fs' us' : List (BitVec 32)}
    (hf : Frees s fs us p s' fs' us') :
    ∃ xs d ys, us = xs ++ d :: ys ∧ s.range d = ⟨p, n⟩ ∧
      s' = s.move .usedMemoryRanges .freeMemoryRanges d ∧ fs' = fs ++ [d] ∧ us' = xs ++ ys := by
  obtain ⟨d, hd, hrange⟩ := h.lists.onList_used.mp hlive
  have hbase : (s.range d).baseAddress = p := by rw [hrange]
  cases hf with
  | nothing hnone =>
    rcases hnone with h0 | hnone
    · exact absurd h0 hp
    · exact absurd hbase (hnone d hd)
  | @released xs ys e haddress hus hxs he =>
    obtain rfl : e = d :=
      h.eq_of_base (by simp [hus]) (List.mem_append_right _ hd) (he.trans hbase.symm)
    exact ⟨xs, e, ys, hus, hrange, rfl, rfl, rfl⟩

theorem Partition.reusable (h : Partition s fs us u) (hzero : NoRangeAtZero s) : Reusable s := by
  intro p n hchunk
  have hp : p ≠ 0 := hzero _ _ hchunk
  obtain ⟨s', hcall⟩ := heapFree_terminates h.lists p (Nat.lt_succ_self _)
  refine ⟨⟨s', .free hcall⟩, fun s' hfree => ?_⟩
  cases hfree with
  | free hfree =>
  obtain ⟨fs', us', hf, hlists⟩ := heapFree_frees h.lists hfree
  have h' := h.frees hf hlists
  obtain ⟨r, t, hcall⟩ := heapAlloc_terminates hlists n (Nat.lt_succ_self _)
  refine ⟨⟨r, t, .alloc hcall⟩, fun r t halloc => ?_⟩
  obtain ⟨xs, d, ys, hus, hrange, rfl, rfl, -⟩ := h.frees_live hp hchunk hf
  -- The range that has just been released fits exactly
  have hmem : d ∈ fs ++ [d] := by simp
  have hsize : (s.range d).size = n := by rw [hrange]
  have hexclusive := (halloc.partition (fun hsplits => absurd hsize
    (hsplits.2.1 _ (hlists.onList_free.mpr ⟨d, hmem, rfl⟩))) h').2
  cases halloc with
  | alloc halloc =>
  obtain ⟨fs'', us'', ha⟩ := heapAlloc_allocates hlists halloc
  cases ha with
  | refused hnone =>
    rcases hnone with h0 | hnone
    · exact absurd (hsize.trans h0) (h.proper d (by simp [hus])).1
    · exact absurd (hnone d hmem) (BitVec.not_lt.mpr (BitVec.le_of_eq hsize.symm))
  | @exactFit xs' ys' e hn hfs' hxs' he =>
    have hfound : e ∈ fs ++ [d] := by simp [hfs']
    have hr : (s.range e).baseAddress ≠ 0 := by
      rcases List.mem_append.mp hfound with hmem | hmem
      · exact hzero _ _ (h.lists.onList_free.mpr ⟨e, hmem, rfl⟩)
      · rw [List.mem_singleton.mp hmem, hrange]
        exact hp
    exact ⟨hr, (hexclusive hr).1, rfl⟩
  | firstFit hn hfs' hexact hxs' hd' => exact absurd hsize (hexact d hmem)

end reuse

/-- From a good state without a range at address 0: chunks that are freed can be allocated again
with no new descriptor. In a run whose new descriptors find room, the bump pointer grows by one
descriptor for each split; all descriptors that were on a list, or are created by a split, are on
exactly one; and nothing else creates descriptors. -/
theorem descriptors_reused (s : HeapState) (hs : Good s) (hzero : NoRangeAtZero s) :
    Reusable s ∧ ∀ p, Path HeapStep s p → Guarded FindsRoom s p →
      (finalState s p).heap = s.heap + descriptorBytes (created s p) ∧
      (∀ d, (Listed s .freeMemoryRanges d ∨ Listed s .usedMemoryRanges d ∨ d ∈ created s p) →
        ListedOnce (finalState s p) d) ∧
      Along CreatesNothing s p := by
  obtain ⟨fs, us, h⟩ := hs.partition
  refine ⟨h.reusable hzero, fun p hp hroom => ?_⟩
  obtain ⟨fs', us', hlists, hperm, hheap⟩ := descriptors_of_path hp hroom h.lists
  refine ⟨hheap, fun d hd => ?_, ?_⟩
  · apply hlists.listedOnce
    rw [h.lists.listed_free, h.lists.listed_used, ← or_assoc, ← List.mem_append,
      ← List.mem_append] at hd
    exact hperm.mem_iff.mpr hd
  · refine hp.along_of_guarded (I := fun t => ∃ fs us, Lists t fs us) ?_ ⟨fs, us, h.lists⟩ hroom
    rintro t c t' ⟨fs, us, h⟩ hfinds hstep
    obtain ⟨fs', us', hlists, -⟩ := hstep.descriptors hfinds h
    exact ⟨⟨fs', us', hlists⟩, hstep.createsNothing h⟩

theorem noRangeAtZero_oneRange : NoRangeAtZero oneRange := by
  intro list r hr
  obtain ⟨ds, -, d, -, rfl⟩ := hr
  exact show (0x1000#32 ≠ 0) by decide

theorem descriptors_reused_oneRange :
    Reusable oneRange ∧ ∀ p, Path HeapStep oneRange p → Guarded FindsRoom oneRange p →
      (finalState oneRange p).heap = oneRange.heap + descriptorBytes (created oneRange p) ∧
      (∀ d, (Listed oneRange .freeMemoryRanges d ∨ Listed oneRange .usedMemoryRanges d ∨
        d ∈ created oneRange p) → ListedOnce (finalState oneRange p) d) ∧
      Along CreatesNothing oneRange p :=
  descriptors_reused oneRange good_oneRange noRangeAtZero_oneRange

theorem noRangeAtZero_lastPlace : NoRangeAtZero lastPlace := by
  intro list r hr
  obtain ⟨ds, -, d, -, rfl⟩ := hr
  exact show (0x1000#32 ≠ 0) by decide

/-- The bump pointer has wrapped around before the second split, whose descriptor is NULL. -/
theorem null_mem_created : 0 ∈ created lastPlace twoChunks := by
  have hlists : Lists (lastPlace.split 0x200000 0x100) [0x200000] [0xfffffff0] :=
    lists_lastPlace.split (by decide) (by decide) _ _
  have hsplits : Splits (lastPlace.split 0x200000 0x100) (.alloc 0x100 0x1e00) := by
    refine hlists.splits (d := 0x200000) (by decide) ?_ (by decide) (by decide) _
    intro y hy
    rw [List.mem_singleton.mp hy]
    decide
  have hnew := newDescriptors_of_splits hsplits
  have hheap : (lastPlace.split 0x200000 0x100).heap = 0 := rfl
  rw [hheap] at hnew
  change 0 ∈ newDescriptors _ _ ++ (newDescriptors _ _ ++ [])
  rw [hnew]
  simp

/-- Without room for it a descriptor is created that is on no list. -/
theorem descriptor_not_listed : ¬ ∀ s, Good s → NoRangeAtZero s → ∀ p, Path HeapStep s p →
    ∀ d, (Listed s .freeMemoryRanges d ∨ Listed s .usedMemoryRanges d ∨ d ∈ created s p) →
      ListedOnce (finalState s p) d := by
  intro h
  have hfree : Walk (finalState lastPlace twoChunks).links (.first .freeMemoryRanges)
      [0x200000] := ⟨⟨rfl, trivial⟩, rfl⟩
  have hused : Walk (finalState lastPlace twoChunks).links (.first .usedMemoryRanges)
      [0xfffffff0] := ⟨⟨rfl, trivial⟩, rfl⟩
  have honce := h lastPlace good_lastPlace noRangeAtZero_lastPlace twoChunks path_twoChunks 0
    (.inr (.inr null_mem_created))
  rw [ListedOnce, listed_iff hfree, listed_iff hused] at honce
  revert honce
  decide

end Einherjar.Memory
