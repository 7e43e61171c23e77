import Einherjar.Lib.Run
import Einherjar.Memory.Partition

/-! Conservation of memory: the allocator only redistributes the bytes of its ranges, and it
gives no byte to two chunks. -/
namespace Einherjar.Memory
open Einherjar.Lib Einherjar.Lib.TailQueue

section Steps

variable {s s' : HeapState} {fs us fs' us' : List (BitVec 32)} {size address r : BitVec 32}
  {u : Set ℕ}

/-- Descriptors that change places between the lists. -/
theorem Partition.move (h : Partition s fs us u) (hlists : Lists s' fs' us')
    (hrange : s'.range = s.range) (hperm : (fs ++ us).Perm (fs' ++ us')) :
    Partition s' fs' us' u where
  lists := hlists
  proper d hd := by
    rw [hrange]
    exact h.proper d (hperm.mem_iff.mpr hd)
  tiles := by
    unfold pieces
    rw [hrange]
    exact h.tiles.perm (hperm.map _)

/-- Descriptors that are listed next to the bump pointer are not at it. -/
theorem Lists.heap_notMem (h : Lists s' fs (us ++ [s.heap])) : s.heap ∉ fs ++ us := by
  intro hm
  rcases List.mem_append.mp hm with hm | hm
  · exact h.disjoint _ hm (by simp)
  · exact (List.nodup_append.mp h.used.nodup).2.2 _ hm _ (by simp) rfl

theorem Partition.split {xs ys : List (BitVec 32)} {d : BitVec 32}
    (h : Partition s (xs ++ d :: ys) us u) (hsize : size ≠ 0) (hfit : size < (s.range d).size)
    (hlists : Lists (s.split d size) (xs ++ d :: ys) (us ++ [s.heap])) :
    Partition (s.split d size) (xs ++ d :: ys) (us ++ [s.heap]) u := by
  have hnodup : (d :: (xs ++ ys ++ us)).Nodup := by
    have hall : (xs ++ d :: ys ++ us).Nodup :=
      List.nodup_append.mpr ⟨h.lists.free.nodup, h.lists.used.nodup,
        fun a ha b hb hab => h.lists.disjoint a ha (hab ▸ hb)⟩
    have hperm : (xs ++ d :: ys ++ us).Perm (d :: (xs ++ ys ++ us)) := by grind
    exact hperm.nodup_iff.mp hall
  have hheap : ∀ e ∈ xs ++ d :: ys ++ us, e ≠ s.heap :=
    fun e he heq => hlists.heap_notMem (heq ▸ he)
  have hdmem : d ∈ xs ++ d :: ys ++ us := by simp
  have hrest : ∀ e ∈ xs ++ ys ++ us, (s.split d size).range e = s.range e := by
    intro e he
    have hne : e ≠ d := fun hed => (List.nodup_cons.mp hnodup).1 (hed ▸ he)
    exact split_other s (hheap e (by grind)) hne size
  obtain ⟨hleft, hchunk, hbytes, hdisj⟩ := (h.proper d hdmem).cut hsize hfit
  have hd := split_resized s (hheap d hdmem) size
  have hplace := split_chunk s d size
  constructor
  case lists => exact hlists
  case proper =>
    intro e he
    have hcases : e = d ∨ e = s.heap ∨ e ∈ xs ++ ys ++ us := by grind
    rcases hcases with rfl | rfl | he
    · rw [hd]
      exact hleft
    · rw [hplace]
      exact hchunk
    · rw [hrest e he]
      exact h.proper e (by grind)
  case tiles =>
    have hold : Tiles ((s.range d).bytes :: pieces s (xs ++ ys ++ us)) u := by
      apply h.tiles.perm
      have hperm : (xs ++ d :: ys ++ us).Perm (d :: (xs ++ ys ++ us)) := by grind
      exact hperm.map _
    rw [hbytes] at hold
    have hnew := hold.cut hleft.nonempty hchunk.nonempty hdisj
    have hsame : pieces (s.split d size) (xs ++ ys ++ us) = pieces s (xs ++ ys ++ us) := by
      apply List.map_congr_left
      intro e he
      rw [hrest e he]
    have htiles : Tiles (pieces (s.split d size) (d :: s.heap :: (xs ++ ys ++ us))) u := by
      unfold pieces at hsame ⊢
      rw [List.map_cons, List.map_cons, hsame, hd, hplace]
      exact hnew
    apply htiles.perm
    · have hperm : (d :: s.heap :: (xs ++ ys ++ us)).Perm (xs ++ d :: ys ++ (us ++ [s.heap])) := by
        grind
      exact hperm.map _

theorem Partition.allocates (h : Partition s fs us u)
    (ha : Allocates s fs us size r s' fs' us') (hlists : Lists s' fs' us') :
    Partition s' fs' us' u := by
  cases ha with
  | refused => exact h
  | exactFit hsize hfs hxs hd =>
    subst hfs
    apply h.move hlists rfl
    grind
  | firstFit hsize hfs hexact hxs hd =>
    subst hfs
    exact h.split hsize hd hlists

theorem Partition.frees (h : Partition s fs us u) (hf : Frees s fs us address s' fs' us')
    (hlists : Lists s' fs' us') : Partition s' fs' us' u := by
  cases hf with
  | nothing => exact h
  | released haddress hus hxs hd =>
    subst hus
    apply h.move hlists rfl
    grind

/-- Two pieces at different places of the lists do not overlap. -/
theorem Partition.disjoint (h : Partition s fs us u) {d e : BitVec 32} (hd : d ∈ fs ++ us)
    (he : e ∈ fs ++ us) (hde : d ≠ e) : Disjoint (s.range d).bytes (s.range e).bytes := by
  have hdisj := h.tiles.disjoint
  unfold pieces at hdisj
  rw [List.pairwise_map] at hdisj
  have : Std.Symm fun a b => Disjoint (s.range a).bytes (s.range b).bytes :=
    ⟨fun _ _ hab => hab.symm⟩
  exact hdisj.forall hd he hde

theorem Partition.exclusive (h : Partition s fs us u)
    (ha : Allocates s fs us size r s' fs' us') (hlists : Lists s' fs' us') :
    Exclusive s (.alloc size r) s' := by
  intro hr
  cases ha with
  | refused => exact absurd rfl hr
  | @exactFit xs ys d hsize hfs hxs hd =>
    subst hfs
    have hrange : s.range d = ⟨(s.range d).baseAddress, size⟩ := by
      rw [← hd]
    constructor
    · exact hlists.onList_used.mpr ⟨d, by simp, hrange⟩
    · intro q hq
      obtain ⟨e, he, rfl⟩ := h.lists.onList_used.mp hq
      rw [← hrange]
      apply h.disjoint (by simp) (by simp [he])
      rintro rfl
      exact h.lists.disjoint d (by simp) he
  | @firstFit xs ys d hsize hfs hexact hxs hd =>
    subst hfs
    have hnew := h.split hsize hd hlists
    have hplace := split_chunk s d size
    constructor
    · exact hlists.onList_used.mpr ⟨s.heap, by simp, hplace⟩
    · intro q hq
      obtain ⟨e, he, rfl⟩ := h.lists.onList_used.mp hq
      have hes : e ≠ s.heap :=
        fun heq => hlists.heap_notMem (heq ▸ List.mem_append_right _ he)
      have hed : e ≠ d := by
        rintro rfl
        exact h.lists.disjoint e (by simp) he
      rw [← hplace, ← split_other s hes hed size]
      exact hnew.disjoint (by simp) (by simp [he]) hes.symm

theorem HeapStep.partition {c : HeapCall} (hstep : HeapStep s c s') (hroom : FindsRoom s c)
    (h : Partition s fs us u) :
    (∃ fs' us', Partition s' fs' us' u) ∧ Exclusive s c s' := by
  cases hstep with
  | alloc call =>
    obtain ⟨fs', us', ha⟩ := heapAlloc_allocates h.lists call
    have hlists := ha.lists_of_room h.lists hroom
    exact ⟨⟨fs', us', h.allocates ha hlists⟩, h.exclusive ha hlists⟩
  | free call =>
    obtain ⟨fs', us', hf, hlists⟩ := heapFree_frees h.lists call
    exact ⟨⟨fs', us', h.frees hf hlists⟩, trivial⟩

end Steps

/-- From a good state, whatever is allocated and freed, as long as new descriptors find room: the
state stays good and covers the same bytes, chunks are exclusive, and every further call returns. -/
theorem heap_conserved (s : HeapState) (hs : Good s) (p : List (HeapCall × HeapState))
    (hp : Path HeapStep s p) (hroom : Guarded FindsRoom s p) :
    (∀ x ∈ p, Good x.2 ∧ covered x.2 = covered s) ∧ Along Exclusive s p ∧
      (∀ size, ∃ r s', HeapStep (finalState s p) (.alloc size r) s') ∧
      ∀ address, ∃ s', HeapStep (finalState s p) (.free address) s' := by
  have hstart := hs.partition
  have hstep : ∀ t c t', (∃ fs us, Partition t fs us (covered s)) → FindsRoom t c →
      HeapStep t c t' → (∃ fs us, Partition t' fs us (covered s)) ∧ Exclusive t c t' := by
    rintro t c t' ⟨fs, us, h⟩ hroom hc
    exact hc.partition hroom h
  have hall := hp.invariant_of_guarded (fun t c t' hs hg hc => (hstep t c t' hs hg hc).1) hstart
    hroom
  obtain ⟨fs, us, hlast⟩ : ∃ fs us, Partition (finalState s p) fs us (covered s) :=
    finalState_of_forall (P := fun t => ∃ fs us, Partition t fs us (covered s)) hstart hall
  refine ⟨?_, ?_, ?_, ?_⟩
  · intro x hx
    obtain ⟨fs', us', h⟩ := hall x hx
    exact ⟨h.good, h.covered_eq⟩
  · exact hp.along_of_guarded hstep hstart hroom
  · intro size
    obtain ⟨r, s', hcall⟩ := heapAlloc_terminates hlast.lists size (Nat.lt_succ_self _)
    exact ⟨r, s', .alloc hcall⟩
  · intro address
    obtain ⟨s', hcall⟩ := heapFree_terminates hlast.lists address (Nat.lt_succ_self _)
    exact ⟨s', .free hcall⟩

/-- A heap with one free range. -/
def oneRange : HeapState where
  links :=
    let cleared : Links RangeList (BitVec 32) :=
      { load := fun _ => none, tqePrev := fun _ => .null, tqhLast := fun _ => .null }
    insertTail (init (init cleared .freeMemoryRanges) .usedMemoryRanges) .freeMemoryRanges 0x200000
  range _ := { baseAddress := 0x1000, size := 0x1000 }
  heap := 0x200010

theorem lists_oneRange : Lists oneRange [0x200000] [] :=
  ⟨⟨⟨⟨⟨rfl, trivial⟩, rfl⟩, rfl⟩, ⟨rfl, trivial⟩⟩, ⟨⟨⟨trivial, rfl⟩, rfl⟩, trivial⟩, by simp⟩

theorem good_oneRange : Good oneRange := by
  have hproper : MemoryRange.Proper ⟨0x1000, 0x1000⟩ := ⟨by decide, by decide⟩
  exact ⟨_, _, lists_oneRange, fun _ _ => hproper, by simp⟩

theorem room_oneRange : Room 2 oneRange := by
  refine ⟨by decide, by decide, fun list d hd => ?_⟩
  have hmem := lists_oneRange.listed.mp ⟨list, hd⟩
  rw [List.append_nil, List.mem_singleton] at hmem
  subst hmem
  decide

theorem heap_conserved_oneRange : ∃ p, Path HeapStep oneRange p ∧
    p.map Prod.fst = [.alloc 0x100 0x1f00, .free 0x1f00, .free 0x1f00] ∧
    Guarded FindsRoom oneRange p ∧
    ((∀ x ∈ p, Good x.2 ∧ covered x.2 = covered oneRange) ∧ Along Exclusive oneRange p ∧
      (∀ size, ∃ r s', HeapStep (finalState oneRange p) (.alloc size r) s') ∧
      ∀ address, ∃ s', HeapStep (finalState oneRange p) (.free address) s') := by
  have halloc : HeapStep oneRange (.alloc 0x100 0x1f00) _ := @HeapStep.alloc _ _ 3 _ _ rfl
  have hfree : HeapStep _ (.free 0x1f00) _ := @HeapStep.free
    (oneRange.split 0x200000 0x100) _ 3 _ rfl
  have hagain : HeapStep _ (.free 0x1f00) _ := @HeapStep.free
    ((oneRange.split 0x200000 0x100).move .usedMemoryRanges .freeMemoryRanges 0x200010) _ 3 _ rfl
  have hp := Path.cons halloc (.cons hfree (.cons hagain (.nil _)))
  have hfirst : FindsRoom oneRange (.alloc 0x100 0x1f00) := fun _ => room_oneRange.le (by decide)
  exact ⟨_, hp, rfl, ⟨hfirst, findsRoom_free _ _, findsRoom_free _ _, trivial⟩,
    heap_conserved oneRange good_oneRange _ hp
      ⟨hfirst, findsRoom_free _ _, findsRoom_free _ _, trivial⟩⟩

/-- A heap with one free range, and with the last place for a descriptor. -/
def lastPlace : HeapState := { oneRange with heap := 0xfffffff0 }

theorem lists_lastPlace : Lists lastPlace [0x200000] [] :=
  ⟨lists_oneRange.free, lists_oneRange.used, lists_oneRange.disjoint⟩

theorem good_lastPlace : Good lastPlace := by
  have hproper : MemoryRange.Proper ⟨0x1000, 0x1000⟩ := ⟨by decide, by decide⟩
  exact ⟨_, _, lists_lastPlace, fun _ _ => hproper, by simp⟩

/-- Two chunks are cut off the range. -/
def twoChunks : List (HeapCall × HeapState) :=
  let once := lastPlace.split 0x200000 0x100
  [(.alloc 0x100 0x1f00, once), (.alloc 0x100 0x1e00, once.split 0x200000 0x100)]

theorem path_twoChunks : Path HeapStep lastPlace twoChunks :=
  .cons (@HeapStep.alloc _ _ 3 _ _ rfl) (.cons (@HeapStep.alloc _ _ 3 _ _ rfl) (.nil _))

/-- The bump pointer has wrapped around, and the second chunk is on no list. -/
theorem second_chunk_lost : ¬ OnList (finalState lastPlace twoChunks) .usedMemoryRanges
    ⟨0x1e00, 0x100⟩ := by
  have hwalk : Walk (finalState lastPlace twoChunks).links (.first .usedMemoryRanges)
      [0xfffffff0] := ⟨⟨rfl, trivial⟩, rfl⟩
  rw [onList_iff hwalk]
  rintro ⟨d, hd, hrange⟩
  rw [List.mem_singleton.mp hd] at hrange
  have hbase := congrArg MemoryRange.baseAddress hrange
  exact absurd hbase (by decide)

/-- Without room for the descriptors memory is lost. -/
theorem heap_not_conserved : ¬ ∀ s, Good s → ∀ p, Path HeapStep s p →
    (∀ x ∈ p, Good x.2 ∧ covered x.2 = covered s) ∧ Along Exclusive s p := by
  intro h
  obtain ⟨-, -, hsecond, -⟩ := h lastPlace good_lastPlace twoChunks path_twoChunks
  exact second_chunk_lost (hsecond (by decide)).1

end Einherjar.Memory
