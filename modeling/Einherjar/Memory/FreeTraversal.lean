import Einherjar.Memory.HeapCalls

/-! The loop of `heap_free` at the level of its pointers: it unlinks the descriptor on which it
stands, and goes on through the link of this descriptor. -/
namespace Einherjar.Memory
open Einherjar.Lib.TailQueue

/-- `heap_free` with the descriptors that its loop visits, in order. -/
def heapFreeVisits (fuel : ℕ) (s : HeapState) (address : BitVec 32) :
    Option (List (BitVec 32) × HeapState) :=
  if address = 0 then some ([], s)
  else
    (moveWalk (fun d => decide ((s.range d).baseAddress = address)) .usedMemoryRanges
      .freeMemoryRanges fuel s.links (first s.links .usedMemoryRanges)).map
        fun r => (r.1, { s with links := r.2 })

theorem heapFreeVisits_snd (fuel : ℕ) (s : HeapState) (address : BitVec 32) :
    (heapFreeVisits fuel s address).map Prod.snd = heapFree fuel s address := by
  unfold heapFreeVisits heapFree
  split_ifs
  · rfl
  · rw [heapFreeLoop_eq, Option.map_map]
    rfl

/-- The descriptor is the one that `heap_free(address)` looks for. -/
def Sought (s : HeapState) (address : BitVec 32) (d : BitVec 32) : Prop :=
  address ≠ 0 ∧ (s.range d).baseAddress = address

instance (s : HeapState) (address d : BitVec 32) : Decidable (Sought s address d) := by
  unfold Sought
  infer_instance

section traversal

variable {s : HeapState} {fs us xs ys : List (BitVec 32)} {d : BitVec 32} {address : BitVec 32}

theorem filter_not_sought (h : ∀ e ∈ xs, ¬ Sought s address e) :
    xs.filter (Sought s address ·) = [] ∧ xs.filter (¬ Sought s address ·) = xs := by
  constructor
  · exact List.filter_eq_nil_iff.mpr fun e he => by simpa using h e he
  · exact List.filter_eq_self.mpr fun e he => by simpa using h e he

/-- When no used descriptor is sought, both lists are as after the call already. -/
theorem Lists.not_sought (h : Lists s fs us) (hothers : ∀ e ∈ us, ¬ Sought s address e)
    (visited : List (BitVec 32)) :
    (us.filter (Sought s address ·)).length ≤ 1 ∧
      (∀ d ∈ us.filter (Sought s address ·), visited.getLast? = some d) ∧
      Lists s (fs ++ us.filter (Sought s address ·)) (us.filter (¬ Sought s address ·)) := by
  obtain ⟨hnil, hself⟩ := filter_not_sought hothers
  rw [hnil, hself, List.append_nil]
  exact ⟨Nat.zero_le _, List.forall_mem_nil _, h⟩

/-- Only the descriptor in the middle is sought. -/
theorem filter_sought (hxs : ∀ e ∈ xs, ¬ Sought s address e) (hd : Sought s address d)
    (hbases : ((xs ++ d :: ys).map fun e => (s.range e).baseAddress).Nodup) :
    (xs ++ d :: ys).filter (Sought s address ·) = [d] ∧
      (xs ++ d :: ys).filter (¬ Sought s address ·) = xs ++ ys := by
  have hys : ∀ e ∈ ys, ¬ Sought s address e := by
    intro e he hsought
    rw [List.map_append, List.map_cons] at hbases
    have hnot := (List.nodup_cons.mp (List.nodup_append.mp hbases).2.1).1
    exact hnot (List.mem_map.mpr ⟨e, he, hsought.2.trans hd.2.symm⟩)
  obtain ⟨hnilxs, hselfxs⟩ := filter_not_sought hxs
  obtain ⟨hnilys, hselfys⟩ := filter_not_sought hys
  simp only [List.filter_append, List.filter_cons, hd, hnilxs, hselfxs, hnilys, hselfys,
    decide_true, not_true, decide_false, if_true, Bool.false_eq_true, if_false, List.nil_append,
    and_self]

/-- `heap_free` ends. It visits descriptors of the used list only, up to the one that is sought;
this one goes to the end of the free list, all others stay where they are in their lists, and
both lists are well formed again. -/
theorem heapFree_traversal (h : Lists s fs us)
    (hbases : (us.map fun d => (s.range d).baseAddress).Nodup) (address : BitVec 32) :
    ∃ visited s', (∀ fuel > us.length, heapFreeVisits fuel s address = some (visited, s') ∧
        heapFree fuel s address = some s') ∧
      visited <+: us ∧ (∀ d ∈ visited, d ∉ fs) ∧
      (us.filter (Sought s address ·)).length ≤ 1 ∧
      (∀ d ∈ us.filter (Sought s address ·), visited.getLast? = some d) ∧
      Lists s' (fs ++ us.filter (Sought s address ·)) (us.filter (¬ Sought s address ·)) ∧
      s'.range = s.range ∧ s'.heap = s.heap := by
  have hdone : ∀ {visited s'}, (∀ fuel > us.length,
      heapFreeVisits fuel s address = some (visited, s')) → ∀ fuel > us.length,
        heapFreeVisits fuel s address = some (visited, s') ∧ heapFree fuel s address = some s' := by
    intro visited s' hvisits fuel hfuel
    exact ⟨hvisits fuel hfuel, by rw [← heapFreeVisits_snd, hvisits fuel hfuel]; rfl⟩
  by_cases haddress : address = 0
  · have hothers : ∀ d ∈ us, ¬ Sought s address d := fun d _ hsought => hsought.1 haddress
    obtain ⟨hone, hlast, hlinked⟩ := h.not_sought hothers []
    exact ⟨[], s, hdone fun _ _ => if_pos haddress, List.nil_prefix, List.forall_mem_nil _, hone,
      hlast, hlinked, rfl, rfl⟩
  · have hused : Tailq s.links .usedMemoryRanges ([] ++ us) := h.used
    have hdisj : ∀ d ∈ us, d ∉ fs := fun d hd hf => h.disjoint d hf hd
    obtain ⟨visited, m, hmoves, hwalk⟩ := moveWalk_moves
      (p := fun d => decide ((s.range d).baseAddress = address)) hused h.free (by decide) hdisj
    have hvisits : ∀ fuel > us.length,
        heapFreeVisits fuel s address = some (visited, { s with links := m }) := by
      intro fuel hfuel
      rw [heapFreeVisits, if_neg haddress, first]
      exact Option.map_eq_some_iff.mpr ⟨_, hwalk fuel hfuel, rfl⟩
    cases hmoves with
    | nothing hnone =>
      have hothers : ∀ d ∈ us, ¬ Sought s address d :=
        fun d hd hsought => hnone d hd (by simpa using hsought.2)
      obtain ⟨hone, hlast, hlinked⟩ := h.not_sought hothers us
      exact ⟨us, s, hdone hvisits, List.prefix_rfl, hdisj, hone, hlast, hlinked, rfl, rfl⟩
    | @moved xs ys d hus hxs hd =>
      subst hus
      simp only [decide_eq_true_eq] at hxs hd
      obtain ⟨hhit, hrest⟩ := filter_sought (fun y hy hsought => hxs y hy hsought.2)
        ⟨haddress, hd⟩ hbases
      have hvisited : xs ++ [d] <+: xs ++ d :: ys := ⟨ys, by simp⟩
      refine ⟨xs ++ [d], _, hdone hvisits, hvisited,
        fun e he => hdisj e (hvisited.subset he), ?_⟩
      rw [hhit, hrest]
      exact ⟨Nat.le_refl _, by simp, h.release, rfl, rfl⟩

end traversal

/-- A heap with two used descriptors and no free one. -/
def twoUsed : HeapState where
  links :=
    let cleared : Links RangeList (BitVec 32) :=
      { load := fun _ => none, tqePrev := fun _ => .null, tqhLast := fun _ => .null }
    let empty := init (init cleared .freeMemoryRanges) .usedMemoryRanges
    insertTail (insertTail empty .usedMemoryRanges 0x200000) .usedMemoryRanges 0x200010
  range d := { baseAddress := d, size := 0x10 }
  heap := 0x200020

theorem lists_twoUsed : Lists twoUsed [] [0x200000, 0x200010] :=
  ⟨⟨⟨⟨trivial, rfl⟩, rfl⟩, trivial⟩,
    ⟨⟨⟨⟨rfl, rfl, trivial⟩, rfl⟩, rfl⟩, ⟨rfl, rfl, trivial⟩⟩, by simp⟩

/-- The first of the two descriptors is released. -/
theorem heapFree_traversal_twoUsed :
    ∃ visited s', (∀ fuel > 2, heapFreeVisits fuel twoUsed 0x200000 = some (visited, s') ∧
        heapFree fuel twoUsed 0x200000 = some s') ∧
      visited <+: [0x200000, 0x200010] ∧ visited.getLast? = some 0x200000 ∧
      Lists s' [0x200000] [0x200010] := by
  obtain ⟨visited, s', hcall, hvisited, -, -, hlast, hlinked, -⟩ :=
    heapFree_traversal lists_twoUsed (by decide) 0x200000
  exact ⟨visited, s', hcall, hvisited, hlast 0x200000 (by decide), hlinked⟩

end Einherjar.Memory
