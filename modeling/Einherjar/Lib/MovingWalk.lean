import Einherjar.Lib.DoublyLinked

/-! A walk over a tail queue that moves elements to the end of another queue as it goes, and
follows the link of an element after it has moved it. -/
namespace Einherjar.Lib.TailQueue

variable {η ν : Type*} {m : Links η ν} {source target : η} {xs ys zs ts : List ν} {x : ν}

/-- The last element of a queue has no successor. -/
theorem Tailq.next_last (h : Tailq m target (ts ++ [x])) : m.load (.next x) = none := by
  have hend := h.queue.2
  rwa [h.queue.1.2, endSlot_concat] at hend

/-- A walk over a queue from somewhere in it. -/
theorem Tailq.walk_from (h : Tailq m source (ys ++ zs)) :
    Walk m (endSlot (.first source) ys) zs := by
  obtain ⟨hl, hend⟩ := h.queue.walk
  rw [endSlot_append] at hend
  exact ⟨((linked_append ..).mp hl).2, hend⟩

/-- Two queues with no element in common have none either when an element goes from one to the
other. -/
theorem Tailq.relink_disjoint (hs : Tailq m source (xs ++ x :: ys))
    (hdisj : ∀ y ∈ xs ++ x :: ys, y ∉ ts) : ∀ y ∈ xs ++ ys, y ∉ ts ++ [x] := by
  have hx : x ∉ xs ++ ys := (List.nodup_cons.mp (List.nodup_middle.mp hs.nodup)).1
  intro y hy hmem
  rcases List.mem_append.mp hmem with hmem | hmem
  · refine hdisj y ?_ hmem
    rcases List.mem_append.mp hy with hy | hy
    · exact List.mem_append_left _ hy
    · exact List.mem_append_right _ (List.mem_cons_of_mem _ hy)
  · exact hx (List.mem_singleton.mp hmem ▸ hy)

variable [DecidableEq η] [DecidableEq ν] {p : ν → Bool}

/-- Remove an element from one queue and insert it at the end of another. -/
def relink (m : Links η ν) (source target : η) (elm : ν) : Links η ν :=
  insertTail (remove m source elm) target elm

/-- `TAILQ_FOREACH` with a body that moves the elements with a property: the elements visited, and
the links after the walk. `none` says that the fuel was not enough. -/
def moveWalk (p : ν → Bool) (source target : η) :
    ℕ → Links η ν → Option ν → Option (List ν × Links η ν)
  | 0, _, _ => none
  | _ + 1, m, none => some ([], m)
  | fuel + 1, m, some x =>
    let m := if p x then relink m source target x else m
    (moveWalk p source target fuel m (m.load (.next x))).map fun r => (x :: r.1, r.2)

/-- Both queues stay in order when an element goes from one to the end of the other. -/
theorem Tailq.relink (hs : Tailq m source (xs ++ x :: ys)) (ht : Tailq m target ts)
    (hne : source ≠ target) (hdisj : ∀ y ∈ xs ++ x :: ys, y ∉ ts) :
    Tailq (relink m source target x) source (xs ++ ys) ∧
      Tailq (TailQueue.relink m source target x) target (ts ++ [x]) := by
  have hx : x ∉ xs ++ ys := (List.nodup_cons.mp (List.nodup_middle.mp hs.nodup)).1
  have htarget := ht.remove_other hs hne hdisj
  constructor
  · refine hs.remove.insertTail_other htarget.queue hne.symm ?_ hx
    intro y hy hmem
    refine hdisj y ?_ hy
    rcases List.mem_append.mp hmem with h | h
    · exact List.mem_append_left _ h
    · exact List.mem_append_right _ (List.mem_cons_of_mem _ h)
  · exact htarget.insertTail (hdisj x (by simp))

/-- More fuel does not change what the walk comes to. -/
theorem moveWalk_mono {fuel fuel' : ℕ} (hfuel : fuel ≤ fuel') {o : Option ν}
    {r : List ν × Links η ν} (h : moveWalk p source target fuel m o = some r) :
    moveWalk p source target fuel' m o = some r := by
  induction fuel generalizing fuel' m o r with
  | zero => cases h
  | succ fuel ih =>
    obtain ⟨fuel', rfl⟩ := Nat.exists_eq_succ_of_ne_zero (Nat.ne_zero_of_lt hfuel)
    cases o with
    | none => exact h
    | some x =>
      rw [moveWalk] at h ⊢
      obtain ⟨rest, hrest, hr⟩ := Option.map_eq_some_iff.mp h
      exact Option.map_eq_some_iff.mpr ⟨rest, ih (Nat.le_of_succ_le_succ hfuel) hrest, hr⟩

/-- What the walk does: it visits the elements up to the first one with the property, and moves
this one. -/
inductive Moves (p : ν → Bool) (source target : η) (m : Links η ν) (zs : List ν) :
    List ν → Links η ν → Prop
  | nothing (h : ∀ z ∈ zs, ¬ p z) : Moves p source target m zs zs m
  | moved {us ws : List ν} {x : ν} (hzs : zs = us ++ x :: ws) (hus : ∀ u ∈ us, ¬ p u)
      (hx : p x) : Moves p source target m zs (us ++ [x]) (relink m source target x)

theorem Moves.cons {visited : List ν} {m' : Links η ν} (hx : ¬ p x)
    (h : Moves p source target m zs visited m') :
    Moves p source target m (x :: zs) (x :: visited) m' := by
  cases h with
  | nothing h => exact .nothing (List.forall_mem_cons.mpr ⟨hx, h⟩)
  | moved hzs hus hy =>
    subst hzs
    exact .moved rfl (List.forall_mem_cons.mpr ⟨hx, hus⟩) hy

/-- From an element on, the walk ends, at the latest with the element that it moves: this one is
then the last of the other queue, and has no successor. -/
theorem moveWalk_moves (hs : Tailq m source (ys ++ zs)) (ht : Tailq m target ts)
    (hne : source ≠ target) (hdisj : ∀ y ∈ ys ++ zs, y ∉ ts) :
    ∃ visited m', Moves p source target m zs visited m' ∧ ∀ fuel > zs.length,
      moveWalk p source target fuel m (m.load (endSlot (.first source) ys)) =
        some (visited, m') := by
  induction zs generalizing ys with
  | nil =>
    refine ⟨[], m, .nothing (by simp), fun fuel hfuel => ?_⟩
    obtain ⟨fuel, rfl⟩ := Nat.exists_eq_succ_of_ne_zero (Nat.ne_zero_of_lt hfuel)
    rw [walk_nil.mp hs.walk_from]
    rfl
  | cons x zs ih =>
    have hfirst := (walk_cons.mp hs.walk_from).1
    by_cases hx : p x
    · have hmoves : Moves p source target m (x :: zs) [x] (TailQueue.relink m source target x) :=
        .moved (List.nil_append _).symm (List.forall_mem_nil _) hx
      refine ⟨[x], TailQueue.relink m source target x, hmoves, fun fuel hfuel => ?_⟩
      have hlast := (hs.relink ht hne hdisj).2.next_last
      rw [List.length_cons] at hfuel
      obtain ⟨fuel, rfl⟩ := Nat.exists_eq_succ_of_ne_zero (Nat.ne_zero_of_lt hfuel)
      obtain ⟨fuel, rfl⟩ := Nat.exists_eq_succ_of_ne_zero (n := fuel) (by omega)
      simp only [hfirst, moveWalk, hx, if_true, hlast, Option.map_some]
    · rw [List.append_cons] at hs hdisj
      obtain ⟨visited, m', hmoves, hwalk⟩ := ih hs hdisj
      refine ⟨x :: visited, m', hmoves.cons hx, fun fuel hfuel => ?_⟩
      rw [List.length_cons] at hfuel
      obtain ⟨fuel, rfl⟩ := Nat.exists_eq_succ_of_ne_zero (Nat.ne_zero_of_lt hfuel)
      have hrest := hwalk fuel (by omega)
      rw [endSlot_concat] at hrest
      rw [hfirst, moveWalk]
      simp only [hx, Bool.false_eq_true, if_false, hrest, Option.map_some]

end Einherjar.Lib.TailQueue
