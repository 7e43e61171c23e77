import Mathlib.Data.List.Basic
import Mathlib.Data.Set.Lattice
import Mathlib.Order.CompletePartialOrder

/-! What is put together from pieces: a set cut into finitely many non-empty pieces that do not
overlap, and a list of chunks of equal length. -/
namespace Einherjar.Lib

variable {α : Type*}

/-- The pieces of the list are the set `u`, cut up. -/
structure Tiles (pieces : List (Set α)) (u : Set α) : Prop where
  nonempty : ∀ s ∈ pieces, s.Nonempty
  disjoint : pieces.Pairwise Disjoint
  union : ∀ a, a ∈ u ↔ ∃ s ∈ pieces, a ∈ s

namespace Tiles

variable {pieces pieces' : List (Set α)} {u v s t : Set α}

theorem perm (h : Tiles pieces u) (hp : pieces.Perm pieces') : Tiles pieces' u where
  nonempty x hx := h.nonempty x (hp.mem_iff.mpr hx)
  disjoint := (hp.pairwise_iff fun hd => hd.symm).mp h.disjoint
  union a := by simp only [h.union, hp.mem_iff]

theorem unique (h : Tiles pieces u) (h' : Tiles pieces v) : u = v := by
  ext a
  rw [h.union, h'.union]

/-- Cutting one piece in two. -/
theorem cut (h : Tiles ((s ∪ t) :: pieces) u) (hs : s.Nonempty) (ht : t.Nonempty)
    (hst : Disjoint s t) : Tiles (s :: t :: pieces) u := by
  obtain ⟨hhead, htail⟩ := List.pairwise_cons.mp h.disjoint
  constructor
  case nonempty =>
    intro x hx
    rcases List.mem_cons.mp hx with rfl | hx
    · exact hs
    rcases List.mem_cons.mp hx with rfl | hx
    · exact ht
    · exact h.nonempty x (List.mem_cons_of_mem _ hx)
  case disjoint =>
    refine List.pairwise_cons.mpr ⟨?_, List.pairwise_cons.mpr ⟨?_, htail⟩⟩
    · intro x hx
      rcases List.mem_cons.mp hx with rfl | hx
      · exact hst
      · exact (Set.disjoint_union_left.mp (hhead x hx)).1
    · exact fun x hx => (Set.disjoint_union_left.mp (hhead x hx)).2
  case union =>
    intro a
    rw [h.union]
    simp only [List.mem_cons, exists_eq_or_imp, Set.mem_union]
    tauto

end Tiles

/-! Chunks of equal length. -/

section chunks

variable {k : ℕ} {chunks : List (List α)}

/-- The chunk with the number `n`. -/
def chunk (k : ℕ) (xs : List α) (n : ℕ) : List α := (xs.drop (k * n)).take k

theorem length_chunk {xs : List α} {n : ℕ} (h : k * (n + 1) ≤ xs.length) :
    (chunk k xs n).length = k := by
  rw [Nat.mul_succ] at h
  rw [chunk, List.length_take, List.length_drop]
  omega

/-- The chunks of a list are the list. -/
theorem flatten_chunks (k : ℕ) (xs : List α) (n : ℕ) :
    ((List.range n).map (chunk k xs)).flatten = xs.take (k * n) := by
  induction n with
  | zero => simp
  | succ n ih =>
    rw [List.range_succ, List.map_append, List.flatten_append, ih, List.map_singleton,
      List.flatten_singleton, chunk, Nat.mul_succ, List.take_add]

/-- Element `i` of chunk `n`. -/
theorem getElem?_flatten (h : ∀ c ∈ chunks, c.length = k) {n i : ℕ} (hi : i < k) :
    chunks.flatten[k * n + i]? = chunks[n]?.bind fun xs => xs[i]? := by
  induction chunks generalizing n with
  | nil => simp
  | cons c chunks ih =>
    have hc : c.length = k := h c List.mem_cons_self
    cases n with
    | zero =>
      rw [Nat.mul_zero, Nat.zero_add, List.flatten_cons,
        List.getElem?_append_left (by rw [hc]; exact hi)]
      rfl
    | succ n =>
      rw [List.flatten_cons, List.getElem?_append_right (by rw [hc, Nat.mul_succ]; omega),
        List.getElem?_cons_succ, ← ih fun x hx => h x (List.mem_cons_of_mem _ hx)]
      congr 1
      rw [hc, Nat.mul_succ]
      omega

end chunks

end Einherjar.Lib
