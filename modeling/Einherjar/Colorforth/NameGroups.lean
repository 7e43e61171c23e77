import Einherjar.Colorforth.Code
import Einherjar.Colorforth.Interpreter

/-! Names divided into groups: each group is as long as a cell has room for, and takes a cell of
its own. -/
namespace Einherjar.Colorforth
open Einherjar.Lib

/-- The greedy division of a name into groups, each in a cell of its own; `g` is the group
begun. -/
def groupsFrom (g : List Char) : List Char → List (List Char)
  | [] => if g = [] then [] else [g]
  | c :: rest =>
    if Fits 28 (codeBits (g ++ [c])) then groupsFrom (g ++ [c]) rest
    else g :: groupsFrom [c] rest

def groupCells (tag : ℕ) (extensionMode : Bool) : List (List Char) → List Cell
  | [] => []
  | g :: gs => nameCell g (if extensionMode then 0 else tag) :: groupCells tag true gs

/-- The cells of a name: a head cell with the tag, and extension cells. -/
def wordCells (tag : ℕ) (w : List Char) : List Cell := groupCells tag false (groupsFrom [] w)

theorem fits_single {c : Char} (hc : c ∈ code.tail) : Fits 28 (codeBits [c]) := by
  apply fits_of_length_le
  have := codeLength_bounds (idxOf_letter hc).2
  rw [codeBits_cons, codeBits_nil, List.append_nil, length_bits]
  omega

theorem groupsFrom_nil_cons {c : Char} (hc : c ∈ code.tail) (rest : List Char) :
    groupsFrom [] (c :: rest) = groupsFrom [c] rest := if_pos (fits_single hc)

theorem codeBits_snoc (g : List Char) (c : Char) :
    codeBits (g ++ [c]) =
      codeBits g ++ bits (codeLength (code.idxOf c)) (codeNumber (code.idxOf c)) := by
  rw [codeBits_append, codeBits_cons, codeBits_nil, List.append_nil]

theorem fits_snoc_iff {g : List Char} (hg : Fits 28 (codeBits g)) (c : Char) :
    Fits 28 (codeBits (g ++ [c])) ↔
      Fits (28 - (codeBits g).length)
        (bits (codeLength (code.idxOf c)) (codeNumber (code.idxOf c))) := by
  rw [codeBits_snoc, fits_append_iff, and_iff_right hg]

/-- A group that fills the cell takes no further letter. -/
theorem not_fits_snoc_of_full {g : List Char} {c : Char} (hc : c ∈ code.tail)
    (hfull : 28 - (codeBits g).length = 0) : ¬ Fits 28 (codeBits (g ++ [c])) := by
  rw [codeBits_snoc, fits_append_iff, hfull]
  exact fun h => not_fits_zero_letter hc h.2

theorem flatten_groupsFrom (g w : List Char) : (groupsFrom g w).flatten = g ++ w := by
  induction w generalizing g with
  | nil =>
    unfold groupsFrom
    split_ifs with hg <;> simp [hg]
  | cons c w ih =>
    unfold groupsFrom
    split_ifs
    · simp [ih]
    · simp [ih]

/-- What holds of every group of a name. -/
structure IsGroup (g : List Char) : Prop where
  letters : ∀ c ∈ g, c ∈ code.tail
  fits : Fits 28 (codeBits g)

theorem isGroup_of_mem_groupsFrom {g w : List Char} (hg : IsGroup g)
    (hw : ∀ c ∈ w, c ∈ code.tail) : ∀ h ∈ groupsFrom g w, IsGroup h := by
  induction w generalizing g with
  | nil =>
    unfold groupsFrom
    split_ifs
    · simp
    · simpa using hg
  | cons c w ih =>
    have hc := hw c List.mem_cons_self
    have hw' := fun x hx => hw x (List.mem_cons_of_mem _ hx)
    unfold groupsFrom
    split_ifs with hfits
    · refine ih ⟨fun x hx => ?_, hfits⟩ hw'
      rcases List.mem_append.mp hx with hx | hx
      · exact hg.letters x hx
      · rwa [List.mem_singleton.mp hx]
    · intro h hh
      rcases List.mem_cons.mp hh with rfl | hh
      · exact hg
      · exact ih ⟨by simpa using hc, fits_single hc⟩ hw' h hh

theorem fits_of_append {n : ℕ} {v w : List Char} (h : Fits n (codeBits (v ++ w))) :
    Fits n (codeBits v) := by
  rw [codeBits_append, fits_append_iff] at h
  exact h.1

/-- The first group is a beginning of the name, and the character after it does not fit. -/
theorem exists_head_group {g : List Char} (hg : g ≠ []) (hfits : Fits 28 (codeBits g))
    (w : List Char) :
    ∃ head tail gs, groupsFrom g w = head :: gs ∧ g ++ w = head ++ tail ∧
      Fits 28 (codeBits head) ∧
      ∀ c rest, tail = c :: rest → ¬ Fits 28 (codeBits (head ++ [c])) := by
  induction w generalizing g with
  | nil => exact ⟨g, [], [], if_neg hg, rfl, hfits, by simp⟩
  | cons c w ih =>
    rw [groupsFrom]
    by_cases hc : Fits 28 (codeBits (g ++ [c]))
    · obtain ⟨head, tail, gs, hgroups, hw, hhead, hnext⟩ := ih (by simp) hc
      exact ⟨head, tail, gs, by rw [if_pos hc, hgroups], by simpa using hw, hhead, hnext⟩
    · refine ⟨g, c :: w, _, if_neg hc, rfl, hfits, ?_⟩
      rintro c' rest hcons
      rwa [← (List.cons.inj hcons).1]

/-- A beginning that fits and cannot be continued is the only one. -/
theorem maximal_prefix_unique {w u v : List Char} (hu : u <+: w) (hv : v <+: w)
    (hfu : Fits 28 (codeBits u)) (hfv : Fits 28 (codeBits v))
    (hnu : ∀ c rest, w = u ++ c :: rest → ¬ Fits 28 (codeBits (u ++ [c])))
    (hnv : ∀ c rest, w = v ++ c :: rest → ¬ Fits 28 (codeBits (v ++ [c]))) : u = v := by
  have hshort : ∀ {a b : List Char}, a <+: b → b <+: w → Fits 28 (codeBits b) →
      (∀ c rest, w = a ++ c :: rest → ¬ Fits 28 (codeBits (a ++ [c]))) → a = b := by
    rintro a b ⟨t, rfl⟩ ⟨rest, rfl⟩ hb hna
    cases t with
    | nil => simp
    | cons c t =>
      refine absurd ?_ (hna c (t ++ rest) (by simp))
      rw [show a ++ c :: t = a ++ [c] ++ t by simp] at hb
      exact fits_of_append hb
  rcases List.prefix_or_prefix_of_prefix hu hv with huv | hvu
  · exact hshort huv hv hfv hnu
  · exact (hshort hvu hu hfu hnv).symm

/-- A name that fits in one cell is one group. -/
theorem groupsFrom_of_fits {g w : List Char} (hne : g ++ w ≠ [])
    (hfits : Fits 28 (codeBits (g ++ w))) : groupsFrom g w = [g ++ w] := by
  induction w generalizing g with
  | nil =>
    rw [List.append_nil] at hne ⊢
    exact if_neg hne
  | cons c w ih =>
    rw [show g ++ c :: w = g ++ [c] ++ w by simp] at hfits ⊢
    rw [groupsFrom, if_pos (fits_of_append hfits), ih (by simp) hfits]

theorem isGroup_groups {w : List Char} (hw : IsWord w) : ∀ g ∈ groupsFrom [] w, IsGroup g :=
  isGroup_of_mem_groupsFrom ⟨by simp, fits_of_length_le (Nat.zero_le _)⟩ hw.letters

/-- A word has a first group. -/
theorem exists_groups {w : List Char} (hw : IsWord w) :
    ∃ g gs, groupsFrom [] w = g :: gs ∧ (∀ x ∈ g :: gs, IsGroup x) ∧ (g :: gs).flatten = w := by
  have hgroups := isGroup_groups hw
  have hflat := flatten_groupsFrom [] w
  cases hcases : groupsFrom [] w with
  | nil =>
    rw [hcases] at hflat
    exact absurd hflat.symm hw.nonempty
  | cons g gs =>
    rw [hcases] at hgroups hflat
    exact ⟨g, gs, rfl, hgroups, hflat⟩

theorem wordCells_of_fits {w : List Char} (hw : IsWord w)
    (hfits : Fits 28 (codeBits w)) (tag : ℕ) : wordCells tag w = [nameCell w tag] := by
  have hone := groupsFrom_of_fits (g := []) hw.nonempty hfits
  rw [wordCells, hone]
  rfl

/-- A name that does not fit goes on in an extension cell. -/
theorem exists_second_group {w : List Char} (hw : IsWord w) (hfits : ¬ Fits 28 (codeBits w)) :
    ∃ head second gs, groupsFrom [] w = head :: second :: gs := by
  obtain ⟨head, tail, hgroups, hgroup, hflat⟩ := exists_groups hw
  cases tail with
  | nil =>
    have hhead : head = w := by simpa using hflat
    exact absurd (hhead ▸ (hgroup head List.mem_cons_self).fits) hfits
  | cons second gs => exact ⟨head, second, gs, hgroups⟩

end Einherjar.Colorforth
