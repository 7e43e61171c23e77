import Einherjar.Colorforth.CellTexts
import Einherjar.Colorforth.Encoder
import Mathlib.Data.List.TakeWhile

/-! Numbers written with the letters of a single cell: such a number is never the cell itself. -/
namespace Einherjar.Colorforth
open Einherjar.Lib

section digits

variable {w u : List Char}

/-- The characters of numbers have the longest codes. -/
def IsLong (c : Char) : Prop := codeLength (code.idxOf c) = 7

instance (c : Char) : Decidable (IsLong c) := by unfold IsLong; infer_instance

theorem isLong_digit {c : Char} (hc : c ∈ code) {d : ℕ} (h : digitValue 10 c = some d) :
    IsLong c := by
  have hall : ∀ c ∈ code, (digitValue 10 c).isSome = true → IsLong c := by decide
  exact hall c hc (by rw [h]; rfl)

theorem digitValue_lt {c : Char} {d : ℕ} (h : digitValue 10 c = some d) : d < 10 := by
  unfold digitValue at h
  dsimp only at h
  split_ifs at h with h0 hlt <;> simp_all

theorem digitsValue_bounds (hw : ∀ c ∈ w, c ∈ code) {value n : ℕ}
    (h : digitsValue 10 w value = some n) :
    (∀ c ∈ w, IsLong c) ∧ n < (value + 1) * 10 ^ w.length := by
  induction w generalizing value with
  | nil =>
    obtain rfl := Option.some.inj h
    simp
  | cons c w ih =>
    obtain ⟨hc, hw⟩ := List.forall_mem_cons.mp hw
    rw [digitsValue] at h
    cases hd : digitValue 10 c with
    | none => simp [hd] at h
    | some d =>
      rw [hd] at h
      obtain ⟨hlong, hlt⟩ := ih hw h
      have hdigit := digitValue_lt hd
      refine ⟨List.forall_mem_cons.mpr ⟨isLong_digit hc hd, hlong⟩, hlt.trans_le ?_⟩
      rw [List.length_cons, pow_succ', ← Nat.mul_assoc]
      exact Nat.mul_le_mul_right _ (by omega)

theorem unsignedInt_bounds (hw : ∀ c ∈ w, c ∈ code) {n : ℕ} (h : unsignedInt 10 w = some n) :
    w ≠ [] ∧ (∀ c ∈ w, IsLong c) ∧ n < 10 ^ w.length := by
  unfold unsignedInt at h
  split at h
  · cases h
  · simp at h
  · simp at h
  · obtain ⟨hlong, hlt⟩ := digitsValue_bounds hw h
    exact ⟨by simp, hlong, by simpa using hlt⟩

/-- The letters of a number: spaces, and at most one sign before the digits. -/
theorem int_letters (hw : ∀ c ∈ w, c ∈ code) (htight : Tight w) {v : ℤ}
    (h : int 10 w = some v) : ∃ k u, w = List.replicate k ' ' ++ u ∧ u ≠ [] ∧
      (∀ c ∈ u, IsLong c) ∧ v.natAbs < 10 ^ u.length ∧ (v < 0 → u.head? = some '-') := by
  have hspace : ∀ c ∈ code, isSpace c = true → c = ' ' := by decide
  have hsplit : w.takeWhile isSpace ++ w.dropWhile isSpace = w := List.takeWhile_append_dropWhile
  have hspaces : w.takeWhile isSpace = List.replicate (w.takeWhile isSpace).length ' ' := by
    refine List.eq_replicate_iff.mpr ⟨rfl, fun c hc => ?_⟩
    exact hspace c (hw c ((List.takeWhile_sublist _).subset hc)) (List.mem_takeWhile_imp hc)
  refine ⟨(w.takeWhile isSpace).length, w.dropWhile isSpace, by rw [← hspaces, hsplit], ?_⟩
  have hu : ∀ c ∈ w.dropWhile isSpace, c ∈ code := fun c hc =>
    hw c ((List.dropWhile_sublist _).subset hc)
  have hstrip : ((w.dropWhile isSpace).reverse.dropWhile isSpace).reverse =
      w.dropWhile isSpace := by
    rcases List.eq_nil_or_concat (w.dropWhile isSpace) with hnil | ⟨v, c, hv⟩
    · rw [hnil]
      rfl
    · have hlast : w.getLast? = some c := by rw [← hsplit, hv]; simp
      have hc : ¬ isSpace c = true := by
        intro hspace'
        refine htight (hlast.trans ?_)
        rw [hspace c (hu c (by rw [hv]; simp)) hspace']
      rw [hv, List.concat_eq_append, List.reverse_append, List.reverse_singleton,
        List.singleton_append, List.dropWhile_cons_of_neg hc]
      simp
  unfold int at h
  rw [hstrip] at h
  generalize w.dropWhile isSpace = u at h hu
  have hgrow : ∀ n m : ℕ, n < 10 ^ m → n < 10 ^ (m + 1) := fun n m hn =>
    hn.trans (Nat.pow_lt_pow_right (by decide) (Nat.lt_succ_self m))
  have hnumber : ∀ (cs : List Char) (f : ℤ → ℤ),
      Option.map f (do let n ← unsignedInt 10 cs; pure (n : ℤ)) = some v →
        ∃ n, unsignedInt 10 cs = some n ∧ f (n : ℤ) = v := by
    intro cs f hmap
    cases hn : unsignedInt 10 cs with
    | none => simp [hn] at hmap
    | some n => exact ⟨n, rfl, by simpa [hn] using hmap⟩
  split at h
  · rename_i cs
    obtain ⟨n, hn, rfl⟩ := hnumber _ _ h
    obtain ⟨-, hlong, hlt⟩ := unsignedInt_bounds (fun c hc => hu c (List.mem_cons_of_mem _ hc)) hn
    exact ⟨by simp, List.forall_mem_cons.mpr ⟨by decide, hlong⟩, by simpa using hgrow n _ hlt,
      fun _ => rfl⟩
  · rename_i cs
    obtain ⟨n, hn, rfl⟩ := hnumber _ _ h
    obtain ⟨-, hlong, hlt⟩ := unsignedInt_bounds (fun c hc => hu c (List.mem_cons_of_mem _ hc)) hn
    exact ⟨by simp, List.forall_mem_cons.mpr ⟨by decide, hlong⟩, by simpa using hgrow n _ hlt,
      fun hneg => absurd hneg (by omega)⟩
  · obtain ⟨n, hn, rfl⟩ := hnumber _ _ h
    obtain ⟨hne, hlong, hlt⟩ := unsignedInt_bounds hu hn
    exact ⟨hne, hlong, by simpa using hlt, fun hneg => absurd hneg (by omega)⟩

end digits

section cells

variable {u : List Char}

theorem length_codeBits_long (hu : ∀ c ∈ u, IsLong c) : (codeBits u).length = 7 * u.length := by
  induction u with
  | nil => rfl
  | cons c u ih =>
    obtain ⟨hc, hu⟩ := List.forall_mem_cons.mp hu
    rw [codeBits_cons, List.length_append, length_bits, ih hu, hc, List.length_cons]
    omega

/-- Spaces move the other characters down. -/
theorem field_spaces (k n : ℕ) (u : List Char) :
    field (n + 4 * k) (codeBits (List.replicate k ' ' ++ u)) = field n (codeBits u) := by
  induction k with
  | zero => rfl
  | succ k ih =>
    have hlen : codeLength (code.idxOf ' ') = 4 := by decide
    have hnum : codeNumber (code.idxOf ' ') = 0 := by decide
    rw [List.replicate_succ, List.cons_append, field_codeBits_cons (by decide) (by omega), hlen,
      hnum, Nat.zero_mul, Nat.zero_add, ← ih]
    congr 1

theorem codeNumber_long {c : Char} (hc : c ∈ code) (hlong : IsLong c) :
    96 ≤ codeNumber (code.idxOf c) := by
  have hall : ∀ c ∈ code, IsLong c → 96 ≤ codeNumber (code.idxOf c) := by decide
  exact hall c hc hlong

/-- A cell whose letters are a number is larger than the number, and it is not as large as a
cell with a negative number. -/
theorem ofInt_unpack_ne {c : Cell} {v : ℤ} (h : int 10 (unpack c) = some v) :
    BitVec.ofInt 32 v ≠ c := by
  obtain ⟨htext, hfield⟩ := cellText_unpack c
  obtain ⟨k, u, hu, hne, hlong, hlt, hminus⟩ := int_letters htext.letters htext.tight h
  rw [hu] at htext hfield
  have hwide := htext.fits.field_add 4
  rw [hfield] at hwide
  -- all but the last character have their bits in the cell
  have hroom : 4 * k + 7 * (u.length - 1) < 28 := by
    rcases List.eq_nil_or_concat u with rfl | ⟨v, d, rfl⟩
    · exact absurd rfl hne
    · rw [List.concat_eq_append] at htext hlong ⊢
      rw [← List.append_assoc] at htext
      have hlen := htext.room
      rw [codeBits_append, List.length_append, codeBits_spaces,
        length_codeBits_long fun x hx => hlong x (List.mem_append_left _ hx)] at hlen
      simpa using hlen
  obtain ⟨d, t, rfl⟩ := List.exists_cons_of_ne_nil hne
  have hd : d ∈ code := htext.letters d (by simp)
  have hdlong : codeLength (code.idxOf d) = 7 := hlong d List.mem_cons_self
  have hspaces := field_spaces k (32 - 4 * k) (d :: t)
  rw [Nat.sub_add_cancel (by omega), hwide, field_codeBits_cons hd (by omega), hdlong] at hspaces
  have hrest := field_lt (32 - 4 * k - 7) (codeBits t)
  have hnumber := codeNumber_long hd (hlong d List.mem_cons_self)
  rw [List.length_cons] at hroom hlt
  have hk : k ≤ 6 := by omega
  have hfew : 10 ^ (t.length + 1) ≤ 10 ^ ((27 - 4 * k) / 7 + 1) :=
    Nat.pow_le_pow_right (by decide) (by omega)
  have hplaces : 10 ^ ((27 - 4 * k) / 7 + 1) ≤ 96 * 2 ^ (32 - 4 * k - 7) ∧
      10 ^ ((27 - 4 * k) / 7 + 1) ≤ 10 ^ 4 ∧ 2 ^ (32 - 4 * k - 7) ≤ 2 ^ 25 := by
    interval_cases k <;> decide
  obtain ⟨hbelow, hsmall, hplace⟩ := hplaces
  generalize 10 ^ ((27 - 4 * k) / 7 + 1) = bound at *
  generalize 10 ^ (t.length + 1) = many at *
  have hlow : 96 * 2 ^ (32 - 4 * k - 7) ≤
      codeNumber (code.idxOf d) * 2 ^ (32 - 4 * k - 7) := Nat.mul_le_mul_right _ hnumber
  intro heq
  have htoNat := congrArg BitVec.toNat heq
  rw [BitVec.toNat_ofInt] at htoNat
  by_cases hneg : v < 0
  · obtain rfl : d = '-' := by simpa using hminus hneg
    rw [show codeNumber (code.idxOf '-') = 115 by decide] at hspaces
    generalize 2 ^ (32 - 4 * k - 7) = place at *
    omega
  · generalize 2 ^ (32 - 4 * k - 7) = place at *
    generalize codeNumber (code.idxOf d) * place = high at *
    omega

end cells

end Einherjar.Colorforth
