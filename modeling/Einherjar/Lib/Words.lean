import Mathlib.Data.Set.Lattice
import Mathlib.Order.CompletePartialOrder
import Einherjar.Lib.ByteMemory

/-! Words in a memory of bytes: variables and fields that lie apart keep their values while others
are written, and whatever lies elsewhere is not touched. -/
namespace Einherjar.Lib.Memory

/-- The `n` addresses from `a` upwards. -/
def extent (a : BitVec 32) (n : ℕ) : Set (BitVec 32) := { c | (c - a).toNat < n }

/-- The memories agree everywhere else. -/
def SameOutside (region : Set (BitVec 32)) (mem mem' : Memory 32) : Prop :=
  ∀ c ∉ region, mem' c = mem c

section extents

variable {a b : BitVec 32} {k l m n : ℕ}

theorem mem_extent {c : BitVec 32} : c ∈ extent a n ↔ (c - a).toNat < n := Iff.rfl

theorem extent_mono (h : m ≤ n) : extent a m ⊆ extent a n :=
  fun _ hc => Nat.lt_of_lt_of_le hc h

/-- A part of an extent. -/
theorem extent_sub (h : k + m ≤ n) : extent (a + BitVec.ofNat 32 k) m ⊆ extent a n := by
  intro c hc
  rw [mem_extent] at hc ⊢
  bv_omega

/-- Two parts of an extent, one behind the other. -/
theorem extent_disjoint (h : k + m ≤ l) (hl : l + n ≤ 2 ^ 32) :
    Disjoint (extent (a + BitVec.ofNat 32 k) m) (extent (a + BitVec.ofNat 32 l) n) := by
  refine Set.disjoint_left.mpr fun c hc hc' => ?_
  rw [mem_extent] at hc hc'
  bv_omega

theorem extent_apart (h : m ≤ (b - a).toNat) (h' : n ≤ (a - b).toNat) :
    Disjoint (extent a m) (extent b n) := by
  refine Set.disjoint_left.mpr fun c hc hc' => ?_
  rw [mem_extent] at hc hc'
  bv_omega

theorem mem_extent_offset (h : k < n) : a + BitVec.ofNat 32 k ∈ extent a n := by
  rw [mem_extent]
  bv_omega

end extents

section stores

variable {region region' : Set (BitVec 32)} {mem mem' mem'' : Memory 32} {a : BitVec 32}

theorem storeBytes_outside (mem : Memory 32) (a : BitVec 32) (bs : List (BitVec 8)) :
    SameOutside (extent a bs.length) mem (mem.storeBytes a bs) := by
  intro c hc
  apply mem.storeBytes_of_ne
  rintro i hi rfl
  exact hc (mem_extent_offset hi)

theorem store32_outside (mem : Memory 32) (a v : BitVec 32) :
    SameOutside (extent a 4) mem (mem.store32 a v) :=
  storeBytes_outside mem a (bytes32 v)

theorem update_outside (mem : Memory 32) {a : BitVec 32} (ha : a ∈ region) (b : BitVec 8) :
    SameOutside region mem (Function.update mem a b) := by
  intro c hc
  exact Function.update_of_ne (fun he : c = a => hc (he ▸ ha)) _ _

theorem load32_congr (h : ∀ c ∈ extent a 4, mem' c = mem c) : mem'.load32 a = mem.load32 a :=
  load32_of_bytes fun _ hi => h _ (mem_extent_offset hi)

@[refl] theorem SameOutside.refl (region : Set (BitVec 32)) (mem : Memory 32) :
    SameOutside region mem mem := fun _ _ => rfl

theorem SameOutside.trans (h : SameOutside region mem mem')
    (h' : SameOutside region mem' mem'') : SameOutside region mem mem'' :=
  fun c hc => (h' c hc).trans (h c hc)

theorem SameOutside.mono (h : SameOutside region mem mem') (hsub : region ⊆ region') :
    SameOutside region' mem mem' := fun c hc => h c fun hm => hc (hsub hm)

/-- A word that lies elsewhere. -/
theorem SameOutside.load32 (h : SameOutside region mem mem') (ha : Disjoint (extent a 4) region) :
    mem'.load32 a = mem.load32 a :=
  load32_congr fun c hc => h c (Set.disjoint_left.mp ha hc)

/-- A string that lies elsewhere. -/
theorem SameOutside.holds (h : SameOutside region mem mem') {bs : List (BitVec 8)}
    (ha : Disjoint (extent a bs.length) region) (hbs : mem.Holds a bs) : mem'.Holds a bs :=
  hbs.congr fun _ hi => h _ (Set.disjoint_left.mp ha (mem_extent_offset hi))

end stores

section fields

variable {φ : Type*} (word : φ → BitVec 32) (fields : Set φ)

/-- The bytes of the fields. -/
def footprint : Set (BitVec 32) := { c | ∃ f ∈ fields, c ∈ extent (word f) 4 }

/-- No two of the fields overlap. -/
def Separate : Prop :=
  ∀ f ∈ fields, ∀ g ∈ fields, f ≠ g → Disjoint (extent (word f) 4) (extent (word g) 4)

/-- The fields have the values, and elsewhere the memory is as it was at the start. -/
structure Tracks (start mem : Memory 32) (value : φ → BitVec 32) : Prop where
  load : ∀ f ∈ fields, mem.load32 (word f) = value f
  elsewhere : SameOutside (footprint word fields) start mem

variable {word fields} {start mem mem' : Memory 32} {value : φ → BitVec 32} {f : φ}

theorem word_subset (hf : f ∈ fields) : extent (word f) 4 ⊆ footprint word fields :=
  fun _ hc => ⟨f, hf, hc⟩

theorem Tracks.of_load (h : ∀ f ∈ fields, mem.load32 (word f) = value f) :
    Tracks word fields mem mem value := ⟨h, .refl _ _⟩

/-- Changes beside the fields. -/
theorem Tracks.restart (h : Tracks word fields start mem value) {region : Set (BitVec 32)}
    (hsame : SameOutside region mem mem') (hregion : Disjoint (footprint word fields) region) :
    Tracks word fields mem' mem' value := by
  refine Tracks.of_load fun f hf => ?_
  rw [hsame.load32 (hregion.mono_left (word_subset hf))]
  exact h.load f hf

theorem Separate.ne (h : Separate word fields) {f g : φ} (hf : f ∈ fields) (hg : g ∈ fields)
    (hne : f ≠ g) : word f ≠ word g := by
  intro heq
  have hdisj := h f hf g hg hne
  rw [heq, disjoint_self] at hdisj
  have hmem : word g ∈ extent (word g) 4 := by simp [mem_extent]
  rw [hdisj] at hmem
  exact hmem

variable [DecidableEq φ]

/-- A store to a field changes its value and no other. -/
theorem Tracks.store (h : Tracks word fields start mem value) (hsep : Separate word fields)
    (hf : f ∈ fields) (v : BitVec 32) :
    Tracks word fields start (mem.store32 (word f) v) (Function.update value f v) := by
  have hstore := store32_outside mem (word f) v
  refine ⟨fun g hg => ?_, h.elsewhere.trans (hstore.mono (word_subset hf))⟩
  by_cases hgf : g = f
  · rw [hgf, load32_store32, Function.update_self]
  · rw [Function.update_of_ne hgf, hstore.load32 (hsep g hg f hf hgf)]
    exact h.load g hg

end fields

section objects

variable {φ ω : Type*} {word : φ → BitVec 32} {fields : Set φ} {start : ω → BitVec 32}
  {sizeof : ω → ℕ} {place : φ → ω × ℕ}

/-- Fields at offsets in objects: two of one object lie one behind the other. -/
theorem separate_of_places
    (hword : ∀ f ∈ fields, word f = start (place f).1 + BitVec.ofNat 32 (place f).2)
    (hfits : ∀ f ∈ fields, (place f).2 + 4 ≤ sizeof (place f).1)
    (hsize : ∀ o, sizeof o ≤ 2 ^ 32)
    (hoffset : ∀ f ∈ fields, ∀ g ∈ fields, (place f).1 = (place g).1 → f ≠ g →
      (place f).2 + 4 ≤ (place g).2 ∨ (place g).2 + 4 ≤ (place f).2)
    (hapart : ∀ f ∈ fields, ∀ g ∈ fields, (place f).1 ≠ (place g).1 →
      Disjoint (extent (start (place f).1) (sizeof (place f).1))
        (extent (start (place g).1) (sizeof (place g).1))) :
    Separate word fields := by
  intro f hf g hg hne
  have hin : ∀ f ∈ fields, extent (word f) 4 ⊆ extent (start (place f).1) (sizeof (place f).1) := by
    intro f hf
    rw [hword f hf]
    exact extent_sub (hfits f hf)
  by_cases hobject : (place f).1 = (place g).1
  · have hfits₁ := hfits f hf
    have hfits₂ := hfits g hg
    have hle := hsize (place g).1
    rw [hobject] at hfits₁
    rw [hword f hf, hword g hg, hobject]
    rcases hoffset f hf g hg hobject hne with hbehind | hbehind
    · exact extent_disjoint hbehind (by omega)
    · exact (extent_disjoint hbehind (by omega)).symm
  · exact (hapart f hf g hg hobject).mono (hin f hf) (hin g hg)

end objects

end Einherjar.Lib.Memory
