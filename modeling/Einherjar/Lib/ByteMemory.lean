import Mathlib.Logic.Function.Basic
import Mathlib.Tactic.Ring

/-! Byte-addressed memory with addresses of a fixed width, and the statement that a string
of bytes lies at an address. Addresses wrap around; a string is at most the address space. -/
namespace Einherjar.Lib

/-- The content of a memory: one byte at each address. -/
abbrev Memory (w : ℕ) := BitVec w → BitVec 8

namespace Memory

variable {w : ℕ}

/-- Write the bytes from address `a` upwards. -/
def storeBytes (mem : Memory w) (a : BitVec w) : List (BitVec 8) → Memory w
  | [] => mem
  | b :: bs => Function.update (storeBytes mem (a + 1) bs) a b

/-- The bytes from address `a` upwards are those of the list. -/
def Holds (mem : Memory w) (a : BitVec w) : List (BitVec 8) → Prop
  | [] => True
  | b :: bs => mem a = b ∧ Holds mem (a + 1) bs

/-- Little-endian bytes of a 16-bit value. -/
def bytes16 (v : BitVec 16) : List (BitVec 8) := [v.extractLsb' 0 8, v.extractLsb' 8 8]

/-- Little-endian bytes of a 32-bit value. -/
def bytes32 (v : BitVec 32) : List (BitVec 8) :=
  [v.extractLsb' 0 8, v.extractLsb' 8 8, v.extractLsb' 16 8, v.extractLsb' 24 8]

def load16 (mem : Memory w) (a : BitVec w) : BitVec 16 := mem (a + 1) ++ mem a

def load32 (mem : Memory w) (a : BitVec w) : BitVec 32 :=
  mem (a + 3) ++ mem (a + 2) ++ mem (a + 1) ++ mem a

def store16 (mem : Memory w) (a : BitVec w) (v : BitVec 16) : Memory w :=
  mem.storeBytes a (bytes16 v)

def store32 (mem : Memory w) (a : BitVec w) (v : BitVec 32) : Memory w :=
  mem.storeBytes a (bytes32 v)

@[simp] theorem bytes16_length (v : BitVec 16) : (bytes16 v).length = 2 := rfl

@[simp] theorem bytes32_length (v : BitVec 32) : (bytes32 v).length = 4 := rfl

theorem append_bytes16 (v : BitVec 16) :
    (v.extractLsb' 8 8 ++ v.extractLsb' 0 8 : BitVec 16) = v := by
  apply BitVec.eq_of_getLsbD_eq
  intro i hi
  simp only [BitVec.getLsbD_append, BitVec.getLsbD_extractLsb']
  split_ifs with h
  · simp [h]
  · simp [show i - 8 < 8 by omega, show 8 + (i - 8) = i by omega]

theorem bytes16_append (hi lo : BitVec 8) : bytes16 (hi ++ lo) = [lo, hi] := by
  have hlo : (hi ++ lo).extractLsb' 0 8 = lo := by
    apply BitVec.eq_of_getLsbD_eq
    intro i hi'
    simp only [BitVec.getLsbD_extractLsb', BitVec.getLsbD_append]
    simp [hi']
  have hhi : (hi ++ lo).extractLsb' 8 8 = hi := by
    apply BitVec.eq_of_getLsbD_eq
    intro i hi'
    simp only [BitVec.getLsbD_extractLsb', BitVec.getLsbD_append]
    simp [hi']
  rw [bytes16, hlo, hhi]

theorem append_bytes32 (v : BitVec 32) :
    (v.extractLsb' 24 8 ++ v.extractLsb' 16 8 ++ v.extractLsb' 8 8 ++ v.extractLsb' 0 8 :
      BitVec 32) = v := by
  apply BitVec.eq_of_getLsbD_eq
  intro i hi
  simp only [BitVec.getLsbD_append, BitVec.getLsbD_extractLsb']
  split_ifs with h1 h2 h3
  · simp [h1]
  · simp [h2, show 8 + (i - 8) = i by omega]
  · simp [h3, show 16 + (i - 8 - 8) = i by omega]
  · simp [show i - 8 - 8 - 8 < 8 by omega, show 24 + (i - 8 - 8 - 8) = i by omega]

@[simp] theorem holds_nil (mem : Memory w) (a : BitVec w) : mem.Holds a [] := trivial

@[simp] theorem holds_cons (mem : Memory w) (a : BitVec w) (b : BitVec 8) (bs : List (BitVec 8)) :
    mem.Holds a (b :: bs) ↔ mem a = b ∧ mem.Holds (a + 1) bs := Iff.rfl

theorem add_one_offset (a : BitVec w) (i : ℕ) :
    a + 1 + BitVec.ofNat w i = a + BitVec.ofNat w (i + 1) := by
  rw [Nat.add_comm i 1, BitVec.ofNat_add, ← BitVec.add_assoc]
  rfl

theorem holds_iff {mem : Memory w} {a : BitVec w} {bs : List (BitVec 8)} :
    mem.Holds a bs ↔ ∀ i (h : i < bs.length), mem (a + BitVec.ofNat w i) = bs[i] := by
  induction bs generalizing a with
  | nil => simp
  | cons b bs ih =>
    rw [holds_cons, ih]
    constructor
    · rintro ⟨h0, h⟩ (_ | i) hi
      · simpa using h0
      · have := h i (by simpa using hi)
        rwa [add_one_offset] at this
    · intro h
      have h0 := h 0 (Nat.zero_lt_succ _)
      rw [BitVec.add_zero] at h0
      refine ⟨h0, fun i hi => ?_⟩
      rw [add_one_offset]
      exact h (i + 1) (Nat.succ_lt_succ hi)

theorem holds_append {mem : Memory w} {a : BitVec w} {bs cs : List (BitVec 8)} :
    mem.Holds a (bs ++ cs) ↔ mem.Holds a bs ∧ mem.Holds (a + BitVec.ofNat w bs.length) cs := by
  induction bs generalizing a with
  | nil => simp
  | cons b bs ih =>
    simp only [List.cons_append, holds_cons, ih, List.length_cons, and_assoc, add_one_offset]

/-- A string survives every change of memory that leaves its own addresses alone. -/
theorem Holds.congr {mem mem' : Memory w} {a : BitVec w} {bs : List (BitVec 8)}
    (h : mem.Holds a bs)
    (heq : ∀ i < bs.length, mem' (a + BitVec.ofNat w i) = mem (a + BitVec.ofNat w i)) :
    mem'.Holds a bs :=
  holds_iff.mpr fun i hi => (heq i hi).trans (holds_iff.mp h i hi)

theorem storeBytes_of_ne (mem : Memory w) {a c : BitVec w} {bs : List (BitVec 8)}
    (h : ∀ i < bs.length, c ≠ a + BitVec.ofNat w i) : mem.storeBytes a bs c = mem c := by
  induction bs generalizing a with
  | nil => rfl
  | cons b bs ih =>
    rw [storeBytes, Function.update_of_ne (by simpa using h 0 (by simp))]
    apply ih
    intro i hi
    rw [add_one_offset]
    exact h (i + 1) (Nat.succ_lt_succ hi)

/-- Different offsets below the size of the address space give different addresses. -/
theorem offset_ne {a : BitVec w} {i j : ℕ} (hi : i < 2 ^ w) (hj : j < 2 ^ w) (h : i ≠ j) :
    a + BitVec.ofNat w i ≠ a + BitVec.ofNat w j := by
  intro he
  have ht := congrArg BitVec.toNat (BitVec.add_right_inj a |>.mp he)
  rw [BitVec.toNat_ofNat, BitVec.toNat_ofNat, Nat.mod_eq_of_lt hi, Nat.mod_eq_of_lt hj] at ht
  exact h ht

theorem add_offset_ne {a : BitVec w} {k i j : ℕ} (hi : k + i < 2 ^ w) (hj : j < 2 ^ w)
    (h : k + i ≠ j) : a + BitVec.ofNat w k + BitVec.ofNat w i ≠ a + BitVec.ofNat w j := by
  rw [BitVec.add_assoc, ← BitVec.ofNat_add]
  exact offset_ne hi hj h

theorem holds_storeBytes (mem : Memory w) (a : BitVec w) (bs : List (BitVec 8))
    (h : bs.length ≤ 2 ^ w) : (mem.storeBytes a bs).Holds a bs := by
  induction bs generalizing a with
  | nil => trivial
  | cons b bs ih =>
    refine ⟨by simp [storeBytes], (ih (a + 1) (by simp at h; omega)).congr fun i hi => ?_⟩
    simp only [List.length_cons] at h
    have hne : a + BitVec.ofNat w (i + 1) ≠ a + BitVec.ofNat w 0 :=
      offset_ne (by omega) (by omega) (by omega)
    rw [BitVec.add_zero] at hne
    rw [storeBytes, add_one_offset, Function.update_of_ne hne]

/-- Writing a string in front of another one puts both in a row. -/
theorem Holds.push {mem : Memory w} {a c : BitVec w} {cs : List (BitVec 8)}
    (h : mem.Holds a cs) (bs : List (BitVec 8)) (hc : c + BitVec.ofNat w bs.length = a)
    (hlen : bs.length + cs.length ≤ 2 ^ w) : (mem.storeBytes c bs).Holds c (bs ++ cs) := by
  subst hc
  refine holds_append.mpr ⟨holds_storeBytes mem c bs (by omega), h.congr fun i hi => ?_⟩
  apply mem.storeBytes_of_ne
  intro j hj
  exact add_offset_ne (by omega) (by omega) (by omega)

theorem holds_load16 (mem : Memory w) (a : BitVec w) :
    mem.Holds a (bytes16 (mem.load16 a)) := by
  rw [Memory.load16, bytes16_append]
  exact ⟨rfl, rfl, trivial⟩

/-- Overwrite the bytes of a string from position `k` on. -/
def overwrite (bs : List (BitVec 8)) (k : ℕ) (vs : List (BitVec 8)) : List (BitVec 8) :=
  bs.take k ++ vs ++ bs.drop (k + vs.length)

theorem overwrite_length {bs vs : List (BitVec 8)} {k : ℕ} (h : k + vs.length ≤ bs.length) :
    (overwrite bs k vs).length = bs.length := by
  simp only [overwrite, List.length_append, List.length_take, List.length_drop]
  omega

/-- Writing inside a string of known length changes just the bytes written. -/
theorem Holds.storeBytes {mem : Memory w} {a : BitVec w} {bs : List (BitVec 8)} {n : ℕ}
    (k : ℕ) (vs : List (BitVec 8)) (h : mem.Holds a bs ∧ bs.length = n)
    (hk : k + vs.length ≤ n) (hn : n ≤ 2 ^ w) :
    (mem.storeBytes (a + BitVec.ofNat w k) vs).Holds a (overwrite bs k vs) ∧
      (overwrite bs k vs).length = n := by
  obtain ⟨h, hlen⟩ := h
  have hout : ∀ i, i < k ∨ k + vs.length ≤ i → i < bs.length →
      mem.storeBytes (a + BitVec.ofNat w k) vs (a + BitVec.ofNat w i) =
        mem (a + BitVec.ofNat w i) := by
    intro i hi hlt
    apply mem.storeBytes_of_ne
    intro j hj
    exact (add_offset_ne (by omega) (by omega) (by omega)).symm
  have hb := holds_iff.mp h
  refine ⟨holds_append.mpr ⟨holds_append.mpr ⟨?_, ?_⟩, ?_⟩, ?_⟩
  · apply holds_iff.mpr
    intro i hi
    simp only [List.length_take] at hi
    rw [hout i (by omega) (by omega), hb i (by omega), List.getElem_take]
  · rw [List.length_take, Nat.min_eq_left (by omega)]
    exact holds_storeBytes mem _ vs (by omega)
  · apply holds_iff.mpr
    intro i hi
    simp only [List.length_drop] at hi
    rw [List.length_append, List.length_take, Nat.min_eq_left (by omega), BitVec.add_assoc,
      ← BitVec.ofNat_add, hout _ (by omega) (by omega), hb _ (by omega), List.getElem_drop]
  · rw [overwrite_length (by omega), hlen]

theorem Holds.load16 {mem : Memory w} {a : BitVec w} {v : BitVec 16} {cs : List (BitVec 8)}
    (h : mem.Holds a (bytes16 v ++ cs)) : mem.load16 a = v ∧ mem.Holds (a + 2) cs := by
  obtain ⟨hv, hcs⟩ := holds_append.mp h
  obtain ⟨h0, h1, -⟩ := hv
  exact ⟨by rw [Memory.load16, h0, h1, append_bytes16], hcs⟩

theorem Holds.load32 {mem : Memory w} {a : BitVec w} {v : BitVec 32} {cs : List (BitVec 8)}
    (h : mem.Holds a (bytes32 v ++ cs)) : mem.load32 a = v ∧ mem.Holds (a + 4) cs := by
  obtain ⟨hv, hcs⟩ := holds_append.mp h
  obtain ⟨h0, h1, h2, h3, -⟩ := hv
  have e2 : a + 1 + 1 = a + 2 := add_one_offset a 1
  have e3 : a + 2 + 1 = a + 3 := by
    rw [← e2]
    exact (add_one_offset (a + 1) 1).trans (add_one_offset a 2)
  rw [e2] at h2 h3
  rw [e3] at h3
  exact ⟨by rw [Memory.load32, h0, h1, h2, h3, append_bytes32], hcs⟩

theorem load32_store32 (mem : Memory 32) (a v : BitVec 32) : (mem.store32 a v).load32 a = v := by
  have h := holds_storeBytes mem a (bytes32 v) (by simp)
  rw [← List.append_nil (bytes32 v)] at h
  have hload := h.load32.1
  rwa [List.append_nil] at hload

theorem load32_of_bytes {mem mem' : Memory w} {a : BitVec w}
    (h : ∀ i < 4, mem' (a + BitVec.ofNat w i) = mem (a + BitVec.ofNat w i)) :
    mem'.load32 a = mem.load32 a := by
  have h0 := h 0 (by omega)
  have h1 : mem' (a + 1) = mem (a + 1) := h 1 (by omega)
  have h2 : mem' (a + 2) = mem (a + 2) := h 2 (by omega)
  have h3 : mem' (a + 3) = mem (a + 3) := h 3 (by omega)
  rw [BitVec.add_zero] at h0
  rw [Memory.load32, Memory.load32, h0, h1, h2, h3]

theorem words_length (ws : List (BitVec 32)) : (ws.flatMap bytes32).length = 4 * ws.length := by
  induction ws with
  | nil => rfl
  | cons v ws ih =>
    rw [List.flatMap_cons, List.length_append, ih, bytes32_length, List.length_cons]
    omega

/-- One word of several that lie one above the other. -/
theorem Holds.word {mem : Memory w} {a : BitVec w} {ws : List (BitVec 32)}
    (h : mem.Holds a (ws.flatMap bytes32)) {k : ℕ} (hk : k < ws.length) :
    mem.load32 (a + BitVec.ofNat w (4 * k)) = ws[k] := by
  induction ws generalizing a k with
  | nil => exact absurd hk (Nat.not_lt_zero k)
  | cons v ws ih =>
    rw [List.flatMap_cons] at h
    cases k with
    | zero =>
      rw [Nat.mul_zero, BitVec.add_zero]
      exact h.load32.1
    | succ k =>
      have hrest := (holds_append.mp h).2
      have hlen : k < ws.length := Nat.lt_of_succ_lt_succ hk
      rw [bytes32_length] at hrest
      rw [Nat.mul_add, Nat.add_comm, BitVec.ofNat_add, ← BitVec.add_assoc, List.getElem_cons_succ]
      exact ih hrest hlen

end Memory

end Einherjar.Lib
