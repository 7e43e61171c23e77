import Mathlib.Algebra.Ring.Nat
import Einherjar.Io.Console

/-! `console_write`: what its loop, which changes its own bound, passes to the device. -/
namespace Einherjar.Io

/-- The loop of `console_write`. The bytes are those from the address `srcBuffer` on. -/
def consoleWriteLoop (memory : BitVec 32 → BitVec 8) (t : Console) (srcBuffer : BitVec 32)
    (len : BitVec 16) (i : ℕ) : Console :=
  if h : i < len.toNat then
    let c := memory srcBuffer
    let len' := BitVec.ofNat 16 i
    have : len'.toNat - (i + 1) < len.toNat - i := by
      have hle : len'.toNat ≤ i := by
        rw [BitVec.toNat_ofNat]
        exact Nat.mod_le ..
      omega
    consoleWriteLoop memory { t with written := t.written ++ [c] } (srcBuffer + 1) len' (i + 1)
  else t
termination_by len.toNat - i

def consoleWrite (memory : BitVec 32 → BitVec 8) (t : Console) (srcBuffer : BitVec 32)
    (len : BitVec 16) : Console := consoleWriteLoop memory t srcBuffer len 0

/-- The bytes of a buffer. -/
def bufferBytes (memory : BitVec 32 → BitVec 8) (srcBuffer : BitVec 32) (len : BitVec 16) :
    List (BitVec 8) := (List.range len.toNat).map fun k => memory (srcBuffer + BitVec.ofNat 32 k)

/-- Consecutive buffers, written one after another. -/
def writePieces (memory : BitVec 32 → BitVec 8) : Console → BitVec 32 → List (BitVec 16) → Console
  | t, _, [] => t
  | t, srcBuffer, len :: lens =>
    writePieces memory (consoleWrite memory t srcBuffer len) (srcBuffer + len.setWidth 32) lens

/-- The call passes every byte of the buffer to the device, once and in order. -/
def WritesAll (memory : BitVec 32 → BitVec 8) (t : Console) (srcBuffer : BitVec 32)
    (len : BitVec 16) : Prop :=
  consoleWrite memory t srcBuffer len =
    { t with written := t.written ++ bufferBytes memory srcBuffer len }

/-- However the buffer is split, the device gets the same bytes as from one call. -/
def WritesSplits (memory : BitVec 32 → BitVec 8) (t : Console) (srcBuffer : BitVec 32)
    (len : BitVec 16) : Prop :=
  ∀ lens : List (BitVec 16), (lens.map BitVec.toNat).sum = len.toNat →
    writePieces memory t srcBuffer lens = consoleWrite memory t srcBuffer len

section writing

variable (memory : BitVec 32 → BitVec 8) (t : Console) (srcBuffer : BitVec 32)

theorem length_pos {len : BitVec 16} (h : len ≠ 0) : 0 < len.toNat :=
  Nat.pos_of_ne_zero fun h0 => h (BitVec.eq_of_toNat_eq h0)

/-- The first iteration sets the bound to 0, and there is no second one. -/
theorem consoleWrite_eq (len : BitVec 16) : consoleWrite memory t srcBuffer len =
    if len = 0 then t else { t with written := t.written ++ [memory srcBuffer] } := by
  unfold consoleWrite
  rw [consoleWriteLoop]
  by_cases hlen : len = 0
  · rw [if_pos hlen, dif_neg (by rw [hlen]; decide)]
  · rw [if_neg hlen, dif_pos (length_pos hlen), consoleWriteLoop, dif_neg (by decide)]

theorem length_written (len : BitVec 16) : (consoleWrite memory t srcBuffer len).written.length =
    t.written.length + min len.toNat 1 := by
  rw [consoleWrite_eq]
  by_cases hlen : len = 0
  · rw [if_pos hlen, hlen]
    rfl
  · have hpos := length_pos hlen
    rw [if_neg hlen, List.length_append, List.length_singleton]
    omega

theorem writesAll_iff (len : BitVec 16) :
    WritesAll memory t srcBuffer len ↔ len.toNat ≤ 1 := by
  constructor
  · intro h
    have hlength := length_written memory t srcBuffer len
    rw [show consoleWrite memory t srcBuffer len = _ from h, List.length_append, bufferBytes,
      List.length_map, List.length_range] at hlength
    omega
  · intro h
    rw [WritesAll, consoleWrite_eq, bufferBytes]
    by_cases hlen : len = 0
    · simp [hlen]
    · have hone : len.toNat = 1 := by
        have hpos := length_pos hlen
        omega
      rw [if_neg hlen, hone]
      simp

/-- Pieces of at most one byte altogether. -/
theorem writePieces_of_sum_le (lens : List (BitVec 16)) (h : (lens.map BitVec.toNat).sum ≤ 1) :
    writePieces memory t srcBuffer lens = if (lens.map BitVec.toNat).sum = 0 then t
      else { t with written := t.written ++ [memory srcBuffer] } := by
  induction lens generalizing t srcBuffer with
  | nil => rfl
  | cons len lens ih =>
    rw [List.map_cons, List.sum_cons] at h ⊢
    rw [writePieces, ih _ _ (by omega), consoleWrite_eq]
    by_cases hlen : len = 0
    · simp [hlen]
    · have hpos := length_pos hlen
      rw [if_neg hlen, if_pos (by omega), if_neg (by omega)]

theorem writesSplits_iff (len : BitVec 16) :
    WritesSplits memory t srcBuffer len ↔ len.toNat ≤ 1 := by
  constructor
  · intro h
    by_contra hlarge
    have hlt := len.isLt
    have hrest : (BitVec.ofNat 16 (len.toNat - 1)).toNat = len.toNat - 1 := by
      rw [BitVec.toNat_ofNat, Nat.mod_eq_of_lt (by omega)]
    -- one byte, and then the others
    have hsum : (([1, BitVec.ofNat 16 (len.toNat - 1)] : List (BitVec 16)).map BitVec.toNat).sum =
        len.toNat := by
      simp only [List.map_cons, List.map_nil, List.sum_cons, List.sum_nil, hrest,
        show (1 : BitVec 16).toNat = 1 from rfl]
      omega
    have hlength := congrArg (fun t : Console => t.written.length) (h _ hsum)
    simp only [writePieces, length_written, hrest, show (1 : BitVec 16).toNat = 1 from rfl]
      at hlength
    omega
  · intro h lens hsum
    rw [writePieces_of_sum_le memory t srcBuffer lens (hsum ▸ h), consoleWrite_eq, hsum]
    by_cases hlen : len = 0
    · rw [if_pos hlen, if_pos (by rw [hlen]; rfl)]
    · rw [if_neg hlen, if_neg (Nat.ne_of_gt (length_pos hlen))]

end writing

/-- A buffer is written as a whole, and its splits like the whole, exactly when it has at most one
byte. -/
theorem consoleWrite_whole_iff (memory : BitVec 32 → BitVec 8) (t : Console)
    (srcBuffer : BitVec 32) (len : BitVec 16) :
    (WritesAll memory t srcBuffer len ↔ len.toNat ≤ 1) ∧
      (WritesSplits memory t srcBuffer len ↔ len.toNat ≤ 1) :=
  ⟨writesAll_iff memory t srcBuffer len, writesSplits_iff memory t srcBuffer len⟩

/-- Of two bytes only the first is written. -/
theorem second_byte_lost : ¬ ∀ (memory : BitVec 32 → BitVec 8) (t : Console)
    (srcBuffer : BitVec 32) (len : BitVec 16),
      WritesAll memory t srcBuffer len ∧ WritesSplits memory t srcBuffer len := by
  intro h
  have hall := (h (fun _ => 0x61) consoleSetup 0 2).1
  rw [writesAll_iff] at hall
  exact absurd hall (by decide)

end Einherjar.Io
