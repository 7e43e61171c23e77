import Mathlib.Data.Nat.Bitwise
import Mathlib.Tactic.Ring

/-! Bit strings, the most significant bit first, and the fixed-width fields that hold
them left-aligned, filled with zeros or cut off. -/
namespace Einherjar.Lib

/-- The number `n` as a bit string of the given length. -/
def bits : ℕ → ℕ → List Bool
  | 0, _ => []
  | len + 1, n => n.testBit len :: bits len n

/-- The first `w` bits of a string as a number; a shorter string is filled up with zeros. -/
def field : ℕ → List Bool → ℕ
  | 0, _ => 0
  | _ + 1, [] => 0
  | w + 1, b :: bs => b.toNat * 2 ^ w + field w bs

/-- A field of `w` bits loses nothing of the string but zeros. -/
def Fits (w : ℕ) (bs : List Bool) : Prop := ∀ b ∈ bs.drop w, b = false

instance (w : ℕ) (bs : List Bool) : Decidable (Fits w bs) := by unfold Fits; infer_instance

@[simp] theorem field_zero (bs : List Bool) : field 0 bs = 0 := by cases bs <;> rfl

@[simp] theorem field_nil (w : ℕ) : field w [] = 0 := by cases w <;> rfl

theorem field_succ_cons (w : ℕ) (b : Bool) (bs : List Bool) :
    field (w + 1) (b :: bs) = b.toNat * 2 ^ w + field w bs := rfl

@[simp] theorem length_bits (len n : ℕ) : (bits len n).length = len := by
  induction len with
  | zero => rfl
  | succ len ih => simp [bits, ih]

theorem field_lt (w : ℕ) (bs : List Bool) : field w bs < 2 ^ w := by
  induction w generalizing bs with
  | zero => simp
  | succ w ih =>
    cases bs with
    | nil => simp
    | cons b bs =>
      have htail := ih bs
      have hb : b.toNat ≤ 1 := Bool.toNat_le b
      have hmul : b.toNat * 2 ^ w ≤ 1 * 2 ^ w := Nat.mul_le_mul_right _ hb
      rw [field_succ_cons, Nat.pow_succ]
      omega

/-- A field is made of the fields for its upper and lower bits. -/
theorem field_add (m n : ℕ) (bs : List Bool) :
    field (m + n) bs = field m bs * 2 ^ n + field n (bs.drop m) := by
  induction m generalizing bs with
  | zero => simp
  | succ m ih =>
    cases bs with
    | nil => simp
    | cons b bs =>
      rw [Nat.add_right_comm, field_succ_cons, ih, field_succ_cons, List.drop_succ_cons, pow_add]
      ring

theorem field_bits_aux (len k n : ℕ) : field len (bits (len + k) n) = n / 2 ^ k % 2 ^ len := by
  induction len with
  | zero => simp [Nat.mod_one]
  | succ len ih =>
    rw [Nat.add_right_comm, bits, field_succ_cons, ih, Nat.testBit_eq_decide_div_mod_eq, pow_add,
      Nat.mod_pow_succ, Nat.div_div_eq_div_mul, Nat.mul_comm (2 ^ k)]
    rcases Nat.mod_two_eq_zero_or_one (n / (2 ^ len * 2 ^ k)) with h | h
    · simp [h]
    · simp [h]
      ring

/-- The field of a number that takes at least its width drops the last bits. -/
theorem field_bits {len w n : ℕ} (hw : w ≤ len) (hn : n < 2 ^ len) :
    field w (bits len n) = n / 2 ^ (len - w) := by
  obtain ⟨k, rfl⟩ := Nat.exists_eq_add_of_le hw
  rw [field_bits_aux, Nat.add_sub_cancel_left, Nat.mod_eq_of_lt]
  rw [pow_add] at hn
  exact Nat.div_lt_of_lt_mul (by rwa [Nat.mul_comm])

theorem field_append_of_le {w : ℕ} {bs : List Bool} (h : w ≤ bs.length) (cs : List Bool) :
    field w (bs ++ cs) = field w bs := by
  induction w generalizing bs with
  | zero => simp
  | succ w ih =>
    cases bs with
    | nil => simp at h
    | cons b bs =>
      rw [List.cons_append, field_succ_cons, field_succ_cons, ih (by simpa using h)]

/-- A code word at the head of a wide enough field, and the field for what follows. -/
theorem field_bits_append {len w n : ℕ} (hw : len ≤ w) (hn : n < 2 ^ len) (cs : List Bool) :
    field w (bits len n ++ cs) = n * 2 ^ (w - len) + field (w - len) cs := by
  obtain ⟨k, rfl⟩ := Nat.exists_eq_add_of_le hw
  have hhead : field len (bits len n ++ cs) = n := by
    rw [field_append_of_le (by simp), field_bits le_rfl hn]
    simp
  have hdrop : (bits len n ++ cs).drop len = cs := by simp
  rw [field_add, hhead, hdrop, Nat.add_sub_cancel_left]

theorem field_eq_zero_iff (w : ℕ) (bs : List Bool) :
    field w bs = 0 ↔ ∀ b ∈ bs.take w, b = false := by
  induction w generalizing bs with
  | zero => simp
  | succ w ih =>
    cases bs with
    | nil => simp
    | cons b bs => cases b <;> simp [field_succ_cons, ih]

/-- Zeros at the end do not matter. -/
theorem field_append_zeros (w : ℕ) (bs : List Bool) {zs : List Bool} (h : ∀ b ∈ zs, b = false) :
    field w (bs ++ zs) = field w bs := by
  induction w generalizing bs with
  | zero => simp
  | succ w ih =>
    cases bs with
    | nil =>
      rw [List.nil_append, field_nil, field_eq_zero_iff]
      exact fun b hb => h b (List.mem_of_mem_take hb)
    | cons b bs => rw [List.cons_append, field_succ_cons, field_succ_cons, ih]

theorem Fits.mono {v w : ℕ} {bs : List Bool} (h : Fits v bs) (hvw : v ≤ w) : Fits w bs := by
  obtain ⟨k, rfl⟩ := Nat.exists_eq_add_of_le hvw
  intro b hb
  rw [← List.drop_drop] at hb
  exact h b (List.mem_of_mem_drop hb)

theorem fits_of_length_le {w : ℕ} {bs : List Bool} (h : bs.length ≤ w) : Fits w bs := by
  intro b hb
  rw [List.drop_eq_nil_of_le h] at hb
  simp at hb

/-- A string that fits is filled up with zeros in a wider field. -/
theorem Fits.field_add {w : ℕ} {bs : List Bool} (h : Fits w bs) (k : ℕ) :
    field (w + k) bs = field w bs * 2 ^ k := by
  have hzero : field k (bs.drop w) = 0 :=
    (field_eq_zero_iff ..).mpr fun b hb => h b (List.mem_of_mem_take hb)
  rw [Lib.field_add, hzero, Nat.add_zero]

theorem Fits.field_eq_zero_iff {w : ℕ} {bs : List Bool} (h : Fits w bs) :
    field w bs = 0 ↔ ∀ b ∈ bs, b = false := by
  rw [Lib.field_eq_zero_iff]
  constructor
  · intro hzero b hb
    rw [← List.take_append_drop w bs, List.mem_append] at hb
    exact hb.elim (hzero b) (h b)
  · exact fun hzero b hb => hzero b (List.mem_of_mem_take hb)

theorem fits_append_iff {w : ℕ} {bs cs : List Bool} :
    Fits w (bs ++ cs) ↔ Fits w bs ∧ Fits (w - bs.length) cs := by
  unfold Fits
  rw [List.drop_append]
  simp only [List.mem_append, or_imp, forall_and]

/-- Whether a number may be cut off to `w` bits, and by how much it is divided then. -/
theorem fits_bits_iff {len w n : ℕ} (hw : w ≤ len) (hn : n < 2 ^ len) :
    Fits w (bits len n) ↔ 2 ^ (len - w) ∣ n := by
  have htail : Fits w (bits len n) ↔ field (len - w) ((bits len n).drop w) = 0 := by
    rw [field_eq_zero_iff, List.take_of_length_le (by simp)]
    rfl
  have hwhole := Lib.field_add w (len - w) (bits len n)
  rw [Nat.add_sub_cancel' hw, field_bits le_rfl hn, field_bits hw hn] at hwhole
  simp only [Nat.sub_self, Nat.pow_zero, Nat.div_one] at hwhole
  have hdiv := Nat.div_add_mod n (2 ^ (len - w))
  rw [htail, Nat.dvd_iff_mod_eq_zero]
  rw [Nat.mul_comm] at hdiv
  omega

/-- One more bit of the field is zero exactly when the field is even. -/
theorem Fits.iff_even {w : ℕ} {bs : List Bool} (h : Fits (w + 1) bs) :
    Fits w bs ↔ field (w + 1) bs % 2 = 0 := by
  rw [Lib.field_add]
  unfold Fits at h ⊢
  rw [← List.drop_drop] at h
  cases hdrop : bs.drop w with
  | nil => simp
  | cons b t =>
    rw [hdrop] at h
    have htail : ∀ x ∈ t, x = false := h
    cases b with
    | false => simpa [field_succ_cons] using htail
    | true => simp [field_succ_cons]

theorem shiftLeft_or_eq {a b n : ℕ} (h : b < 2 ^ n) : a <<< n ||| b = a * 2 ^ n + b := by
  rw [← Nat.shiftLeft_add_eq_or_of_lt h, Nat.shiftLeft_eq]

theorem shiftLeft_xor_eq {a b n : ℕ} (h : b < 2 ^ n) : a <<< n ^^^ b = a * 2 ^ n + b := by
  rw [← shiftLeft_or_eq h]
  apply Nat.eq_of_testBit_eq
  intro i
  rw [Nat.testBit_xor, Nat.testBit_or, Nat.testBit_shiftLeft]
  by_cases hi : n ≤ i
  · have hb : b.testBit i = false :=
      Nat.testBit_lt_two_pow (h.trans_le (Nat.pow_le_pow_right (by decide) hi))
    simp [hb]
  · simp [hi]

/-- A field for a string and the beginning of the number after it. -/
theorem field_append (bs : List Bool) {len w n : ℕ} (hw : w ≤ len) (hn : n < 2 ^ len) :
    field (bs.length + w) (bs ++ bits len n) =
      field bs.length bs * 2 ^ w + n / 2 ^ (len - w) := by
  rw [field_add, field_append_of_le le_rfl, List.drop_left, field_bits hw hn]

end Einherjar.Lib
