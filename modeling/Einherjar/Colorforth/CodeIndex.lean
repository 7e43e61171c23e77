import Einherjar.Colorforth.Packing
import Einherjar.Io.Itoa
import Einherjar.Lib.Traced

/-! `strchr` on the bytes of a string in memory, and the index of a letter that `get_code_index`
gets from it. Its loop passes over the first character. -/
namespace Einherjar.Colorforth
open Einherjar.Io Einherjar.Lib

/-- `while (*s++)`: the memory from the string on, `s` as an offset in it, and the offsets that are
read. -/
def strchrLoop (memory : ℕ → BitVec 8) (c : BitVec 8) : ℕ → ℕ → Traced ℕ (Option ℕ)
  | 0, _ => .quiet .outOfFuel
  | fuel + 1, s =>
    .after s <|
      if memory s = 0 then .quiet (.done none)
      else
        .after (s + 1) <|
          if memory (s + 1) = c then .quiet (.done (some (s + 1)))
          else strchrLoop memory c fuel (s + 1)

/-- `strchr(s, c)` with its reads: the offset of the character, or `none` for `NULL`. -/
def strchrReads (fuel : ℕ) (memory : ℕ → BitVec 8) (c : BitVec 32) : Traced ℕ (Option ℕ) :=
  strchrLoop memory (c.setWidth 8) fuel 0

/-- A string in memory: its characters, and the NUL behind them. -/
structure CString (memory : ℕ → BitVec 8) (text : List (BitVec 8)) : Prop where
  begins : Begins memory (text ++ [0])
  nonNul : ∀ x ∈ text, x ≠ 0

/-- The call returns the first occurrence of the character, or `NULL` when there is none, and reads
nothing behind the NUL. The NUL belongs to the string. -/
def FindsFirst (memory : ℕ → BitVec 8) (text : List (BitVec 8)) (c : BitVec 32) : Prop :=
  ∀ fuel > text.length,
    (strchrReads fuel memory c).outcome = .done ((text ++ [0]).idxOf? (c.setWidth 8)) ∧
      (strchrReads fuel memory c).All (· ≤ text.length)

theorem map_idxOf?_cons {α : Type*} [DecidableEq α] (x c : α) (xs : List α) (k : ℕ) :
    ((x :: xs).idxOf? c).map (k + ·) =
      if x = c then some k else (xs.idxOf? c).map (k + 1 + ·) := by
  rw [List.idxOf?_cons]
  by_cases hc : x = c
  · rw [if_pos hc, if_pos (beq_iff_eq.mpr hc)]
    rfl
  · rw [if_neg hc, if_neg (mt beq_iff_eq.mp hc), Option.map_map]
    congr 1
    funext i
    simp only [Function.comp_apply]
    omega

section bytes

variable {memory : ℕ → BitVec 8} {text : List (BitVec 8)} {x : BitVec 8}

theorem begins_cons_iff {bytes : List (BitVec 8)} :
    Begins memory (x :: bytes) ↔ memory 0 = x ∧ Begins (fun k => memory (k + 1)) bytes := by
  constructor
  · exact fun h => ⟨h 0 x rfl, fun k b hb => h (k + 1) b hb⟩
  · rintro ⟨hx, h⟩ k b hb
    cases k with
    | zero => exact hx.trans (Option.some.inj hb)
    | succ k => exact h k b hb

theorem CString.nil (h : CString memory []) : memory 0 = 0 := (begins_cons_iff.mp h.begins).1

theorem CString.cons (h : CString memory (x :: text)) :
    memory 0 = x ∧ x ≠ 0 ∧ CString (fun k => memory (k + 1)) text := by
  obtain ⟨hx, hrest⟩ := begins_cons_iff.mp h.begins
  obtain ⟨hne, hnonNul⟩ := List.forall_mem_cons.mp h.nonNul
  exact ⟨hx, hne, hrest, hnonNul⟩

/-- The first byte of a string, which may be its NUL. -/
theorem CString.head (h : CString memory text) : (text ++ [0]).head? = some (memory 0) := by
  cases text with
  | nil => exact congrArg some h.nil.symm
  | cons x text => exact congrArg some h.cons.1.symm

end bytes

section loop

variable {memory : ℕ → BitVec 8} {text : List (BitVec 8)} {c : BitVec 8} {s fuel : ℕ}

/-- The position, from `s` on, of the first occurrence behind the first byte. -/
def laterOccurrence (text : List (BitVec 8)) (c : BitVec 8) (s : ℕ) : Option ℕ :=
  ((text ++ [0]).tail.idxOf? c).map (s + 1 + ·)

/-- The next byte is the first that is compared. -/
theorem laterOccurrence_cons {next x : BitVec 8} (h : (text ++ [0]).head? = some next) :
    laterOccurrence (x :: text) c s =
      if next = c then some (s + 1) else laterOccurrence text c (s + 1) := by
  obtain ⟨rest, hrest⟩ := List.head?_eq_some_iff.mp h
  unfold laterOccurrence
  rw [List.cons_append, List.tail_cons, hrest, List.tail_cons, map_idxOf?_cons]

/-- From a byte of the string on, the loop ends at the next occurrence behind it, or at the NUL. -/
theorem strchrLoop_spec (h : CString (fun k => memory (s + k)) text) (hfuel : text.length < fuel) :
    (strchrLoop memory c fuel s).outcome = .done (laterOccurrence text c s) ∧
      (strchrLoop memory c fuel s).All (· ≤ s + text.length) := by
  induction text generalizing s fuel with
  | nil =>
    obtain ⟨fuel, rfl⟩ := Nat.exists_eq_succ_of_ne_zero (Nat.ne_zero_of_lt hfuel)
    have hnul : memory s = 0 := h.nil
    rw [strchrLoop, if_pos hnul]
    exact ⟨rfl, Traced.all_after.mpr ⟨Nat.le_refl s, Traced.all_quiet _⟩⟩
  | cons x text ih =>
    obtain ⟨fuel, rfl⟩ := Nat.exists_eq_succ_of_ne_zero (Nat.ne_zero_of_lt hfuel)
    obtain ⟨hx, hne, hrest⟩ := h.cons
    have hx : memory s = x := hx
    have hrest : CString (fun k => memory (s + 1 + k)) text := by
      simpa only [Nat.add_assoc, Nat.add_comm 1] using hrest
    rw [List.length_cons] at hfuel ⊢
    rw [strchrLoop, if_neg (hx ▸ hne), laterOccurrence_cons hrest.head, Traced.outcome_after,
      Traced.outcome_after, Traced.all_after, Traced.all_after]
    have hinside : s + 1 ≤ s + (text.length + 1) := by omega
    change _ = Outcome.done (if memory (s + 1) = c then _ else _) ∧ _
    by_cases hc : memory (s + 1) = c
    · rw [if_pos hc, if_pos hc]
      exact ⟨rfl, Nat.le_add_right .., hinside, Traced.all_quiet _⟩
    · rw [if_neg hc, if_neg hc]
      obtain ⟨hreturns, hreads⟩ := ih hrest (Nat.lt_of_succ_lt_succ hfuel)
      refine ⟨hreturns, Nat.le_add_right .., hinside, fun i hi => ?_⟩
      have hle : i ≤ s + 1 + text.length := hreads i hi
      omega

theorem idxOf?_eq_later {first : BitVec 8} (h : (text ++ [0]).head? = some first) :
    (text ++ [0]).idxOf? c = if first = c then some 0 else laterOccurrence text c 0 := by
  obtain ⟨rest, hrest⟩ := List.head?_eq_some_iff.mp h
  have hcons := map_idxOf?_cons first c rest 0
  simp only [Nat.zero_add, Option.map_id_fun', id_eq] at hcons
  rw [laterOccurrence, hrest, List.tail_cons, hcons]

theorem laterOccurrence_ne_zero : laterOccurrence text c 0 ≠ some 0 := by
  intro h
  obtain ⟨k, -, hk⟩ := Option.map_eq_some_iff.mp h
  omega

/-- The call is right unless the character is the first byte, which is not looked at. -/
theorem findsFirst_iff {c : BitVec 32} (h : CString memory text) :
    FindsFirst memory text c ↔ (text ++ [0]).head? ≠ some (c.setWidth 8) := by
  have hstart : CString (fun k => memory (0 + k)) text := by simpa only [Nat.zero_add] using h
  have hfirst := idxOf?_eq_later (c := c.setWidth 8) h.head
  rw [h.head, Ne, Option.some.injEq]
  constructor
  · intro hfinds hc
    obtain ⟨hright, -⟩ := hfinds (text.length + 1) (Nat.lt_succ_self _)
    obtain ⟨hreturns, -⟩ := strchrLoop_spec (c := c.setWidth 8) hstart (Nat.lt_succ_self _)
    rw [hfirst, if_pos hc, strchrReads, hreturns] at hright
    exact laterOccurrence_ne_zero (Outcome.done.inj hright)
  · intro hc fuel hfuel
    obtain ⟨hreturns, hreads⟩ := strchrLoop_spec (c := c.setWidth 8) hstart hfuel
    rw [hfirst, if_neg hc]
    rw [Nat.zero_add] at hreads
    exact ⟨hreturns, hreads⟩

end loop

section letters

variable {memory : ℕ → BitVec 8} {text : List Char} {letter : Char} {fuel : ℕ}

/-- `strchr` on the list of the characters. -/
theorem strchr_eq (htext : '\x00' ∉ text) (c : Char) (k : ℕ) :
    strchr c (text ++ ['\x00']) k = ((text ++ ['\x00']).tail.idxOf? c).map (k + 1 + ·) := by
  induction text generalizing k with
  | nil => rfl
  | cons x text ih =>
    rw [List.mem_cons, not_or] at htext
    obtain ⟨next, rest, hrest⟩ := List.exists_cons_of_ne_nil (List.concat_ne_nil '\x00' text)
    have hrec := ih htext.2 (k + 1)
    rw [hrest, List.tail_cons] at hrec
    rw [List.cons_append, strchr, if_neg (Ne.symm htext.1), List.tail_cons, hrest, List.head?_cons,
      map_idxOf?_cons]
    by_cases hc : next = c
    · rw [if_pos (congrArg some hc), if_pos hc]
    · rw [if_neg (mt Option.some.inj hc), if_neg hc, hrec]

theorem byteOf_inj {x y : Char} (hx : x.toNat < 256) (hy : y.toNat < 256) :
    byteOf x = byteOf y ↔ x = y := by
  refine ⟨fun h => Char.toNat_inj.mp ?_, congrArg byteOf⟩
  have hnat := congrArg BitVec.toNat h
  unfold byteOf at hnat
  rwa [BitVec.toNat_ofNat, BitVec.toNat_ofNat, Nat.mod_eq_of_lt hx, Nat.mod_eq_of_lt hy] at hnat

theorem idxOf?_map_byteOf (htext : ∀ x ∈ text, x.toNat < 256) (hletter : letter.toNat < 256) :
    (text.map byteOf).idxOf? (byteOf letter) = text.idxOf? letter := by
  induction text with
  | nil => rfl
  | cons x text ih =>
    obtain ⟨hx, htext⟩ := List.forall_mem_cons.mp htext
    rw [List.map_cons, List.idxOf?_cons, List.idxOf?_cons, ih htext]
    simp only [beq_iff_eq, byteOf_inj hx hletter]

theorem cString_of_holdsString (h : HoldsString memory text) :
    CString memory (text.map byteOf) where
  begins := h.begins.concat (by rw [List.length_map, h.nul])
  nonNul := List.forall_mem_map.mpr h.nonNul

/-- On the bytes in memory, `strchr` returns what it does on the list. A `char` is extended with
its sign when it is passed. -/
theorem strchr_reads (h : HoldsString memory text) (htext : ∀ x ∈ text, x.toNat < 256)
    (hletter : letter.toNat < 256) (hfuel : text.length < fuel) :
    (strchrReads fuel memory ((byteOf letter).signExtend 32)).outcome =
      .done (strchr letter (text ++ ['\x00']) 0) := by
  have hstart : CString (fun k => memory (0 + k)) (text.map byteOf) := by
    simpa only [Nat.zero_add] using cString_of_holdsString h
  have hlength : (text.map byteOf).length < fuel := by rwa [List.length_map]
  have htail : (text.map byteOf ++ [0]).tail = (text ++ ['\x00']).tail.map byteOf := by
    rw [List.map_tail, List.map_append]
    rfl
  have hnul : '\x00' ∉ text := fun hmem => h.nonNul _ hmem rfl
  have hall : ∀ x ∈ (text ++ ['\x00']).tail, x.toNat < 256 := by
    intro x hx
    rcases List.mem_append.mp (List.mem_of_mem_tail hx) with hx | hx
    · exact htext x hx
    · rw [List.mem_singleton.mp hx]
      decide
  have hchar : ((byteOf letter).signExtend 32).setWidth 8 = byteOf letter := by
    ext i hi
    have hwide : i < 32 := Nat.lt_trans hi (by decide)
    rw [BitVec.getElem_setWidth, BitVec.getLsbD_signExtend, if_pos hi, decide_eq_true hwide,
      Bool.true_and, BitVec.getLsbD_eq_getElem hi]
  rw [strchrReads, hchar, (strchrLoop_spec hstart hlength).1, strchr_eq hnul, laterOccurrence,
    htail, idxOf?_map_byteOf hall hletter]

theorem code_ascii : ∀ x ∈ code, 0 < x.toNat ∧ x.toNat < 128 := by decide

/-- The index of the space is lost: it is the first character of the table. -/
theorem getCodeIndex_iff {codeAddress : BitVec 32} (haddress : codeAddress ≠ 0)
    (hletter : letter ∈ code) :
    (getCodeIndex codeAddress letter).toNat = code.idxOf letter ↔ letter ≠ ' ' := by
  constructor
  · rintro hindex rfl
    have hnull : getCodeIndex codeAddress ' ' = 0 - codeAddress := rfl
    have hfirst : code.idxOf ' ' = 0 := rfl
    rw [hnull, hfirst] at hindex
    exact haddress (by bv_omega)
  · intro hspace
    exact getCodeIndex_letter codeAddress ((List.mem_cons.mp hletter).resolve_left hspace)

end letters

/-- `strchr` is right but for the first character of a string, which in the empty string is the NUL.
Of the characters in the table, `get_code_index` has a wrong index for the space only. -/
theorem strchr_findsFirst_iff (memory : ℕ → BitVec 8) (text : List (BitVec 8)) (c : BitVec 32)
    (h : CString memory text) :
    (FindsFirst memory text c ↔ (text ++ [0]).head? ≠ some (c.setWidth 8)) ∧
      ∀ codeAddress : BitVec 32, codeAddress ≠ 0 → ∀ letter ∈ code,
        ((getCodeIndex codeAddress letter).toNat = code.idxOf letter ↔ letter ≠ ' ') :=
  ⟨findsFirst_iff h, fun _ haddress _ hletter => getCodeIndex_iff haddress hletter⟩

/-- The memory that holds a string, with zeros behind it. -/
def stringMemory (text : List (BitVec 8)) : ℕ → BitVec 8 := fun k => text.getD k 0

theorem cString_stringMemory {text : List (BitVec 8)} (h : ∀ x ∈ text, x ≠ 0) :
    CString (stringMemory text) text := by
  have hbegins : Begins (stringMemory text) text := by
    intro k x hx
    rw [stringMemory, List.getD_eq_getElem?_getD, hx, Option.getD_some]
  have hnul : stringMemory text text.length = 0 := List.getD_eq_default _ _ (Nat.le_refl _)
  exact ⟨hbegins.concat hnul, h⟩

theorem cString_code : CString (stringMemory (code.map byteOf)) (code.map byteOf) := by
  refine cString_stringMemory (List.forall_mem_map.mpr fun x hx hnul => ?_)
  obtain ⟨hpos, hlt⟩ := code_ascii x hx
  have hx0 : x = '\x00' := (byteOf_inj (Nat.lt_trans hlt (by decide)) (by decide)).mp hnul
  exact Nat.ne_of_gt hpos (congrArg Char.toNat hx0)

/-- The second letter of the table. -/
theorem strchr_findsFirst_iff_t :
    FindsFirst (stringMemory (code.map byteOf)) (code.map byteOf) 0x74 ∧
      (getCodeIndex 0x100000 't').toNat = 2 := by
  obtain ⟨hfinds, hindex⟩ := strchr_findsFirst_iff (stringMemory (code.map byteOf))
    (code.map byteOf) 0x74 cString_code
  exact ⟨hfinds.mpr (by decide), (hindex 0x100000 (by decide) 't' (by decide)).mpr (by decide)⟩

/-- The space in the table is not found. -/
theorem space_notFound : ¬ ((∀ memory text c, CString memory text → FindsFirst memory text c) ∧
    ∀ codeAddress : BitVec 32, codeAddress ≠ 0 → ∀ letter ∈ code,
      (getCodeIndex codeAddress letter).toNat = code.idxOf letter) := by
  rintro ⟨hfinds, -⟩
  exact (findsFirst_iff cString_code).mp (hfinds _ _ 0x20 cString_code) (by decide)

end Einherjar.Colorforth
