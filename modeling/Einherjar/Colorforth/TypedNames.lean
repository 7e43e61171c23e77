import Einherjar.Colorforth.Dictionary
import Einherjar.Colorforth.Packing
import Einherjar.Colorforth.Interpreter

/-! Names typed at the prompt: which of them reach a built-in word, when their codes fit in the
32 bits of the shifts. -/
namespace Einherjar.Colorforth
open Einherjar.Io Einherjar.Lib

/-- `do_cmd` executes the built-in word and then shows the stack. -/
def PromptExecutes (codeAddress : BitVec 32) (w : List Char) (b : Builtin) : Prop :=
  ∀ fuel run s, doCmd codeAddress fuel run w s =
    (execute fuel run (dictionaryEntry b)
      ((s.call commandPromptErase).call [.setPosition 0 18])).bind
        fun t => .done ((dotS t).call commandPrompt)

/-- `do_cmd` reports that the word is not found and does nothing else. -/
def PromptRejects (codeAddress : BitVec 32) (w : List Char) : Prop :=
  ∀ fuel run s, doCmd codeAddress fuel run w s =
    .done ((((s.call commandPromptErase).call [.setPosition 0 18]).call wordNotFound).call
      commandPrompt)

theorem call_call (s : Forth) (calls calls' : List VgaCall) :
    (s.call calls).call calls' = s.call (calls ++ calls') := by
  simp [Forth.call]

/-- A code word at the head of a field is known from the field. -/
theorem code_head_unique {c d : Char} (hc : c ∈ code.tail) (hd : d ∈ code.tail) {n r t : ℕ}
    (hn : n ≤ 32) (hlc : codeLength (code.idxOf c) ≤ n) (hld : codeLength (code.idxOf d) ≤ n)
    (hr : r < 2 ^ (n - codeLength (code.idxOf c))) (ht : t < 2 ^ (n - codeLength (code.idxOf d)))
    (h : codeNumber (code.idxOf c) * 2 ^ (n - codeLength (code.idxOf c)) + r =
      codeNumber (code.idxOf d) * 2 ^ (n - codeLength (code.idxOf d)) + t) : c = d := by
  have hwiden : ∀ {e : Char} {q : ℕ}, e ∈ code.tail → codeLength (code.idxOf e) ≤ n →
      q < 2 ^ (n - codeLength (code.idxOf e)) →
      ∀ x : BitVec 32, x.toNat = (codeNumber (code.idxOf e) *
        2 ^ (n - codeLength (code.idxOf e)) + q) * 2 ^ (32 - n) →
      (unpackLoop 1 x).head? = some e := by
    intro e q he hle hq x hx
    obtain ⟨hk, hk'⟩ := idxOf_letter he
    have hpow : 2 ^ (n - codeLength (code.idxOf e)) * 2 ^ (32 - n) =
        2 ^ (32 - codeLength (code.idxOf e)) := by
      rw [← pow_add]
      congr 1
      omega
    rw [Nat.add_mul, Nat.mul_assoc, hpow] at hx
    have hlt : q * 2 ^ (32 - n) < 2 ^ (32 - codeLength (code.idxOf e)) := by
      rw [← hpow]
      exact Nat.mul_lt_mul_of_pos_right hq (by positivity)
    rw [unpackLoop_step hk hk' hx hlt, getD_idxOf (List.mem_of_mem_tail he)]
    rfl
  have hbound : (codeNumber (code.idxOf c) * 2 ^ (n - codeLength (code.idxOf c)) + r) *
      2 ^ (32 - n) < 2 ^ 32 := by
    have hnum := codeNumber_lt (idxOf_letter hc).2
    have hsplit : 2 ^ 32 = 2 ^ codeLength (code.idxOf c) *
        2 ^ (n - codeLength (code.idxOf c)) * 2 ^ (32 - n) := by
      rw [← pow_add, ← pow_add]
      congr 1
      omega
    rw [hsplit]
    apply Nat.mul_lt_mul_of_pos_right _ (by positivity)
    have hmul := Nat.mul_le_mul_right (2 ^ (n - codeLength (code.idxOf c))) hnum
    rw [Nat.succ_mul] at hmul
    omega
  have hx := BitVec.toNat_ofNat ((codeNumber (code.idxOf c) *
    2 ^ (n - codeLength (code.idxOf c)) + r) * 2 ^ (32 - n)) 32
  rw [Nat.mod_eq_of_lt hbound] at hx
  have hfirst := hwiden hc hlc hr _ hx
  rw [hwiden hd hld ht _ (by rw [hx, h])] at hfirst
  exact (Option.some.inj hfirst).symm

/-- A cut off field that holds a whole name and three bits more begins with this name, and has
zeros after it. -/
theorem exists_rest_of_field_eq {v w : List Char} (hv : ∀ c ∈ v, c ∈ code.tail)
    (hw : ∀ c ∈ w, c ∈ code.tail) {n : ℕ} (hn : n ≤ 32) (hlen : (codeBits v).length + 3 ≤ n)
    (h : field n (codeBits w) = field n (codeBits v)) :
    ∃ rest, w = v ++ rest ∧ field (n - (codeBits v).length) (codeBits rest) = 0 := by
  induction v generalizing w n with
  | nil => exact ⟨w, rfl, by simpa using h⟩
  | cons d v ih =>
    have hd := hv d List.mem_cons_self
    have hdlen := codeLength_bounds (idxOf_letter hd).2
    rw [codeBits_cons, List.length_append, length_bits] at hlen
    have hdfield := field_codeBits_cons (w := v) (List.mem_of_mem_tail hd) (show _ ≤ n by omega)
    cases w with
    | nil =>
      have hpos := codeNumber_pos (idxOf_letter hd).1
      have hmul : 0 < codeNumber (code.idxOf d) * 2 ^ (n - codeLength (code.idxOf d)) := by
        positivity
      rw [hdfield] at h
      simp at h
      omega
    | cons c w =>
      have hc := hw c List.mem_cons_self
      have hclen := codeLength_bounds (idxOf_letter hc).2
      have hcfield := field_codeBits_cons (w := w) (List.mem_of_mem_tail hc) (show _ ≤ n by omega)
      rw [hcfield, hdfield] at h
      obtain rfl := code_head_unique hc hd hn (by omega) (by omega) (field_lt ..) (field_lt ..) h
      obtain ⟨rest, hrest, hzero⟩ := ih (fun x hx => hv x (List.mem_cons_of_mem _ hx))
        (fun x hx => hw x (List.mem_cons_of_mem _ hx)) (by omega) (by omega)
        (Nat.add_left_cancel h)
      refine ⟨rest, by rw [hrest]; rfl, ?_⟩
      rw [codeBits_cons, List.length_append, length_bits, ← Nat.sub_sub]
      exact hzero

/-- A character cut off by the field, whose bits in the field are zeros. -/
theorem codeNumber_small_of_field_eq_zero {c : Char} (hc : c ∈ code.tail) {w : List Char} {n : ℕ}
    (h : field n (codeBits (c :: w)) = 0) :
    n < codeLength (code.idxOf c) ∧
      codeNumber (code.idxOf c) / 2 ^ (codeLength (code.idxOf c) - n) = 0 := by
  obtain ⟨hpos, hk⟩ := idxOf_letter hc
  have hcut : n < codeLength (code.idxOf c) := by
    by_contra hle
    have hmul : 0 < codeNumber (code.idxOf c) * 2 ^ (n - codeLength (code.idxOf c)) := by
      have := codeNumber_pos hpos
      positivity
    rw [field_codeBits_cons (List.mem_of_mem_tail hc) (by omega)] at h
    omega
  refine ⟨hcut, ?_⟩
  rwa [codeBits_cons, field_append_of_le (by rw [length_bits]; omega),
    field_bits (by omega) (codeNumber_lt hk)] at h

/-- The bits that the names of the built-in words leave in a cell. -/
theorem room_spelling (b : Builtin) :
    28 - (codeBits (spelling b)).length ∈ [21, 8, 6, 4, 3] ∧
      (28 - (codeBits (spelling b)).length = 3 → b = .loads) := by
  cases b <;> decide

theorem lost_letter : ∀ k < 48, 1 ≤ k → ∀ n ∈ [21, 8, 6, 4, 3], n < codeLength k →
    codeNumber k / 2 ^ (codeLength k - n) = 0 → n = 3 ∧ k = 1 := by decide

/-- After the name of a built-in word, only one letter can be lost: an r after loads. -/
theorem lost_rest {b : Builtin} {rest : List Char} (hrest : ∀ c ∈ rest, c ∈ code.tail)
    (hzero : field (28 - (codeBits (spelling b)).length) (codeBits rest) = 0)
    (hlen : (codeBits (spelling b)).length + (codeBits rest).length ≤ 32) :
    rest = [] ∨ b = .loads ∧ rest = ['r'] := by
  cases rest with
  | nil => exact .inl rfl
  | cons c u =>
    have hc := hrest c List.mem_cons_self
    obtain ⟨hpos, hk⟩ := idxOf_letter hc
    obtain ⟨hroom, hloads⟩ := room_spelling b
    obtain ⟨hcut, hquot⟩ := codeNumber_small_of_field_eq_zero hc hzero
    obtain ⟨hthree, hone⟩ := lost_letter _ hk hpos _ hroom hcut hquot
    obtain rfl := hloads hthree
    have hletter : c = 'r' := by
      rw [← getD_idxOf (List.mem_of_mem_tail hc) ' ', hone]
      rfl
    have hu : u = [] := by
      by_contra hne
      have hfour := four_le_length_codeBits ⟨hne, fun x hx => hrest x (List.mem_cons_of_mem _ hx)⟩
      rw [codeBits_cons, List.length_append, length_bits, hone,
        show (codeBits (spelling .loads)).length = 25 by decide,
        show codeLength 1 = 4 by decide] at hlen
      omega
    exact .inr ⟨rfl, by rw [hu, hletter]⟩

/-- The name is that of the built-in word, or loadsr for loads. -/
def TypedAs (w : List Char) (b : Builtin) : Prop :=
  w = spelling b ∨ b = .loads ∧ w = ['l', 'o', 'a', 'd', 's', 'r']

theorem nameCell_eq_iff_typedAs {w : List Char} (hw : IsWord w) (hlen : (codeBits w).length ≤ 32)
    (b : Builtin) : nameCell w 0 = nameCell (spelling b) 0 ↔ TypedAs w b := by
  constructor
  · intro h
    have hroom := (room_spelling b).1
    have hfield : field 28 (codeBits w) = field 28 (codeBits (spelling b)) := by
      have hnat := congrArg BitVec.toNat h
      rw [toNat_nameCell (by decide), toNat_nameCell (by decide)] at hnat
      omega
    have hthree : (codeBits (spelling b)).length + 3 ≤ 28 := by
      simp only [List.mem_cons, List.not_mem_nil, or_false] at hroom
      omega
    obtain ⟨rest, rfl, hzero⟩ := exists_rest_of_field_eq (isWord_spelling b).letters hw.letters
      (by decide) hthree hfield
    rw [codeBits_append, List.length_append] at hlen
    rcases lost_rest (fun c hc => hw.letters c (List.mem_append_right _ hc)) hzero hlen with
      rfl | ⟨rfl, rfl⟩
    · exact .inl (List.append_nil _)
    · exact .inr ⟨rfl, rfl⟩
  · rintro (rfl | ⟨rfl, rfl⟩)
    · rfl
    · decide

variable {codeAddress : BitVec 32} {w : List Char}

theorem color_or_wordTag (x : Cell) :
    (((x &&& 0xfffffff0#32) ||| interpretWordTag) &&& 0xf#32).toNat = 1 := by
  have heq : ((x &&& 0xfffffff0#32) ||| interpretWordTag) &&& 0xf#32 = 1#32 := by
    unfold interpretWordTag
    ext i hi
    interval_cases i <;> simp
  rw [heq]
  rfl

theorem name_or_wordTag (x : Cell) :
    ((x &&& 0xfffffff0#32) ||| interpretWordTag) &&& ~~~0xf#32 = x &&& ~~~0xf#32 := by
  unfold interpretWordTag
  ext i hi
  interval_cases i <;> simp

theorem doCmd_of_lookup (hnum : isNumber w = false) {packed : Cell}
    (hpack : pack codeAddress w = .done packed) {b : Builtin}
    (hname : packed &&& ~~~0xf#32 = nameCell (spelling b) 0) :
    PromptExecutes codeAddress w b := by
  intro fuel run s
  have hlookup := lookupWord_of_name ((name_or_wordTag packed).trans hname)
  unfold doCmd
  simp only [hnum, hpack, Outcome.done_bind, hlookup, Bool.false_eq_true, if_false]
  rw [dispatchCommand, dispatchWord_of_lookup (color_or_wordTag packed) hlookup]

theorem doCmd_of_lookup_none (hnum : isNumber w = false) {packed : Cell}
    (hpack : pack codeAddress w = .done packed)
    (hname : ∀ b, packed &&& ~~~0xf#32 ≠ nameCell (spelling b) 0) :
    PromptRejects codeAddress w := by
  intro fuel run s
  have hlookup := lookupWord_eq_none fun b heq =>
    hname b ((name_or_wordTag packed).symm.trans heq)
  unfold doCmd
  simp only [hnum, hpack, Outcome.done_bind, hlookup, Bool.false_eq_true, if_false]

theorem promptExecutes_unique {b b' : Builtin} (h : PromptExecutes codeAddress w b)
    (h' : PromptExecutes codeAddress w b') : b = b' := by
  obtain ⟨t, ht, hip⟩ := execute_calm b (commandPromptErase ++ [.setPosition 0 18])
  obtain ⟨t', ht', hip'⟩ := execute_calm b' (commandPromptErase ++ [.setPosition 0 18])
  have hrun := (h 1 (fun _ s => .done s) calmForth).symm.trans (h' 1 (fun _ s => .done s) calmForth)
  rw [call_call, ht, ht'] at hrun
  have hstate := congrArg Forth.ip (Outcome.done.inj hrun)
  exact Option.some.inj (hip.symm.trans (hstate.trans hip'))

theorem not_promptExecutes_of_rejects (h : PromptRejects codeAddress w) (b : Builtin) :
    ¬ PromptExecutes codeAddress w b := by
  intro hexec
  obtain ⟨t, ht, hip⟩ := execute_calm b (commandPromptErase ++ [.setPosition 0 18])
  have hrun := (h 1 (fun _ s => .done s) calmForth).symm.trans
    (hexec 1 (fun _ s => .done s) calmForth)
  rw [← call_call] at ht
  rw [ht] at hrun
  have hstate : none = t.ip := congrArg Forth.ip (Outcome.done.inj hrun)
  rw [hip] at hstate
  cases hstate

theorem promptRejects_of_not_typedAs (hw : IsWord w) (hlen : (codeBits w).length ≤ 32)
    (hnum : isNumber w = false) (h : ∀ b, ¬ TypedAs w b) : PromptRejects codeAddress w := by
  obtain ⟨packed, hpack, hname⟩ := name_pack codeAddress hw hlen
  apply doCmd_of_lookup_none hnum hpack
  intro b heq
  rw [hname] at heq
  exact h b ((nameCell_eq_iff_typedAs hw hlen b).mp heq)

theorem promptExecutes_iff (hw : IsWord w) (hlen : (codeBits w).length ≤ 32)
    (hnum : isNumber w = false) (b : Builtin) : PromptExecutes codeAddress w b ↔ TypedAs w b := by
  obtain ⟨packed, hpack, hname⟩ := name_pack codeAddress hw hlen
  have hexec : ∀ b', TypedAs w b' → PromptExecutes codeAddress w b' := fun b' h =>
    doCmd_of_lookup hnum hpack (hname.trans ((nameCell_eq_iff_typedAs hw hlen b').mpr h))
  refine ⟨fun h => ?_, hexec b⟩
  by_cases hany : ∃ b', TypedAs w b'
  · obtain ⟨b', hb'⟩ := hany
    rwa [promptExecutes_unique h (hexec b' hb')]
  · exact absurd h (not_promptExecutes_of_rejects
      (promptRejects_of_not_typedAs hw hlen hnum fun b' hb' => hany ⟨b', hb'⟩) b)

end Einherjar.Colorforth
