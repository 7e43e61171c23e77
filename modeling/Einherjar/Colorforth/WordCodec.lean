import Einherjar.Colorforth.Converter
import Einherjar.Colorforth.NameEncoding
import Einherjar.Colorforth.Packing
import Mathlib.Data.List.Basic

/-! The codec of words: what the decoder finds in the cells that the prompt and the converter make
of a word, and where these two differ. -/
namespace Einherjar.Colorforth
open Einherjar.Lib

/-- The code lengths of the characters, together. -/
def nominalLength (w : List Char) : ℕ := (w.map fun c => codeLength (code.idxOf c)).sum

theorem length_codeBits (w : List Char) : (codeBits w).length = nominalLength w := by
  induction w with
  | nil => rfl
  | cons c w ih =>
    rw [codeBits_cons, List.length_append, length_bits, ih, nominalLength, nominalLength,
      List.map_cons, List.sum_cons]

/-- The functions for which `word_to_long_array` packs a word. -/
structure PacksWord (f : BlockFunction) (inVariable : Bool) : Prop where
  long : f ∉ longFunctions
  short : f ∉ shortFunctions
  value : ¬ (f = .compileWord ∧ inVariable = true)

/-- The 28 upper bits of the cell are the codes of the group, of which nothing but zeros at the
end is cut off. -/
structure Carries (cell : Cell) (g : List Char) : Prop where
  fits : Fits 28 (codeBits g)
  name : cell.toNat / 16 = field 28 (codeBits g)

section short

variable {w : List Char}

theorem pack_of_length_le (codeAddress : BitVec 32) (hw : IsWord w)
    (hlen : nominalLength w ≤ 28) : pack codeAddress w = .done (nameCell w 0) := by
  rw [← length_codeBits] at hlen
  have hfield : field 32 (codeBits w) = field 28 (codeBits w) * 16 :=
    (fits_of_length_le hlen).field_add 4
  rw [pack_eq codeAddress hw (hlen.trans (by decide)), hfield]
  rfl

theorem or_tag {cell : Cell} (hcell : cell.toNat % 16 = 0) {tag : ℕ} (htag : tag < 16) :
    (cell ||| BitVec.ofNat 32 tag).toNat = cell.toNat + tag := by
  have hshift : cell.toNat = (cell.toNat / 16) <<< 4 := by
    rw [Nat.shiftLeft_eq]
    omega
  rw [BitVec.toNat_or, BitVec.toNat_ofNat, Nat.mod_eq_of_lt (htag.trans (by decide)), hshift,
    shiftLeft_or_eq (by simpa using htag), Nat.shiftLeft_eq]

theorem nameCell_or (w : List Char) {tag : ℕ} (htag : tag < 16) :
    nameCell w 0 ||| BitVec.ofNat 32 tag = nameCell w tag := by
  have hzero : (nameCell w 0).toNat = field 28 (codeBits w) * 16 := toNat_nameCell (by decide)
  apply BitVec.eq_of_toNat_eq
  rw [or_tag (by omega) htag, toNat_nameCell htag, hzero]

end short

/-- The decoder finds in the packed word, with any tag, the word; so no other word is packed
alike. -/
theorem unpack_pack (codeAddress : BitVec 32) (w : List Char) (hw : IsWord w)
    (hlen : nominalLength w ≤ 28) :
    ∃ packed, pack codeAddress w = .done packed ∧ packed &&& 0xf#32 = 0 ∧
      (∀ tag < 16, unpack (packed ||| BitVec.ofNat 32 tag) = w) ∧
      ∀ v, IsWord v → nominalLength v ≤ 28 → pack codeAddress v = .done packed → v = w := by
  have hunpack : ∀ v, IsWord v → nominalLength v ≤ 28 → ∀ tag < 16,
      unpack (nameCell v tag) = v := by
    intro v hv hlen tag htag
    exact unpack_nameCell hv.letters (fits_of_length_le ((length_codeBits v).trans_le hlen)) htag
  refine ⟨_, pack_of_length_le codeAddress hw hlen, ?_, ?_, ?_⟩
  · apply BitVec.eq_of_toNat_eq
    exact color_nameCell (by decide)
  · intro tag htag
    rw [nameCell_or w htag]
    exact hunpack w hw hlen tag htag
  · intro v hv hvlen hpack
    rw [pack_of_length_le codeAddress hv hvlen] at hpack
    rw [← hunpack v hv hvlen 0 (by decide), Outcome.done.inj hpack, hunpack w hw hlen 0 (by decide)]

theorem unpack_pack_loads :
    ∃ packed, pack 0 "loads".toList = .done packed ∧ packed &&& 0xf#32 = 0 ∧
      (∀ tag < 16, unpack (packed ||| BitVec.ofNat 32 tag) = "loads".toList) ∧
      ∀ v, IsWord v → nominalLength v ≤ 28 → pack 0 v = .done packed → v = "loads".toList :=
  unpack_pack 0 _ (by decide) (by decide)

section cells

variable {w : List Char}

theorem PacksWord.tag_lt {f : BlockFunction} {inVariable : Bool} (hf : PacksWord f inVariable) :
    getTagsForFunction f < 16 := by
  have htag : ∀ f, f ∉ longFunctions → f ∉ shortFunctions → getTagsForFunction f < 16 := by
    intro f
    cases f <;> decide
  exact htag f hf.long hf.short

/-- With enough fuel, the cells of a word are those of its groups. -/
theorem wordToLongArray_word {f : BlockFunction} {inVariable : Bool} (hf : PacksWord f inVariable)
    (hw : IsWord w) {fuel : ℕ} (hfuel : 2 * w.length + 1 < fuel) :
    wordToLongArray fuel inVariable f w =
      .done (wordCells (getTagsForFunction f) w, inVariable) := by
  unfold wordToLongArray
  simp only [if_neg hf.long, if_neg hf.short, if_neg hf.value,
    packWord_eq hf.tag_lt hw.letters hfuel, Outcome.done_bind]

theorem carries_nameCell {g : List Char} (hfits : Fits 28 (codeBits g)) {tag : ℕ}
    (htag : tag < 16) : Carries (nameCell g tag) g := by
  refine ⟨hfits, ?_⟩
  rw [toNat_nameCell htag]
  omega

/-- The extension cells of groups. -/
theorem extension_cells (tag : ℕ) {gs : List (List Char)} (hgs : ∀ g ∈ gs, IsGroup g) :
    (∀ cell ∈ groupCells tag true gs, cell &&& 0xf#32 = 0) ∧
      List.Forall₂ Carries (groupCells tag true gs) gs ∧
      (groupCells tag true gs).flatMap unpack = gs.flatten := by
  induction gs with
  | nil => simp [groupCells]
  | cons g gs ih =>
    obtain ⟨hlow, hcarries, hflat⟩ := ih fun x hx => hgs x (List.mem_cons_of_mem _ hx)
    have hg := hgs g List.mem_cons_self
    rw [groupCells, if_pos rfl]
    refine ⟨?_, .cons (carries_nameCell hg.fits (by decide)) hcarries, ?_⟩
    · rw [List.forall_mem_cons]
      exact ⟨BitVec.eq_of_toNat_eq (color_nameCell (by decide)), hlow⟩
    · rw [List.flatMap_cons, List.flatten_cons, hflat, unpack_nameCell hg.letters hg.fits]
      decide

/-- The head cell has the tag and the others have none; each carries the codes of a part of the
word, and the decoder finds the parts. -/
theorem wordCells_spec {tag : ℕ} (htag : tag < 16) (hw : IsWord w) :
    ∃ head rest groups, wordCells tag w = head :: rest ∧ (head &&& 0xf#32).toNat = tag ∧
      (∀ cell ∈ rest, cell &&& 0xf#32 = 0) ∧
      List.Forall₂ Carries (head :: rest) groups ∧ groups.flatten = w ∧
      (head :: rest).flatMap unpack = w := by
  obtain ⟨g, gs, hcases, hgroups, hflat⟩ := exists_groups hw
  obtain ⟨hlow, hcarries, hunpack⟩ :=
    extension_cells tag fun x hx => hgroups x (List.mem_cons_of_mem _ hx)
  have hg := hgroups g List.mem_cons_self
  rw [wordCells, hcases]
  refine ⟨nameCell g tag, groupCells tag true gs, g :: gs, rfl, color_nameCell htag, hlow,
    .cons (carries_nameCell hg.fits htag) hcarries, hflat, ?_⟩
  rw [List.flatMap_cons, unpack_nameCell hg.letters hg.fits htag, hunpack]
  exact hflat

end cells

/-- The converter's loops come to an end for every word, and the decoder finds the word again in
the cells: the head with the tag and extensions without one, each with as much of the word as fits
in 28 bits. -/
theorem wordToLongArray_lossless (f : BlockFunction) (inVariable : Bool) (w : List Char)
    (hf : PacksWord f inVariable) (hw : IsWord w) :
    ∃ head rest groups,
      (∀ fuel > 2 * w.length + 1,
        wordToLongArray fuel inVariable f w = .done (head :: rest, inVariable)) ∧
      (head &&& 0xf#32).toNat = getTagsForFunction f ∧ (∀ cell ∈ rest, cell &&& 0xf#32 = 0) ∧
      List.Forall₂ Carries (head :: rest) groups ∧ groups.flatten = w ∧
      (head :: rest).flatMap unpack = w := by
  obtain ⟨head, rest, groups, hcells, hspec⟩ := wordCells_spec hf.tag_lt hw
  refine ⟨head, rest, groups, fun fuel hfuel => ?_, hspec⟩
  rw [wordToLongArray_word hf hw hfuel, hcells]

/-- The codes of the word take 33 bits: the last two bits of the first cell are those of the d. -/
theorem wordToLongArray_lossless_limited :
    ∃ head rest groups,
      (∀ fuel > 2 * "limited".toList.length + 1,
        wordToLongArray fuel false .execute "limited".toList = .done (head :: rest, false)) ∧
      (head &&& 0xf#32).toNat = getTagsForFunction .execute ∧
      (∀ cell ∈ rest, cell &&& 0xf#32 = 0) ∧
      List.Forall₂ Carries (head :: rest) groups ∧ groups.flatten = "limited".toList ∧
      (head :: rest).flatMap unpack = "limited".toList :=
  wordToLongArray_lossless .execute false _ ⟨by decide, by decide, by decide⟩ (by decide)

section single

variable {w : List Char} {tag : ℕ}

/-- A word in one cell loses nothing but zeros. -/
theorem fits_of_single {cell : Cell} (hw : IsWord w) (h : wordCells tag w = [cell]) :
    Fits 28 (codeBits w) ∧ cell = nameCell w tag := by
  have hfits : Fits 28 (codeBits w) := by
    by_contra hfits
    obtain ⟨head, second, gs, hgroups⟩ := exists_second_group hw hfits
    unfold wordCells at h
    rw [hgroups] at h
    simp [groupCells] at h
  rw [wordCells_of_fits hw hfits] at h
  exact ⟨hfits, (List.singleton_inj.mp h).symm⟩

/-- Five zeros or more at the end: the code of the letter d. -/
theorem letter_of_zeros {c : Char} (hc : c ∈ code.tail) {e : ℕ} (he : 5 ≤ e)
    (hdvd : 2 ^ e ∣ codeNumber (code.idxOf c)) :
    codeLength (code.idxOf c) = 7 ∧ codeNumber (code.idxOf c) = 96 ∧ e = 5 := by
  obtain ⟨hpos, hlt⟩ := idxOf_letter hc
  have hbound : 2 ^ e ≤ 127 := by
    refine (Nat.le_of_dvd (codeNumber_pos hpos) hdvd).trans ?_
    rcases code_cases hlt with ⟨-, -, hn⟩ | ⟨-, -, -, hn⟩ | ⟨-, -, -, hn⟩ <;> omega
  have he7 : e < 7 := by
    by_contra hge
    have := Nat.pow_le_pow_right (show 0 < 2 by decide) (Nat.le_of_not_lt hge)
    omega
  have hfive : 2 ^ 5 ∣ codeNumber (code.idxOf c) := (Nat.pow_dvd_pow 2 he).trans hdvd
  rcases code_cases hlt with ⟨hk, hl, hn⟩ | ⟨hk, hk', hl, hn⟩ | ⟨hk, hk', hl, hn⟩
  · omega
  · omega
  · refine ⟨hl, by omega, ?_⟩
    interval_cases e
    · rfl
    · omega

/-- A word that is longer than a shift can be, and still fits in a cell, ends with a d after 26
bits. -/
theorem last_of_long (hw : IsWord w) (hfits : Fits 28 (codeBits w))
    (hlen : 32 < (codeBits w).length) :
    ∃ v c, w = v ++ [c] ∧ c ∈ code.tail ∧ (codeBits v).length = 26 ∧
      codeLength (code.idxOf c) = 7 ∧ codeNumber (code.idxOf c) = 96 := by
  obtain rfl | ⟨v, c, rfl⟩ := w.eq_nil_or_concat'
  · exact absurd rfl hw.nonempty
  have hc : c ∈ code.tail := hw.letters c (by simp)
  have hlt := (idxOf_letter hc).2
  have hl := codeLength_bounds hlt
  rw [codeBits_snoc, List.length_append, length_bits] at hlen
  rw [codeBits_snoc, fits_append_iff] at hfits
  have hroom : 28 - (codeBits v).length ≠ 0 := by
    intro h0
    rw [h0] at hfits
    exact not_fits_zero_letter hc hfits.2
  have hdvd := (fits_bits_iff (by omega) (codeNumber_lt hlt)).mp hfits.2
  obtain ⟨hl7, hn, he⟩ := letter_of_zeros hc (by omega) hdvd
  exact ⟨v, c, rfl, hc, by omega, hl7, hn⟩

theorem shiftLeft_of_even (packed : BitVec 32) : ((packed <<< 7) + 96#32) <<< 31 = 0#32 := by
  apply BitVec.eq_of_toNat_eq
  have heven : ((packed <<< 7) + 96#32).toNat % 2 = 0 := by
    rw [BitVec.toNat_add, BitVec.toNat_shiftLeft, BitVec.toNat_ofNat, Nat.shiftLeft_eq]
    omega
  rw [BitVec.toNat_shiftLeft, BitVec.toNat_ofNat, Nat.shiftLeft_eq]
  omega

/-- The shift is by 31 then, and the code is lost. -/
theorem pack_of_long (codeAddress : BitVec 32) (hw : IsWord w) (hfits : Fits 28 (codeBits w))
    (hlen : 32 < (codeBits w).length) : pack codeAddress w = .done 0 := by
  obtain ⟨v, c, rfl, hc, hv, hl, hn⟩ := last_of_long hw hfits hlen
  have hletters : ∀ x ∈ v, x ∈ code.tail := fun x hx => hw.letters x (by simp [hx])
  have hfold := foldl_packLetter codeAddress hletters 0 28
    (show (0 : BitVec 32).toNat < 2 ^ 0 by simp) (by omega)
  rw [hv] at hfold
  generalize BitVec.ofNat 32 ((0 : BitVec 32).toNat * 2 ^ 26 + field 26 (codeBits v)) = packed
    at hfold
  unfold pack
  rw [if_neg (by simp), List.foldl_append, hfold]
  simp only [List.foldl_cons, List.foldl_nil, packLetter, getCodeIndex_letter codeAddress hc, hl,
    hn]
  have hcount : (28 - BitVec.ofNat 32 26 - BitVec.ofNat 32 7 + 4 : BitVec 32).toNat % 32 = 31 := by
    decide
  rw [hcount, shiftLeft_of_even]
  rfl

theorem nameCell_ne_zero (hw : IsWord w) (hfits : Fits 28 (codeBits w)) : nameCell w 0 ≠ 0 := by
  intro h0
  have hunpack := unpack_nameCell hw.letters hfits (show 0 < 16 by decide)
  rw [h0] at hunpack
  exact hw.nonempty hunpack.symm

end single

/-- A word that the converter puts in one cell gets the same name bits at the prompt, unless its
codes take 33 bits. -/
theorem pack_eq_stored_iff (codeAddress : BitVec 32) (f : BlockFunction) (inVariable : Bool)
    (w : List Char) (fuel : ℕ) (cell : Cell) (hf : PacksWord f inVariable) (hw : IsWord w)
    (hcell : wordToLongArray fuel inVariable f w = .done ([cell], inVariable)) :
    (∃ packed, pack codeAddress w = .done packed ∧
      packed &&& 0xfffffff0#32 = cell &&& 0xfffffff0#32) ↔ nominalLength w ≠ 33 := by
  have hbig := wordToLongArray_word hf hw (Nat.lt_succ_self (2 * w.length + 1))
  have hsame := Outcome.result_unique (wordToLongArray_mono inVariable f w) hcell hbig
  obtain ⟨hfits, rfl⟩ := fits_of_single hw (Prod.mk.inj hsame).1.symm
  have hname : nameCell w (getTagsForFunction f) &&& 0xfffffff0#32 = nameCell w 0 :=
    name_nameCell hf.tag_lt
  rw [hname, ← length_codeBits]
  by_cases hlen : (codeBits w).length ≤ 32
  · obtain ⟨packed, hpack, heq⟩ := name_pack codeAddress hw hlen
    exact iff_of_true ⟨packed, hpack, heq⟩ (by omega)
  · have hlong : 32 < (codeBits w).length := Nat.lt_of_not_le hlen
    obtain ⟨v, c, rfl, hc, hv, hl, -⟩ := last_of_long hw hfits hlong
    have h33 : (codeBits (v ++ [c])).length = 33 := by
      rw [codeBits_snoc, List.length_append, length_bits, hv, hl]
    refine iff_of_false ?_ (not_not_intro h33)
    rintro ⟨packed, hpack, heq⟩
    rw [pack_of_long codeAddress hw hfits hlong] at hpack
    obtain rfl := Outcome.done.inj hpack
    exact nameCell_ne_zero hw hfits (heq.symm.trans (by decide))

theorem executesWord : PacksWord .execute false := ⟨by decide, by decide, by decide⟩

theorem wordToLongArray_execute {w : List Char} (hw : IsWord w) (hfits : Fits 28 (codeBits w)) :
    wordToLongArray (2 * w.length + 2) false .execute w = .done ([nameCell w 1], false) := by
  have hcells := wordToLongArray_word executesWord hw (Nat.lt_succ_self (2 * w.length + 1))
  rwa [wordCells_of_fits hw hfits] at hcells

/-- 29 bits, the last of which are zeros. -/
theorem pack_eq_stored_iff_notions :
    (∃ packed, pack 0 "notions".toList = .done packed ∧
      packed &&& 0xfffffff0#32 = nameCell "notions".toList 1 &&& 0xfffffff0#32) ↔
        nominalLength "notions".toList ≠ 33 :=
  pack_eq_stored_iff 0 .execute false _ _ _ executesWord (by decide)
    (wordToLongArray_execute (by decide) (by decide))

/-- Typed, "limited" is packed as 0, and stored, in one cell that is not. -/
theorem limited_typed_zero : ¬ ∀ (codeAddress : BitVec 32) (f : BlockFunction) (inVariable : Bool)
    (w : List Char) (fuel : ℕ) (cell : Cell), PacksWord f inVariable → IsWord w →
      wordToLongArray fuel inVariable f w = .done ([cell], inVariable) →
        ∃ packed, pack codeAddress w = .done packed ∧
          packed &&& 0xfffffff0#32 = cell &&& 0xfffffff0#32 := by
  intro h
  obtain ⟨packed, hpack, heq⟩ := h 0 .execute false "limited".toList _ _ executesWord (by decide)
    (wordToLongArray_execute (by decide) (by decide))
  have hzero : pack 0 "limited".toList = .done 0 := by decide
  obtain rfl := Outcome.done.inj (hzero.symm.trans hpack)
  exact absurd heq (by decide)

end Einherjar.Colorforth
