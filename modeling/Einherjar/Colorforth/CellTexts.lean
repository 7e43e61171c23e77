import Einherjar.Colorforth.TextCells
import Mathlib.Data.List.Chain
import Mathlib.Data.List.Induction

/-! The texts of arbitrary cells, and what the encoder makes of several of them joined. -/
namespace Einherjar.Colorforth
open Einherjar.Lib

/-- A text that a cell can show. -/
structure CellText (w : List Char) : Prop where
  letters : ∀ c ∈ w, c ∈ code
  tight : Tight w
  fits : Fits 28 (codeBits w)

section decoding

theorem idxOf_getD {k : ℕ} (hk : k < 48) : code.idxOf (code.getD k '\x00') = k := by
  interval_cases k <;> decide

theorem getD_mem_code {k : ℕ} (hk : k < 48) : code.getD k '\x00' ∈ code := by
  rw [List.getD_eq_getElem _ _ (show k < code.length from hk)]
  exact List.getElem_mem _

/-- Every number of 32 bits starts with a code. -/
theorem exists_split (n : ℕ) (hn : n < 2 ^ 32) : ∃ k r, k < 48 ∧ r < 2 ^ (32 - codeLength k) ∧
    n = codeNumber k * 2 ^ (32 - codeLength k) + r := by
  have hcode : ∀ k len, codeLength k = len → k < 48 → len ≤ 32 →
      codeNumber k = n / 2 ^ (32 - len) → ∃ k r, k < 48 ∧ r < 2 ^ (32 - codeLength k) ∧
        n = codeNumber k * 2 ^ (32 - codeLength k) + r := by
    intro k len hlen hk _ hnum
    refine ⟨k, n % 2 ^ (32 - len), hk, ?_, ?_⟩
    · rw [hlen]
      exact Nat.mod_lt _ (by positivity)
    · rw [hlen, hnum]
      exact (Nat.div_add_mod' n _).symm
  by_cases h4 : n / 2 ^ 28 < 8
  · rcases code_cases (k := n / 2 ^ 28) (by omega) with ⟨-, hl, hnum⟩ | ⟨h, -⟩ | ⟨h, -⟩
    · exact hcode _ 4 hl (by omega) (by decide) hnum
    · omega
    · omega
  by_cases h5 : n / 2 ^ 28 < 12
  · rcases code_cases (k := n / 2 ^ 27 - 8) (by omega) with ⟨h, -⟩ | ⟨-, -, hl, hnum⟩ | ⟨h, -⟩
    · omega
    · exact hcode _ 5 hl (by omega) (by decide) (by omega)
    · omega
  · rcases code_cases (k := n / 2 ^ 25 - 80) (by omega) with ⟨h, -⟩ | ⟨-, h, -⟩ | ⟨-, -, hl, hnum⟩
    · omega
    · omega
    · exact hcode _ 7 hl (by omega) (by decide) (by omega)

theorem tight_cons_iff {c : Char} {w : List Char} (hw : w ≠ []) : Tight (c :: w) ↔ Tight w := by
  obtain ⟨d, v, rfl⟩ := List.exists_cons_of_ne_nil hw
  simp [Tight]

/-- What is left of a number has its bits in the places that the first code leaves. -/
theorem dvd_left {cn l m r : ℕ} (hl : l ≤ 32) (hm : m ≤ 32) (hr : r < 2 ^ (32 - l))
    (hdvd : 2 ^ (32 - m) ∣ cn * 2 ^ (32 - l) + r) :
    2 ^ (32 - (m - l)) ∣ r * 2 ^ l ∧ (m < l → r = 0) := by
  by_cases hml : l ≤ m
  · have hr' : 2 ^ (32 - m) ∣ r := by
      refine (Nat.dvd_add_right ?_).mp hdvd
      exact (Nat.pow_dvd_pow 2 (by omega)).mul_left cn
    rw [show 32 - (m - l) = 32 - m + l by omega, pow_add]
    exact ⟨Nat.mul_dvd_mul_right hr' _, by omega⟩
  · have hr' : 2 ^ (32 - l) ∣ r :=
      (Nat.dvd_add_right (Nat.dvd_mul_left _ cn)).mp
        ((Nat.pow_dvd_pow 2 (by omega)).trans hdvd)
    rw [Nat.eq_zero_of_dvd_of_lt hr' hr]
    simp

/-- What the loop decodes has the number as its code. -/
theorem unpackLoop_spec {fuel : ℕ} {coded : BitVec 32} {m : ℕ} (hm : m ≤ 28)
    (hdvd : 2 ^ (32 - m) ∣ coded.toNat) (hfuel : m ≤ 4 * fuel) :
    (∀ c ∈ unpackLoop fuel coded, c ∈ code) ∧ Tight (unpackLoop fuel coded) ∧
      Fits m (codeBits (unpackLoop fuel coded)) ∧
      field 32 (codeBits (unpackLoop fuel coded)) = coded.toNat := by
  induction fuel generalizing coded m with
  | zero =>
    obtain rfl : m = 0 := by omega
    have hzero := Nat.eq_zero_of_dvd_of_lt hdvd coded.isLt
    simp [unpackLoop, Tight, hzero, Fits]
  | succ fuel ih =>
    by_cases hne : coded = 0
    · simp [unpackLoop, hne, Tight, Fits]
    obtain ⟨k, r, hk, hr, hsplit⟩ := exists_split coded.toNat coded.isLt
    obtain ⟨hlen4, hlen7⟩ := codeLength_bounds hk
    have hnum := codeNumber_lt hk
    have hword := unpackLoop_split hne hk hsplit hr fuel
    have hidx := idxOf_getD hk
    have hmem := getD_mem_code hk
    generalize code.getD k '\x00' = c at hword hidx hmem
    generalize hl : codeLength k = l at *
    generalize hcn : codeNumber k = cn at *
    have hpow : 2 ^ (32 - l) * 2 ^ l = 2 ^ 32 := by rw [← pow_add, Nat.sub_add_cancel (by omega)]
    have hlt : r * 2 ^ l < 2 ^ 32 := by
      rw [← hpow]
      exact Nat.mul_lt_mul_of_pos_right hr (by positivity)
    have hrest : (BitVec.ofNat 32 (r * 2 ^ l)).toNat = r * 2 ^ l := by
      rw [BitVec.toNat_ofNat, Nat.mod_eq_of_lt hlt]
    have hleft := dvd_left (by omega) (by omega) hr (hsplit ▸ hdvd)
    obtain ⟨hletters, htight, hfits, hfield⟩ :=
      ih (m := m - l) (by omega) (by rw [hrest]; exact hleft.1) (by omega)
    rw [hword]
    generalize unpackLoop fuel (BitVec.ofNat 32 (r * 2 ^ l)) = w at *
    rw [hrest] at hfield
    have hwide : field (32 - l) (codeBits w) = r := by
      have hadd := (hfits.mono (show m - l ≤ 32 - l by omega)).field_add l
      rw [Nat.sub_add_cancel (by omega), hfield] at hadd
      exact (Nat.mul_right_cancel (by positivity) hadd).symm
    refine ⟨List.forall_mem_cons.mpr ⟨hmem, hletters⟩, ?_, ?_, ?_⟩
    · by_cases hw : w = []
      · subst hw
        intro hspace
        obtain rfl : c = ' ' := by simpa [Tight] using hspace
        have hk0 : k = 0 := hidx.symm
        have hr0 : r = 0 := by simpa using hwide.symm
        have hcn0 : cn = 0 := by rw [← hcn, hk0]; rfl
        rw [hr0, hcn0] at hsplit
        exact hne (BitVec.eq_of_toNat_eq (by simpa using hsplit))
      · exact (tight_cons_iff hw).mpr htight
    · rw [fits_codeBits_cons, hidx, hl, hcn]
      refine ⟨?_, hfits⟩
      by_cases hml : l ≤ m
      · exact fits_of_length_le (by simpa using hml)
      · rw [fits_bits_iff (by omega) hnum]
        rw [hsplit, hleft.2 (by omega), Nat.add_zero,
          show 32 - m = l - m + (32 - l) by omega, pow_add] at hdvd
        exact Nat.dvd_of_mul_dvd_mul_right (by positivity) hdvd
    · rw [field_codeBits_cons hmem (by rw [hidx, hl]; omega), hidx, hl, hcn, hwide, hsplit]

theorem cellText_unpack (c : Cell) : CellText (unpack c) ∧
    field 28 (codeBits (unpack c)) = c.toNat / 16 := by
  have hname := toNat_name c
  have hdvd : 2 ^ (32 - 28) ∣ (c &&& ~~~0xf#32).toNat := by
    rw [hname]
    exact Nat.dvd_mul_left _ _
  obtain ⟨hletters, htight, hfits, hfield⟩ :=
    unpackLoop_spec (le_refl 28) hdvd (show 28 ≤ 4 * 8 by decide)
  have hwide : field 32 _ = field 28 _ * 2 ^ 4 := hfits.field_add 4
  rw [hname] at hfield
  exact ⟨⟨hletters, htight, hfits⟩, by unfold unpack; omega⟩

/-- A cell is its text and its tag. -/
theorem nameCell_unpack (c : Cell) : nameCell (unpack c) (c.toNat % 16) = c := by
  apply BitVec.eq_of_toNat_eq
  rw [toNat_nameCell (Nat.mod_lt _ (by decide)), (cellText_unpack c).2]
  omega

theorem unpack_eq_nil_iff (c : Cell) : unpack c = [] ↔ c.toNat / 16 = 0 := by
  obtain ⟨htext, hfield⟩ := cellText_unpack c
  rw [← hfield]
  constructor
  · intro h
    rw [h]
    rfl
  · intro h
    rw [htext.fits.field_eq_zero_iff, codeBits_zero_iff htext.letters] at h
    match hw : unpack c with
    | [] => rfl
    | d :: w =>
      rw [hw] at h htext
      exact absurd h htext.tight.not_blank

end decoding

section joined

variable {g t w : List Char}

theorem CellText.nil : CellText [] :=
  ⟨by simp, by simp [Tight], fits_of_length_le (Nat.zero_le _)⟩

/-- A text that ends a cell's text can stand in a cell of its own. -/
theorem CellText.of_cons {c : Char} (h : CellText (c :: w)) : CellText w where
  letters x hx := h.letters x (List.mem_cons_of_mem _ hx)
  tight := h.tight.of_cons
  fits := (fits_codeBits_cons.mp h.fits).2.mono (Nat.sub_le ..)

theorem CellText.not_blank (h : CellText w) (hne : w ≠ []) : ¬ Blank w := by
  obtain ⟨c, v, rfl⟩ := List.exists_cons_of_ne_nil hne
  exact h.tight.not_blank

theorem CellText.append_right (h : CellText (g ++ w)) : CellText w := by
  induction g with
  | nil => exact h
  | cons c g ih => exact ih h.of_cons

/-- A cell has room for the next character of its text. -/
theorem CellText.room {c : Char} (h : CellText (g ++ c :: w)) : (codeBits g).length < 28 := by
  by_contra hfull
  have hrest := (fits_append_iff.mp (codeBits_append g (c :: w) ▸ h.fits)).2
  have htext := h.append_right
  rw [Nat.sub_eq_zero_of_le (Nat.le_of_not_lt hfull)] at hrest
  exact htext.tight.not_blank ((codeBits_zero_iff htext.letters).mp hrest)

/-- Characters that the encoder puts into one cell: there is a bit left before the last of them. -/
structure BegunCell (g : List Char) : Prop where
  letters : ∀ c ∈ g, c ∈ code
  fits : Fits 28 (codeBits g)
  room : (codeBits g.dropLast).length < 28

theorem CellText.begun (h : CellText w) : BegunCell w where
  letters := h.letters
  fits := h.fits
  room := by
    obtain rfl | ⟨v, c, rfl⟩ := w.eq_nil_or_concat'
    · decide
    · rw [List.dropLast_concat]
      exact h.room

/-- The characters of one cell stay together. -/
theorem cutCells_begun (h : BegunCell (g ++ t)) (rest : List Char) :
    cutCells g (t ++ rest) = cutCells (g ++ t) rest := by
  induction t generalizing g with
  | nil => rw [List.append_nil, List.nil_append]
  | cons c t ih =>
    have hc : c ∈ code := h.letters c (by simp)
    have hroom : (codeBits g).length < 28 := by
      have hbefore := h.room
      rw [List.dropLast_append_of_ne_nil (List.cons_ne_nil c t), codeBits_append,
        List.length_append] at hbefore
      omega
    have hjoin : g ++ c :: t = g ++ [c] ++ t := by simp
    rw [hjoin] at h
    rw [List.cons_append, cutCells, if_neg fun hfull => absurd hfull.1 (Nat.not_le_of_lt hroom),
      if_neg (not_not.mpr hc), if_pos ⟨hroom, fits_of_append h.fits⟩, ih h, hjoin]

theorem cutCells_join (h : CellText (g ++ t)) (rest : List Char) :
    cutCells g (t ++ rest) = cutCells (g ++ t) rest := cutCells_begun h.begun rest

/-- The text of a further cell is added to the cell begun, up to where it does not fit; from
there on it begins the next cell. -/
theorem cutCells_append (hg : ¬ Blank g) (ht : CellText t) (rest : List Char) :
    cutCells g (t ++ rest) = cutCells (g ++ t) rest ∨
      ∃ u v, t = u ++ v ∧ v ≠ [] ∧
        cutCells g (t ++ rest) = (cutCells v rest).bind fun gs => .done ((g ++ u) :: gs) := by
  induction t generalizing g with
  | nil => exact .inl (by rw [List.append_nil, List.nil_append])
  | cons c t ih =>
    have hc : c ∈ code := ht.letters c List.mem_cons_self
    by_cases hjoin : (codeBits g).length < 28 ∧ Fits 28 (codeBits (g ++ [c]))
    · have hstep : cutCells g (c :: t ++ rest) = cutCells (g ++ [c]) (t ++ rest) := by
        rw [List.cons_append, cutCells, if_neg fun hfull => hg hfull.2, if_neg (not_not.mpr hc),
          if_pos hjoin]
      have hg' : ¬ Blank (g ++ [c]) := fun h => hg fun x hx => h x (List.mem_append_left _ hx)
      rcases ih hg' ht.of_cons with h | ⟨u, v, rfl, hv, h⟩
      · exact .inl (by rw [hstep, h, List.append_assoc, List.singleton_append])
      · refine .inr ⟨c :: u, v, rfl, hv, ?_⟩
        rw [hstep, h, List.append_assoc, List.singleton_append]
    · refine .inr ⟨[], c :: t, rfl, List.cons_ne_nil c t, ?_⟩
      have hnext : cutCells [c] (t ++ rest) = cutCells (c :: t) rest :=
        cutCells_join (g := [c]) ht rest
      rw [List.cons_append, cutCells, if_neg fun hfull => hg hfull.2, if_neg (not_not.mpr hc),
        if_neg hjoin, hnext, List.append_nil]

/-- What the encoder makes of the texts of several cells, joined: not more cells. -/
structure Recut (texts groups : List (List Char)) : Prop where
  flatten : groups.flatten = texts.flatten
  length : groups.length ≤ texts.countP (· ≠ [])
  letters : ∀ g ∈ groups, ∀ c ∈ g, c ∈ code
  fits : ∀ g ∈ groups, Fits 28 (codeBits g)

theorem isCell_of_cutCells {gs : List (List Char)} (h : cutCells g w = .done gs)
    (hletters : ∀ c ∈ g, c ∈ code) (hfits : Fits 28 (codeBits g)) :
    ∀ x ∈ gs, (∀ c ∈ x, c ∈ code) ∧ Fits 28 (codeBits x) := by
  induction w generalizing g gs with
  | nil =>
    obtain rfl := Outcome.done.inj h
    by_cases hblank : Blank g
    · simp [hblank]
    · simpa [hblank] using ⟨hletters, hfits⟩
  | cons c w ih =>
    rw [cutCells] at h
    split_ifs at h with hfull hc hjoin
    · refine ih h (fun x hx => ?_) hjoin.2
      rcases List.mem_append.mp hx with hx | hx
      · exact hletters x hx
      · rw [List.mem_singleton.mp hx]
        exact hc
    · obtain ⟨rest, hrest, heq⟩ := Outcome.bind_eq_done h
      obtain rfl := Outcome.done.inj heq
      exact List.forall_mem_cons.mpr ⟨⟨hletters, hfits⟩,
        ih hrest (by simpa using hc) (fits_single_code hc)⟩

theorem cutCells_flatten {ts : List (List Char)} (hg : ¬ Blank g) (hts : ∀ t ∈ ts, CellText t) :
    ∃ gs, cutCells g ts.flatten = .done gs ∧ gs.flatten = g ++ ts.flatten ∧
      gs.length ≤ ts.countP (· ≠ []) + 1 := by
  induction ts generalizing g with
  | nil => exact ⟨[g], by simp [cutCells, hg], by simp, by simp⟩
  | cons t ts ih =>
    have ht := hts t List.mem_cons_self
    have hts' : ∀ t ∈ ts, CellText t := fun x hx => hts x (List.mem_cons_of_mem _ hx)
    have hcount : ts.countP (· ≠ []) ≤ (t :: ts).countP (· ≠ []) := by
      rw [List.countP_cons]
      exact Nat.le_add_right ..
    rw [List.flatten_cons]
    rcases cutCells_append hg ht ts.flatten with h | ⟨u, v, rfl, hv, h⟩
    · have hg' : ¬ Blank (g ++ t) := fun hblank => hg fun x hx =>
        hblank x (List.mem_append_left _ hx)
      obtain ⟨gs, hgs, hflat, hlen⟩ := ih hg' hts'
      exact ⟨gs, h.trans hgs, by rw [hflat, List.append_assoc], by omega⟩
    · obtain ⟨gs, hgs, hflat, hlen⟩ := ih (ht.append_right.not_blank hv) hts'
      have hcons : ((u ++ v) :: ts).countP (· ≠ []) = ts.countP (· ≠ []) + 1 := by
        rw [List.countP_cons_of_pos (by simp [hv])]
      refine ⟨(g ++ u) :: gs, by rw [h, hgs]; rfl, ?_, ?_⟩
      · simp only [List.flatten_cons, hflat, List.append_assoc]
      · rw [List.length_cons, hcons]
        omega

theorem exists_recut {texts : List (List Char)} (htexts : ∀ t ∈ texts, CellText t) :
    ∃ groups, cutCells [] texts.flatten = .done groups ∧ Recut texts groups := by
  have hcut : ∃ groups, cutCells [] texts.flatten = .done groups ∧
      groups.flatten = texts.flatten ∧ groups.length ≤ texts.countP (· ≠ []) := by
    induction texts with
    | nil => exact ⟨[], rfl, rfl, Nat.zero_le _⟩
    | cons t ts ih =>
      have ht := htexts t List.mem_cons_self
      have hts : ∀ t ∈ ts, CellText t := fun x hx => htexts x (List.mem_cons_of_mem _ hx)
      by_cases hne : t = []
      · subst hne
        simpa using ih hts
      · obtain ⟨gs, hgs, hflat, hlen⟩ := cutCells_flatten (ht.not_blank hne) hts
        have hjoin : cutCells [] (t ++ ts.flatten) = cutCells t ts.flatten :=
          cutCells_join (g := []) ht ts.flatten
        refine ⟨gs, by rw [List.flatten_cons, hjoin, hgs], by rw [hflat, List.flatten_cons], ?_⟩
        rwa [List.countP_cons_of_pos (by simp [hne])]
  obtain ⟨groups, hgroups, hflat, hlen⟩ := hcut
  have hcell := isCell_of_cutCells hgroups (by simp) (fits_of_length_le (Nat.zero_le _))
  exact ⟨groups, hgroups, hflat, hlen, fun g hg => (hcell g hg).1, fun g hg => (hcell g hg).2⟩

/-- The encoder keeps what a cell shows, and may add spaces to it. -/
theorem exists_spaces (hg : ∀ c ∈ g, c ∈ code) (hfits : Fits 28 (codeBits g)) {tag : ℕ}
    (htag : tag < 16) : ∃ k, g = unpack (nameCell g tag) ++ List.replicate k ' ' := by
  induction g using List.reverseRecOn with
  | nil => exact ⟨0, by rw [unpack_textCell hg CellText.nil.tight hfits htag]; rfl⟩
  | append_singleton g c ih =>
    by_cases hc : c = ' '
    · subst hc
      have hzeros : ∀ b ∈ codeBits [' '], b = false := by decide
      have hcell : nameCell (g ++ [' ']) tag = nameCell g tag := by
        rw [nameCell, codeBits_append, field_append_zeros _ _ hzeros, nameCell]
      obtain ⟨k, hk⟩ := ih (fun x hx => hg x (List.mem_append_left _ hx)) (fits_of_append hfits)
      exact ⟨k + 1, by rw [hcell, List.replicate_succ', ← List.append_assoc, ← hk]⟩
    · have htight : Tight (g ++ [c]) := by simpa [Tight] using hc
      exact ⟨0, by rw [unpack_textCell hg htight hfits htag, List.replicate_zero, List.append_nil]⟩

theorem unpack_nameCell_tag {tag : ℕ} (htag : tag < 16) :
    unpack (nameCell g tag) = unpack (nameCell g 0) := by
  rw [unpack, unpack, name_nameCell htag, name_nameCell (by decide)]

theorem unpack_groupCells {tag : ℕ} (htag : tag < 16) (extensionMode : Bool)
    (groups : List (List Char)) :
    (groupCells tag extensionMode groups).map unpack =
      groups.map fun g => unpack (nameCell g 0) := by
  induction groups generalizing extensionMode with
  | nil => rfl
  | cons g gs ih =>
    rw [groupCells, List.map_cons, List.map_cons, ih,
      unpack_nameCell_tag (by split_ifs <;> omega)]

/-- Shorter pieces do not make up for what one of them lacks. -/
theorem map_eq_of_flatten {f : List Char → List Char} {groups : List (List Char)}
    (hf : ∀ g ∈ groups, ∃ v, g = f g ++ v)
    (h : groups.flatten.length ≤ (groups.map f).flatten.length) : groups.map f = groups := by
  have hle : ∀ gs : List (List Char), (∀ g ∈ gs, ∃ v, g = f g ++ v) →
      (gs.map f).flatten.length ≤ gs.flatten.length := by
    intro gs hgs
    induction gs with
    | nil => exact le_rfl
    | cons g gs ih =>
      obtain ⟨v, hv⟩ := hgs g List.mem_cons_self
      have hlen := congrArg List.length hv
      have hrest := ih fun x hx => hgs x (List.mem_cons_of_mem _ hx)
      simp only [List.map_cons, List.flatten_cons, List.length_append] at hlen ⊢
      omega
  induction groups with
  | nil => rfl
  | cons g gs ih =>
    obtain ⟨v, hv⟩ := hf g List.mem_cons_self
    have hgs := fun x hx => hf x (List.mem_cons_of_mem g hx)
    have hrest := hle gs hgs
    have hlen := congrArg List.length hv
    simp only [List.map_cons, List.flatten_cons, List.length_append] at h hlen ⊢
    have hv0 : v = [] := List.length_eq_zero_iff.mp (by omega)
    rw [ih hgs (by omega)]
    rw [hv0, List.append_nil] at hv
    rw [← hv]

/-- No room is left after `g` for the first character of the next text. -/
def Full (g next : List Char) : Prop :=
  ∀ c ∈ next.head?, ¬ ((codeBits g).length < 28 ∧ Fits 28 (codeBits (g ++ [c])))

/-- The texts of the cells of a word, each of which holds as much as there is room for. -/
structure Readable (groups : List (List Char)) : Prop where
  nonempty : groups ≠ []
  letters : ∀ g ∈ groups, g ≠ []
  texts : ∀ g ∈ groups, CellText g
  full : groups.IsChain Full

/-- The encoder leaves no room. -/
theorem isChain_of_cutCells {gs : List (List Char)} (hne : g ≠ []) (h : cutCells g w = .done gs) :
    (∀ x ∈ gs.head?, g <+: x) ∧ (∀ x ∈ gs, x ≠ []) ∧ gs.IsChain Full := by
  induction w generalizing g gs with
  | nil =>
    obtain rfl := Outcome.done.inj h
    by_cases hblank : Blank g
    · simp [hblank]
    · simpa [hblank] using hne
  | cons c w ih =>
    rw [cutCells] at h
    split_ifs at h with hspin hc hjoin
    · obtain ⟨hhead, hrest⟩ := ih (by simp) h
      exact ⟨fun x hx => (List.prefix_append g [c]).trans (hhead x hx), hrest⟩
    · obtain ⟨rest, hrest, heq⟩ := Outcome.bind_eq_done h
      obtain rfl := Outcome.done.inj heq
      obtain ⟨hhead, hletters, hchain⟩ := ih (by simp) hrest
      refine ⟨by simp, List.forall_mem_cons.mpr ⟨hne, hletters⟩,
        List.isChain_cons.mpr ⟨fun x hx d hd => ?_, hchain⟩⟩
      obtain ⟨t, rfl⟩ := hhead x hx
      obtain rfl : c = d := by simpa using hd
      exact hjoin

theorem Readable.flatten_ne_nil {groups : List (List Char)} (h : Readable groups) :
    groups.flatten ≠ [] := by
  obtain ⟨g, gs, rfl⟩ := List.exists_cons_of_ne_nil h.nonempty
  have hg := h.letters g List.mem_cons_self
  simp [hg]

/-- The encoder divides the text of a word into the texts of its cells again. -/
theorem Readable.cut {groups : List (List Char)} (h : Readable groups) :
    cutCells [] groups.flatten = .done groups := by
  obtain ⟨hne, hletters, htexts, hfull⟩ := h
  induction groups with
  | nil => exact absurd rfl hne
  | cons g gs ih =>
    have hg := hletters g List.mem_cons_self
    have htext := htexts g List.mem_cons_self
    have hblank := htext.not_blank hg
    have hjoin : cutCells [] (g ++ gs.flatten) = cutCells g gs.flatten :=
      cutCells_join (g := []) htext gs.flatten
    rw [List.flatten_cons, hjoin]
    cases gs with
    | nil => simp [cutCells, hblank]
    | cons g' gs =>
      have hrest := ih (List.cons_ne_nil g' gs) (fun x hx => hletters x (List.mem_cons_of_mem g hx))
        (fun x hx => htexts x (List.mem_cons_of_mem g hx)) hfull.tail
      obtain ⟨c, t, rfl⟩ := List.exists_cons_of_ne_nil (hletters g' (by simp))
      have hc : c ∈ code := (htexts (c :: t) (by simp)).letters c List.mem_cons_self
      have hroom := (List.isChain_cons.mp hfull).1 (c :: t) rfl c rfl
      rw [List.flatten_cons, List.cons_append, cutCells_nil_cons, if_neg (not_not.mpr hc)] at hrest
      rw [List.flatten_cons, List.cons_append, cutCells, if_neg fun hspin => hblank hspin.2,
        if_neg (not_not.mpr hc), if_neg hroom, hrest]
      rfl

theorem Readable.unpack_cells {groups : List (List Char)} (h : Readable groups) {tag : ℕ}
    (htag : tag < 16) (extensionMode : Bool) :
    (groupCells tag extensionMode groups).map unpack = groups := by
  rw [unpack_groupCells htag]
  refine (List.map_congr_left fun g hg => ?_).trans (List.map_id _)
  have htext := h.texts g hg
  exact unpack_textCell htext.letters htext.tight htext.fits (by decide)

theorem map_unpack_zeros (k : ℕ) : ((List.replicate k (0 : Cell)).map unpack).flatten = [] := by
  have hzero : unpack 0 = [] := by decide
  rw [List.map_replicate, hzero]
  simp

/-- If the encoder gives the cells back that the text was read from, with zeros after them, the
text is readable. -/
theorem readable_of_recut {cells : List Cell} {groups : List (List Char)} {tag k : ℕ}
    (htag : tag < 16) (hne : (cells.map unpack).flatten ≠ [])
    (hcut : cutCells [] (cells.map unpack).flatten = .done groups)
    (hrecut : Recut (cells.map unpack) groups)
    (hcells : cells = groupCells tag false groups ++ List.replicate k 0) : Readable groups := by
  have hflat : (groups.map fun g => unpack (nameCell g 0)).flatten = groups.flatten := by
    rw [hrecut.flatten, hcells, List.map_append, List.flatten_append, map_unpack_zeros,
      List.append_nil, unpack_groupCells htag]
  have hmap := map_eq_of_flatten (fun g hg => by
    obtain ⟨k, hk⟩ := exists_spaces (hrecut.letters g hg) (hrecut.fits g hg)
      (show 0 < 16 by decide)
    exact ⟨_, hk⟩) (by rw [hflat])
  have hletters : groups ≠ [] ∧ (∀ g ∈ groups, g ≠ []) ∧ groups.IsChain Full := by
    rw [← hrecut.flatten] at hne hcut
    obtain ⟨c, w, hw⟩ := List.exists_cons_of_ne_nil hne
    have hc : c ∈ code := by
      obtain ⟨g, hg, hcg⟩ := List.mem_flatten.mp (show c ∈ groups.flatten by rw [hw]; simp)
      exact hrecut.letters g hg c hcg
    rw [hw, cutCells_nil_cons, if_neg (not_not.mpr hc)] at hcut
    refine ⟨?_, (isChain_of_cutCells (by simp) hcut).2⟩
    rintro rfl
    exact hne rfl
  refine ⟨hletters.1, hletters.2.1, fun g hg => ?_, hletters.2.2⟩
  have hself : unpack (nameCell g 0) = g := by
    rw [← List.map_id groups, List.map_map] at hmap
    exact List.map_eq_map_iff.mp hmap g hg
  exact hself ▸ (cellText_unpack (nameCell g 0)).1

end joined

end Einherjar.Colorforth
