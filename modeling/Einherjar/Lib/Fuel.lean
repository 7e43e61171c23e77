import Mathlib.Order.Monotone.Basic

/-! Computations that may stop without a result or run on for ever. A computation is
approximated by running it with more and more fuel. -/
namespace Einherjar.Lib

variable {σ τ α : Type*}

/-- What a computation with some fuel has come to. -/
inductive Outcome (σ : Type*) where
  /-- It has returned. -/
  | done (s : σ)
  /-- It has stopped for good without returning. -/
  | stopped
  /-- It needs more fuel. -/
  | outOfFuel
  deriving DecidableEq

namespace Outcome

def bind (x : Outcome σ) (f : σ → Outcome τ) : Outcome τ :=
  match x with
  | done s => f s
  | stopped => stopped
  | outOfFuel => outOfFuel

@[simp] theorem done_bind (s : σ) (f : σ → Outcome τ) : (done s).bind f = f s := rfl

@[simp] theorem stopped_bind (f : σ → Outcome τ) : (stopped : Outcome σ).bind f = stopped := rfl

@[simp] theorem bind_done (x : Outcome σ) : x.bind done = x := by cases x <;> rfl

theorem bind_assoc {ρ : Type*} (x : Outcome σ) (f : σ → Outcome τ) (g : τ → Outcome ρ) :
    (x.bind f).bind g = x.bind fun s => (f s).bind g := by cases x <;> rfl

theorem bind_eq_done {x : Outcome σ} {f : σ → Outcome τ} {t : τ} (h : x.bind f = done t) :
    ∃ s, x = done s ∧ f s = done t := by
  cases x with
  | done s => exact ⟨s, rfl, h⟩
  | stopped => cases h
  | outOfFuel => cases h

/-- `x ≤ y`: `y` is what `x` comes to with more fuel. -/
instance : PartialOrder (Outcome σ) where
  le x y := x = outOfFuel ∨ x = y
  le_refl _ := .inr rfl
  le_trans x y z hxy hyz := by
    rcases hxy with hx | rfl
    · exact .inl hx
    · exact hyz
  le_antisymm x y hxy hyx := by
    rcases hxy with hx | hx
    · rcases hyx with hy | hy
      · rw [hx, hy]
      · exact hy.symm
    · exact hx

theorem outOfFuel_le (x : Outcome σ) : outOfFuel ≤ x := .inl rfl

theorem eq_done_of_le {x y : Outcome σ} {s : σ} (h : x ≤ y) (hx : x = done s) : y = done s := by
  rcases h with h | h
  · rw [hx] at h
    cases h
  · rw [← h, hx]

theorem bind_mono {x y : Outcome σ} {f g : σ → Outcome τ} (hxy : x ≤ y)
    (hfg : ∀ s, f s ≤ g s) : x.bind f ≤ y.bind g := by
  rcases hxy with rfl | rfl
  · exact outOfFuel_le _
  · cases x with
    | done s => exact hfg s
    | stopped => exact le_rfl
    | outOfFuel => exact le_rfl

/-- More fuel does not change the result. -/
theorem result_unique {f : ℕ → Outcome σ} (hf : Monotone f) {m n : ℕ} {s t : σ}
    (hm : f m = done s) (hn : f n = done t) : s = t := by
  have hs := eq_done_of_le (hf (le_max_left m n)) hm
  have ht := eq_done_of_le (hf (le_max_right m n)) hn
  rw [hs] at ht
  exact Outcome.done.inj ht

section limit

open Classical in
/-- What a computation comes to with as much fuel as it takes. -/
noncomputable def limit (f : ℕ → Outcome σ) : Outcome σ :=
  if h : ∃ n, f n ≠ outOfFuel then f h.choose else outOfFuel

variable {f : ℕ → Outcome σ}

theorem limit_eq_of_ne (hf : Monotone f) {n : ℕ} (hn : f n ≠ outOfFuel) : limit f = f n := by
  have h : ∃ n, f n ≠ outOfFuel := ⟨n, hn⟩
  have hlimit : limit f = f h.choose := dif_pos h
  rw [hlimit]
  rcases le_total h.choose n with hle | hle
  · exact (hf hle).resolve_left h.choose_spec
  · exact ((hf hle).resolve_left hn).symm

theorem limit_eq_outOfFuel_iff : limit f = outOfFuel ↔ ∀ n, f n = outOfFuel := by
  constructor
  · intro h n
    by_contra hn
    have hex : ∃ n, f n ≠ outOfFuel := ⟨n, hn⟩
    rw [limit, dif_pos hex] at h
    exact hex.choose_spec h
  · intro h
    exact dif_neg fun ⟨n, hn⟩ => hn (h n)

theorem exists_eq_limit (f : ℕ → Outcome σ) : ∃ n, f n = limit f := by
  by_cases h : ∃ n, f n ≠ outOfFuel
  · have hlimit : limit f = f h.choose := dif_pos h
    exact ⟨h.choose, hlimit.symm⟩
  · push Not at h
    exact ⟨0, by rw [h 0, limit_eq_outOfFuel_iff.mpr h]⟩

theorem limit_eq_iff (hf : Monotone f) {x : Outcome σ} (hx : x ≠ outOfFuel) :
    limit f = x ↔ ∃ n, f n = x := by
  constructor
  · intro h
    obtain ⟨n, hn⟩ := exists_eq_limit f
    exact ⟨n, hn.trans h⟩
  · rintro ⟨n, rfl⟩
    exact limit_eq_of_ne hf hx

theorem limit_eq_done_iff (hf : Monotone f) {s : σ} : limit f = done s ↔ ∃ n, f n = done s :=
  limit_eq_iff hf (by simp)

theorem limit_eq_stopped_iff (hf : Monotone f) : limit f = stopped ↔ ∃ n, f n = stopped :=
  limit_eq_iff hf (by simp)

@[simp] theorem limit_const (x : Outcome σ) : (limit fun _ => x) = x := by
  obtain ⟨n, hn⟩ := exists_eq_limit fun _ : ℕ => x
  exact hn.symm

theorem le_limit (hf : Monotone f) (n : ℕ) : f n ≤ limit f := by
  by_cases hn : f n = outOfFuel
  · exact .inl hn
  · exact .inr (limit_eq_of_ne hf hn).symm

theorem ne_stopped_of_done (hf : Monotone f) {m : ℕ} {s : σ} (hm : f m = done s) (n : ℕ) :
    f n ≠ stopped := by
  intro hn
  have hdone := (limit_eq_done_iff hf).mpr ⟨m, hm⟩
  rw [(limit_eq_stopped_iff hf).mpr ⟨n, hn⟩] at hdone
  cases hdone

theorem limit_le {x : Outcome σ} (h : ∀ n, f n ≤ x) : limit f ≤ x := by
  obtain ⟨n, hn⟩ := exists_eq_limit f
  exact hn ▸ h n

/-- The fuel that the first step of a loop uses up does not matter. -/
theorem limit_succ (hf : Monotone f) : (limit fun n => f (n + 1)) = limit f := by
  have hsucc : Monotone fun n => f (n + 1) := fun a b hab => hf (Nat.succ_le_succ hab)
  apply le_antisymm
  · exact limit_le fun n => le_limit hf (n + 1)
  · exact limit_le fun n => (hf (Nat.le_succ n)).trans (le_limit hsucc n)

/-- Two computations one after the other, each with as much fuel as it takes. -/
theorem limit_bind (hf : Monotone f) {g : ℕ → σ → Outcome τ} (hg : ∀ s, Monotone fun n => g n s) :
    (limit fun n => (f n).bind (g n)) = (limit f).bind fun s => limit fun n => g n s := by
  have hmono : Monotone fun n => (f n).bind (g n) := fun a b hab =>
    bind_mono (hf hab) fun s => hg s hab
  apply le_antisymm
  · exact limit_le fun n => bind_mono (le_limit hf n) fun s => le_limit (hg s) n
  · obtain ⟨m, hm⟩ := exists_eq_limit f
    cases hlimit : limit f with
    | outOfFuel => exact outOfFuel_le _
    | stopped =>
      refine le_trans ?_ (le_limit hmono m)
      simp only [hm, hlimit]
      exact le_rfl
    | done s =>
      refine limit_le fun n => le_trans ?_ (le_limit hmono (max m n))
      have hdone : f (max m n) = done s :=
        eq_done_of_le (hf (le_max_left m n)) (hm.trans hlimit)
      simp only [hdone, done_bind]
      exact hg s (le_max_right m n)

end limit

/-- The elements of a list are processed in order, until one of them does not return. -/
def forEach (f : α → σ → Outcome σ) : List α → σ → Outcome σ
  | [], s => done s
  | a :: as, s => (f a s).bind (forEach f as)

theorem forEach_mono {f g : α → σ → Outcome σ} (hfg : ∀ a s, f a s ≤ g a s) (as : List α)
    (s : σ) : forEach f as s ≤ forEach g as s := by
  induction as generalizing s with
  | nil => exact le_rfl
  | cons a as ih => exact bind_mono (hfg a s) ih

theorem forEach_append (f : α → σ → Outcome σ) (as bs : List α) (s : σ) :
    forEach f (as ++ bs) s = (forEach f as s).bind (forEach f bs) := by
  induction as generalizing s with
  | nil => rfl
  | cons a as ih =>
    rw [List.cons_append, forEach, forEach]
    cases f a s with
    | done t => exact ih t
    | stopped => rfl
    | outOfFuel => rfl

/-- The fuel of each element is enough for all of them when it is enough for itself. -/
theorem exists_forEach_cons {f : ℕ → α → σ → Outcome σ} (hf : ∀ a s, Monotone fun n => f n a s)
    {a : α} {as : List α} {s t : σ} : (∃ n, forEach (f n) (a :: as) s = done t) ↔
      ∃ u, (∃ n, f n a s = done u) ∧ ∃ n, forEach (f n) as u = done t := by
  constructor
  · rintro ⟨n, h⟩
    obtain ⟨u, hu, ht⟩ := bind_eq_done h
    exact ⟨u, ⟨n, hu⟩, n, ht⟩
  · rintro ⟨u, ⟨m, hm⟩, n, hn⟩
    refine ⟨max m n, ?_⟩
    have hhead : f (max m n) a s = done u := eq_done_of_le (hf a s (le_max_left m n)) hm
    rw [forEach, hhead]
    exact eq_done_of_le (forEach_mono (fun a s => hf a s (le_max_right m n)) as u) hn

theorem forEach_done {f : α → σ → Outcome σ} (hf : ∀ a s, f a s = done s) (as : List α) (s : σ) :
    forEach f as s = done s := by
  induction as generalizing s with
  | nil => rfl
  | cons a as ih => rw [forEach, hf, done_bind, ih]

/-- What each element keeps, processing the list keeps. -/
theorem forEach_preserves {f : α → σ → Outcome σ} {r : σ → σ → Prop} (hrefl : ∀ s, r s s)
    (htrans : ∀ s t u, r s t → r t u → r s u) (hf : ∀ a s t, f a s = done t → r s t) {as : List α}
    {s t : σ} (h : forEach f as s = done t) : r s t := by
  induction as generalizing s with
  | nil =>
    cases h
    exact hrefl _
  | cons a as ih =>
    obtain ⟨u, hu, hrest⟩ := bind_eq_done h
    exact htrans s u t (hf a s u hu) (ih hrest)

section related

variable {R : σ → τ → Prop}

/-- Both return, in related states, or neither does, for the same reason. -/
inductive Rel (R : σ → τ → Prop) : Outcome σ → Outcome τ → Prop
  | done {s : σ} {t : τ} (h : R s t) : Rel R (done s) (done t)
  | stopped : Rel R stopped stopped
  | outOfFuel : Rel R outOfFuel outOfFuel

theorem Rel.exists_done {x : Outcome σ} {y : Outcome τ} {s : σ} (h : Rel R x y)
    (hx : x = Outcome.done s) : ∃ t, y = Outcome.done t ∧ R s t := by
  subst hx
  cases h with
  | done h => exact ⟨_, rfl, h⟩

theorem Rel.bind {σ' τ' : Type*} {S : σ' → τ' → Prop} {x : Outcome σ} {y : Outcome τ}
    {f : σ → Outcome σ'} {g : τ → Outcome τ'} (h : Rel R x y)
    (hfg : ∀ s t, R s t → Rel S (f s) (g t)) : Rel S (x.bind f) (y.bind g) := by
  cases h with
  | done h => exact hfg _ _ h
  | stopped => exact .stopped
  | outOfFuel => exact .outOfFuel

theorem Rel.forEach {f : α → σ → Outcome σ} {g : α → τ → Outcome τ}
    (hfg : ∀ a s t, R s t → Rel R (f a s) (g a t)) (as : List α) {s : σ} {t : τ} (h : R s t) :
    Rel R (forEach f as s) (forEach g as t) := by
  induction as generalizing s t with
  | nil => exact .done h
  | cons a as ih => exact (hfg a s t h).bind fun _ _ hst => ih hst

end related

section letters

variable {β : Type*}

/-- A loop that looks up one letter in each iteration: the index of the letter and the next state,
or nothing at its end. An index outside the table stops it. -/
def letterLoop (table : List β) (next : σ → Option (ℕ × σ)) : ℕ → σ → Outcome (List β)
  | 0, _ => outOfFuel
  | fuel + 1, s =>
    match next s with
    | none => done []
    | some (k, t) =>
      match table[k]? with
      | none => stopped
      | some letter => (letterLoop table next fuel t).bind fun text => done (letter :: text)

theorem letterLoop_mono (table : List β) (next : σ → Option (ℕ × σ)) (s : σ) :
    Monotone fun fuel => letterLoop table next fuel s := by
  apply monotone_nat_of_le_succ
  intro n
  induction n generalizing s with
  | zero => exact outOfFuel_le _
  | succ n ih =>
    rw [letterLoop, letterLoop]
    cases next s with
    | none => exact le_rfl
    | some x =>
      obtain ⟨k, t⟩ := x
      cases htable : table[k]? with
      | none => simp only [htable, le_rfl]
      | some letter =>
        simp only [htable]
        exact bind_mono (ih t) fun _ => le_rfl

/-- Loops whose iterations correspond, in the states of an invariant, have the same result. -/
theorem letterLoop_map (table : List β) {next : σ → Option (ℕ × σ)} {next' : τ → Option (ℕ × τ)}
    (r : σ → τ) {I : σ → Prop} (h : ∀ s, I s → (next s).map (Prod.map id r) = next' (r s))
    (hI : ∀ s k t, I s → next s = some (k, t) → I t) (fuel : ℕ) {s : σ} (hs : I s) :
    letterLoop table next fuel s = letterLoop table next' fuel (r s) := by
  induction fuel generalizing s with
  | zero => rfl
  | succ fuel ih =>
    rw [letterLoop, letterLoop, ← h s hs]
    cases hnext : next s with
    | none => rfl
    | some x =>
      obtain ⟨k, t⟩ := x
      simp only [Option.map_some, Prod.map_apply, id_eq, ih (hI s k t hs hnext)]

/-- A loop that comes to its end within `m` iterations, with indices in the table. -/
theorem letterLoop_done (table : List β) {next : σ → Option (ℕ × σ)} {I : ℕ → σ → Prop}
    (hzero : ∀ s, I 0 s → next s = none)
    (hstep : ∀ m s k t, I (m + 1) s → next s = some (k, t) → k < table.length ∧ I m t) {m : ℕ}
    {s : σ} (hs : I m s) :
    ∃ text, text.length ≤ m ∧ ∀ fuel > m, letterLoop table next fuel s = done text := by
  induction m generalizing s with
  | zero =>
    refine ⟨[], le_rfl, fun fuel hfuel => ?_⟩
    obtain ⟨fuel, rfl⟩ := Nat.exists_eq_succ_of_ne_zero (Nat.ne_zero_of_lt hfuel)
    rw [letterLoop, hzero s hs]
  | succ m ih =>
    cases hnext : next s with
    | none =>
      refine ⟨[], Nat.zero_le _, fun fuel hfuel => ?_⟩
      obtain ⟨fuel, rfl⟩ := Nat.exists_eq_succ_of_ne_zero (Nat.ne_zero_of_lt hfuel)
      rw [letterLoop, hnext]
    | some x =>
      obtain ⟨k, t⟩ := x
      obtain ⟨hk, ht⟩ := hstep m s k t hs hnext
      obtain ⟨text, hlen, htext⟩ := ih ht
      refine ⟨table[k] :: text, Nat.succ_le_succ hlen, fun fuel hfuel => ?_⟩
      obtain ⟨fuel, rfl⟩ := Nat.exists_eq_succ_of_ne_zero (Nat.ne_zero_of_lt hfuel)
      rw [letterLoop, hnext]
      simp only [List.getElem?_eq_getElem hk, htext fuel (Nat.lt_of_succ_lt_succ hfuel), done_bind]

end letters

section attempts

variable {f : ℕ → α → σ → Outcome σ}

/-- `Attempts f as s ps`: when `as` is processed in order from the state `s`, with as much fuel
as it takes, the elements taken up are `ps`: all of them, or those up to the first one that
does not return. -/
inductive Attempts (f : ℕ → α → σ → Outcome σ) : List α → σ → List α → Prop
  | nil (s : σ) : Attempts f [] s []
  | returns {a : α} {as ps : List α} {s t : σ} {n : ℕ} (head : f n a s = done t)
      (rest : Attempts f as t ps) : Attempts f (a :: as) s (a :: ps)
  | stuck {a : α} {s : σ} (as : List α) (head : ∀ n t, f n a s ≠ done t) :
      Attempts f (a :: as) s [a]

theorem attempts_cons_iff {a : α} {as ps : List α} {s : σ} :
    Attempts f (a :: as) s (a :: ps) ↔
      (∃ n t, f n a s = done t ∧ Attempts f as t ps) ∨ ps = [] ∧ ∀ n t, f n a s ≠ done t := by
  constructor
  · intro h
    cases h with
    | returns head rest => exact .inl ⟨_, _, head, rest⟩
    | stuck _ head => exact .inr ⟨rfl, head⟩
  · rintro (⟨n, t, head, rest⟩ | ⟨rfl, head⟩)
    · exact .returns head rest
    · exact .stuck as head

theorem attempts_exists (f : ℕ → α → σ → Outcome σ) (as : List α) (s : σ) :
    ∃ ps, Attempts f as s ps := by
  induction as generalizing s with
  | nil => exact ⟨[], .nil s⟩
  | cons a as ih =>
    by_cases h : ∃ n t, f n a s = done t
    · obtain ⟨n, t, hn⟩ := h
      obtain ⟨ps, hps⟩ := ih t
      exact ⟨a :: ps, .returns hn hps⟩
    · exact ⟨[a], .stuck as fun n t hn => h ⟨n, t, hn⟩⟩

theorem Attempts.unique (hf : ∀ a s, Monotone fun n => f n a s) {as ps qs : List α} {s : σ}
    (hp : Attempts f as s ps) (hq : Attempts f as s qs) : ps = qs := by
  induction hp generalizing qs with
  | nil => cases hq; rfl
  | returns head rest ih =>
    cases hq with
    | returns head' rest' =>
      obtain rfl := result_unique (hf _ _) head head'
      rw [ih rest']
    | stuck _ head' => exact absurd head (head' _ _)
  | stuck as head =>
    cases hq with
    | returns head' rest' => exact absurd head' (head _ _)
    | stuck => rfl

theorem Attempts.isPrefix {as ps : List α} {s : σ} (h : Attempts f as s ps) : ps <+: as := by
  induction h with
  | nil => exact List.nil_prefix
  | returns head rest ih => exact (List.prefix_cons_inj _).mpr ih
  | stuck as head => exact (List.prefix_cons_inj _).mpr List.nil_prefix

/-- Every element is taken up exactly when all before the last one return. -/
theorem attempts_all_iff (hf : ∀ a s, Monotone fun n => f n a s) (as : List α) (a : α) (s : σ) :
    Attempts f (as ++ [a]) s (as ++ [a]) ↔ ∃ n t, forEach (f n) as s = done t := by
  induction as generalizing s with
  | nil =>
    refine iff_of_true ?_ ⟨0, s, rfl⟩
    obtain ⟨ps, hps⟩ := attempts_exists f [a] s
    cases hps with
    | returns head rest => exact .returns head (.nil _)
    | stuck _ head => exact .stuck [] head
  | cons b as ih =>
    rw [List.cons_append, attempts_cons_iff]
    constructor
    · intro h
      rcases h with ⟨m, t, head, rest⟩ | ⟨hnil, -⟩
      · obtain ⟨n, u, hn⟩ := (ih t).mp rest
        have hb : f (max m n) b s = done t := eq_done_of_le (hf b s (le_max_left m n)) head
        have has := forEach_mono (fun a s => hf a s (le_max_right m n)) as t
        refine ⟨max m n, u, ?_⟩
        rw [forEach, hb]
        exact eq_done_of_le has hn
      · simp at hnil
    · intro hs
      obtain ⟨n, u, h⟩ := hs
      obtain ⟨t, head, rest⟩ := bind_eq_done h
      exact .inl ⟨n, t, head, (ih t).mpr ⟨n, u, rest⟩⟩

end attempts

end Outcome

end Einherjar.Lib
