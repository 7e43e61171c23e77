import Einherjar.Lib.Fuel
import Mathlib.Data.List.Forall2

/-! Computations that record events on their way, and two ways to reason about all of them: two
conditions on the events that come to the same, and a computation that follows another. -/
namespace Einherjar.Lib

variable {ε η σ τ ρ α : Type*}

/-- A computation with the events on the way to its outcome. -/
structure Traced (ε σ : Type*) where
  events : List ε
  outcome : Outcome σ

namespace Traced

/-- A computation without events. -/
def quiet (x : Outcome σ) : Traced ε σ := ⟨[], x⟩

def bind (x : Traced ε σ) (f : σ → Traced ε τ) : Traced ε τ :=
  match x.outcome with
  | .done s => ⟨x.events ++ (f s).events, (f s).outcome⟩
  | .stopped => ⟨x.events, .stopped⟩
  | .outOfFuel => ⟨x.events, .outOfFuel⟩

/-- The event `e`, and then `x`. -/
def after (e : ε) (x : Traced ε σ) : Traced ε σ := ⟨e :: x.events, x.outcome⟩

def forEach (f : α → σ → Traced ε σ) : List α → σ → Traced ε σ
  | [], s => quiet (.done s)
  | a :: as, s => (f a s).bind (forEach f as)

@[simp] theorem outcome_quiet (x : Outcome σ) : (quiet x : Traced ε σ).outcome = x := rfl

@[simp] theorem outcome_after (e : ε) (x : Traced ε σ) : (after e x).outcome = x.outcome := rfl

@[simp] theorem outcome_bind (x : Traced ε σ) (f : σ → Traced ε τ) :
    (x.bind f).outcome = x.outcome.bind fun s => (f s).outcome := by
  unfold bind
  cases x.outcome <;> rfl

@[simp] theorem outcome_forEach (f : α → σ → Traced ε σ) (as : List α) (s : σ) :
    (forEach f as s).outcome = Outcome.forEach (fun a s => (f a s).outcome) as s := by
  induction as generalizing s with
  | nil => rfl
  | cons a as ih => simp only [forEach, outcome_bind, Outcome.forEach, ih]

@[simp] theorem after_bind (e : ε) (x : Traced ε σ) (f : σ → Traced ε τ) :
    (after e x).bind f = after e (x.bind f) := by
  unfold bind after
  cases x.outcome <;> rfl

@[simp] theorem quiet_done_bind (s : σ) (f : σ → Traced ε τ) : (quiet (.done s)).bind f = f s := rfl

theorem bind_assoc (x : Traced ε σ) (f : σ → Traced ε τ) (g : τ → Traced ε ρ) :
    (x.bind f).bind g = x.bind fun s => (f s).bind g := by
  unfold bind
  cases x.outcome with
  | done s => cases hf : (f s).outcome <;> simp [hf]
  | stopped => rfl
  | outOfFuel => rfl

/-- Every event satisfies `p`. -/
def All (p : ε → Prop) (x : Traced ε σ) : Prop := ∀ e ∈ x.events, p e

section conditions

variable {p q : ε → Prop} {x : Traced ε σ} {f : σ → Traced ε τ}

@[simp] theorem all_quiet (y : Outcome σ) : (quiet y : Traced ε σ).All p :=
  fun _ he => absurd he List.not_mem_nil

@[simp] theorem all_after {e : ε} : (after e x).All p ↔ p e ∧ x.All p := List.forall_mem_cons

theorem all_bind : (x.bind f).All p ↔ x.All p ∧ ∀ s, x.outcome = .done s → (f s).All p := by
  unfold bind All
  cases hx : x.outcome with
  | done s => simp [or_imp, forall_and]
  | stopped => simp
  | outOfFuel => simp

/-- The conditions `p` and `q` on the events come to the same, and under them the computation
returns in states of `I`. -/
structure Agree (p q : ε → Prop) (I : σ → Prop) (x : Traced ε σ) : Prop where
  iff : x.All p ↔ x.All q
  returns : x.All p → ∀ s, x.outcome = .done s → I s

variable {I : σ → Prop} {J : τ → Prop}

theorem Agree.quiet {y : Outcome σ} (hy : ∀ s, y = .done s → I s) : Agree p q I (quiet y) :=
  ⟨iff_of_true (all_quiet y) (all_quiet y), fun _ => hy⟩

theorem Agree.done {s : σ} (hs : I s) : Agree p q I (Traced.quiet (.done s)) :=
  .quiet fun _ ht => Outcome.done.inj ht ▸ hs

theorem Agree.after {e : ε} (hp : p e) (hq : q e) (hx : Agree p q I x) :
    Agree p q I (after e x) := by
  constructor
  · rw [all_after, all_after, and_iff_right hp, and_iff_right hq]
    exact hx.iff
  · exact fun hall => hx.returns (all_after.mp hall).2

/-- An event on which `q` asks for what makes `p` hold from there on. -/
theorem Agree.asks {e : ε} (hp : p e) (hx : q e → Agree p q I x) (hnot : ¬ q e → ¬ x.All p) :
    Agree p q I (Traced.after e x) := by
  by_cases hq : q e
  · exact .after hp hq (hx hq)
  · have hfail : ¬ (Traced.after e x).All p := fun hall => hnot hq (all_after.mp hall).2
    exact ⟨iff_of_false hfail fun hall => hq (all_after.mp hall).1, fun hall => absurd hall hfail⟩

theorem Agree.bind (hx : Agree p q I x) (hf : ∀ s, I s → Agree p q J (f s)) :
    Agree p q J (x.bind f) := by
  constructor
  · rw [all_bind, all_bind, ← hx.iff]
    apply and_congr_right
    intro hall
    apply forall₂_congr
    intro s hs
    exact (hf s (hx.returns hall s hs)).iff
  · intro hall t ht
    obtain ⟨hall, hrest⟩ := all_bind.mp hall
    rw [outcome_bind] at ht
    obtain ⟨s, hs, ht⟩ := Outcome.bind_eq_done ht
    exact (hf s (hx.returns hall s hs)).returns (hrest s hs) t ht

theorem Agree.forEach {f : α → σ → Traced ε σ} (hf : ∀ a s, I s → Agree p q I (f a s))
    (as : List α) {s : σ} (hs : I s) : Agree p q I (forEach f as s) := by
  induction as generalizing s with
  | nil => exact .done hs
  | cons a as ih => exact (hf a s hs).bind fun _ ht => ih ht

end conditions

section follows

variable {p : ε → Prop} {E : ε → η → Prop} {R : σ → τ → Prop}

/-- As long as its events satisfy `p`, `y` does what `x` does, with related events and states. -/
def Follows (p : ε → Prop) (E : ε → η → Prop) (R : σ → τ → Prop) (x : Traced ε σ)
    (y : Traced η τ) : Prop :=
  x.All p → List.Forall₂ E x.events y.events ∧ Outcome.Rel R x.outcome y.outcome

theorem Follows.quiet {x : Outcome σ} {y : Outcome τ} (h : Outcome.Rel R x y) :
    Follows p E R (quiet x) (quiet y) := fun _ => ⟨.nil, h⟩

theorem Follows.after {x : Traced ε σ} {y : Traced η τ} {e : ε} {e' : η} (he : p e → E e e')
    (h : p e → Follows p E R x y) : Follows p E R (after e x) (after e' y) := by
  intro hall
  obtain ⟨hp, hall⟩ := all_after.mp hall
  obtain ⟨hevents, hrel⟩ := h hp hall
  exact ⟨.cons (he hp) hevents, hrel⟩

theorem Follows.bind {σ' τ' : Type*} {S : σ' → τ' → Prop} {x : Traced ε σ} {y : Traced η τ}
    {f : σ → Traced ε σ'} {g : τ → Traced η τ'} (h : Follows p E R x y)
    (hfg : ∀ s t, R s t → Follows p E S (f s) (g t)) : Follows p E S (x.bind f) (y.bind g) := by
  intro hall
  obtain ⟨hall, hrest⟩ := all_bind.mp hall
  obtain ⟨hevents, hrel⟩ := h hall
  unfold Traced.bind
  cases hx : x.outcome with
  | done s =>
    obtain ⟨t, hy, hst⟩ := hrel.exists_done hx
    obtain ⟨htail, hlast⟩ := hfg s t hst (hrest s hx)
    rw [hy]
    exact ⟨List.rel_append hevents htail, hlast⟩
  | stopped =>
    rw [hx] at hrel
    cases hy : y.outcome with
    | stopped => exact ⟨hevents, .stopped⟩
    | done t => rw [hy] at hrel; cases hrel
    | outOfFuel => rw [hy] at hrel; cases hrel
  | outOfFuel =>
    rw [hx] at hrel
    cases hy : y.outcome with
    | outOfFuel => exact ⟨hevents, .outOfFuel⟩
    | done t => rw [hy] at hrel; cases hrel
    | stopped => rw [hy] at hrel; cases hrel

theorem Follows.forEach {f : α → σ → Traced ε σ} {g : α → τ → Traced η τ}
    (hfg : ∀ a s t, R s t → Follows p E R (f a s) (g a t)) (as : List α) {s : σ} {t : τ}
    (h : R s t) : Follows p E R (forEach f as s) (forEach g as t) := by
  induction as generalizing s t with
  | nil => exact .quiet (.done h)
  | cons a as ih => exact (hfg a s t h).bind fun _ _ hst => ih hst

/-- The elements related to those with `p` have `q`. -/
theorem forall_mem_of_forall₂ {q : η → Prop} {as : List ε} {bs : List η}
    (h : List.Forall₂ E as bs) (hpq : ∀ a b, E a b → p a → q b) (has : ∀ a ∈ as, p a) :
    ∀ b ∈ bs, q b := by
  induction h with
  | nil => exact fun b hb => absurd hb List.not_mem_nil
  | cons hab _ ih =>
    obtain ⟨ha, has⟩ := List.forall_mem_cons.mp has
    exact List.forall_mem_cons.mpr ⟨hpq _ _ hab ha, ih has⟩

theorem Follows.all {q : η → Prop} {x : Traced ε σ} {y : Traced η τ} (h : Follows p E R x y)
    (hpq : ∀ e e', E e e' → p e → q e') (hall : x.All p) : y.All q :=
  forall_mem_of_forall₂ (h hall).1 hpq hall

end follows

end Traced

end Einherjar.Lib
