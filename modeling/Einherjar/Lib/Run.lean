import Mathlib.Data.List.Basic

/-! Finite runs of a labelled transition relation, each listed with the state after
every step, the rules by which a property is carried along a run, and pre- and postconditions of
sequences of operations. -/
namespace Einherjar.Lib

variable {σ α : Type*}

/-- `Path T s p`: from `s` the steps of `p` can be taken one after another. An entry
of `p` is the label of a step together with the state that the step reaches. -/
inductive Path (T : σ → α → σ → Prop) : σ → List (α × σ) → Prop
  | nil (s : σ) : Path T s []
  | cons {s t : σ} {a : α} {p : List (α × σ)} (step : T s a t) (rest : Path T t p) :
      Path T s ((a, t) :: p)

/-- Every step of the run, with the states before and after it, satisfies `Q`. -/
def Along (Q : σ → α → σ → Prop) : σ → List (α × σ) → Prop
  | _, [] => True
  | s, (a, t) :: p => Q s a t ∧ Along Q t p

/-- Every label of the run is allowed by `G` in the state before its step. -/
def Guarded (G : σ → α → Prop) : σ → List (α × σ) → Prop :=
  Along fun s a _ => G s a

/-- The state at the end of a run. -/
def finalState : σ → List (α × σ) → σ
  | s, [] => s
  | _, (_, t) :: p => finalState t p

@[simp] theorem along_nil (Q : σ → α → σ → Prop) (s : σ) : Along Q s [] := trivial

@[simp] theorem along_cons (Q : σ → α → σ → Prop) (s t : σ) (a : α) (p : List (α × σ)) :
    Along Q s ((a, t) :: p) ↔ Q s a t ∧ Along Q t p := Iff.rfl

@[simp] theorem guarded_nil (G : σ → α → Prop) (s : σ) : Guarded G s [] := trivial

@[simp] theorem guarded_cons (G : σ → α → Prop) (s t : σ) (a : α) (p : List (α × σ)) :
    Guarded G s ((a, t) :: p) ↔ G s a ∧ Guarded G t p := Iff.rfl

/-- The invariant rule, for steps that a guard has to admit. -/
theorem Path.invariant_of_guarded {T : σ → α → σ → Prop} {G : σ → α → Prop} {I : σ → Prop}
    (hstep : ∀ s a t, I s → G s a → T s a t → I t) {s : σ} {p : List (α × σ)}
    (hp : Path T s p) (hs : I s) (hg : Guarded G s p) : ∀ x ∈ p, I x.2 := by
  induction hp with
  | nil => simp
  | cons step rest ih =>
    obtain ⟨hga, hgp⟩ := hg
    have ht := hstep _ _ _ hs hga step
    intro x hx
    rcases List.mem_cons.mp hx with rfl | hx
    · exact ht
    · exact ih ht hgp x hx

/-- The invariant rule when every step keeps the invariant. -/
theorem Path.invariant {T : σ → α → σ → Prop} {I : σ → Prop}
    (hstep : ∀ s a t, I s → T s a t → I t) {s : σ} {p : List (α × σ)}
    (hp : Path T s p) (hs : I s) : ∀ x ∈ p, I x.2 := by
  induction hp with
  | nil => simp
  | cons step rest ih =>
    have ht := hstep _ _ _ hs step
    intro x hx
    rcases List.mem_cons.mp hx with rfl | hx
    · exact ht
    · exact ih ht x hx

/-- The steps of a guarded run, with the guard. -/
theorem Path.and_guarded {T : σ → α → σ → Prop} {G : σ → α → Prop} {s : σ} {p : List (α × σ)}
    (hp : Path T s p) (hg : Guarded G s p) : Path (fun s a t => G s a ∧ T s a t) s p := by
  induction hp with
  | nil => exact .nil _
  | cons step rest ih => exact .cons ⟨hg.1, step⟩ (ih hg.2)

/-- The last state of a run is its first or one that a step has reached. -/
theorem finalState_of_forall {P : σ → Prop} {s : σ} {p : List (α × σ)} (hs : P s)
    (hp : ∀ x ∈ p, P x.2) : P (finalState s p) := by
  induction p generalizing s with
  | nil => exact hs
  | cons x p ih =>
    exact ih (hp x List.mem_cons_self) fun y hy => hp y (List.mem_cons_of_mem _ hy)

theorem forall_of_guarded {G : α → Prop} {s : σ} {p : List (α × σ)}
    (h : Guarded (fun _ a => G a) s p) : ∀ x ∈ p, G x.1 := by
  induction p generalizing s with
  | nil => simp
  | cons x p ih => exact List.forall_mem_cons.mpr ⟨h.1, ih h.2⟩

/-- A run in two parts. -/
theorem path_append {T : σ → α → σ → Prop} {s : σ} {p q : List (α × σ)} :
    Path T s (p ++ q) ↔ Path T s p ∧ Path T (finalState s p) q := by
  induction p generalizing s with
  | nil => exact ⟨fun h => ⟨.nil s, h⟩, fun h => h.2⟩
  | cons x p ih =>
    constructor
    · intro h
      cases h with
      | cons step rest =>
        obtain ⟨hp, hq⟩ := ih.mp rest
        exact ⟨.cons step hp, hq⟩
    · rintro ⟨h, hq⟩
      cases h with
      | cons step rest => exact .cons step (ih.mpr ⟨rest, hq⟩)

theorem finalState_append (s : σ) (p q : List (α × σ)) :
    finalState s (p ++ q) = finalState (finalState s p) q := by
  induction p generalizing s with
  | nil => rfl
  | cons x p ih => exact ih _

theorem along_append {Q : σ → α → σ → Prop} {s : σ} {p q : List (α × σ)} :
    Along Q s (p ++ q) ↔ Along Q s p ∧ Along Q (finalState s p) q := by
  induction p generalizing s with
  | nil => exact ⟨fun h => ⟨trivial, h⟩, fun h => h.2⟩
  | cons x p ih => rw [List.cons_append, along_cons, along_cons, ih, and_assoc, finalState]

/-- What an invariant gives for one step holds of every step of a run. -/
theorem Path.along {T : σ → α → σ → Prop} {I : σ → Prop} {Q : σ → α → σ → Prop}
    (hstep : ∀ s a t, I s → T s a t → I t) (hQ : ∀ s a t, I s → T s a t → Q s a t)
    {s : σ} {p : List (α × σ)} (hp : Path T s p) (hs : I s) : Along Q s p := by
  induction hp with
  | nil => trivial
  | cons step rest ih => exact ⟨hQ _ _ _ hs step, ih (hstep _ _ _ hs step)⟩

/-- When a guard is exactly what keeps a property from one step to the next, a run has
the property in all its states if and only if all its steps are guarded. -/
theorem Path.forall_states_iff_guarded {T : σ → α → σ → Prop} {G : σ → α → Prop}
    {I P : σ → Prop} (hIP : ∀ s, I s → P s) (hstep : ∀ s a t, I s → G s a → T s a t → I t)
    (hguard : ∀ s a t, I s → T s a t → P t → G s a) {s : σ} {p : List (α × σ)}
    (hp : Path T s p) (hs : I s) : (∀ x ∈ p, P x.2) ↔ Guarded G s p := by
  constructor
  · intro hP
    induction hp with
    | nil => trivial
    | cons step rest ih =>
      have hg := hguard _ _ _ hs step (hP _ (List.mem_cons_self ..))
      exact ⟨hg, ih (hstep _ _ _ hs hg step) fun x hx => hP x (List.mem_cons_of_mem _ hx)⟩
  · intro hg x hx
    exact hIP _ (hp.invariant_of_guarded hstep hs hg x hx)

/-- What an invariant gives for one guarded step holds of every step of a guarded run. -/
theorem Path.along_of_guarded {T : σ → α → σ → Prop} {G : σ → α → Prop} {I : σ → Prop}
    {Q : σ → α → σ → Prop} (hstep : ∀ s a t, I s → G s a → T s a t → I t ∧ Q s a t)
    {s : σ} {p : List (α × σ)} (hp : Path T s p) (hs : I s) (hg : Guarded G s p) :
    Along Q s p := by
  induction hp with
  | nil => trivial
  | cons step rest ih =>
    obtain ⟨ht, hq⟩ := hstep _ _ _ hs hg.1 step
    exact ⟨hq, ih ht hg.2⟩

/-- When a guard is exactly what makes a step satisfy `Q`, all steps of a run satisfy `Q` if and
only if all of them are guarded. -/
theorem Path.along_iff_guarded {T : σ → α → σ → Prop} {G : σ → α → Prop} {I : σ → Prop}
    {Q : σ → α → σ → Prop} (hstep : ∀ s a t, I s → G s a → T s a t → I t ∧ Q s a t)
    (hguard : ∀ s a t, I s → T s a t → Q s a t → G s a) {s : σ} {p : List (α × σ)}
    (hp : Path T s p) (hs : I s) : Along Q s p ↔ Guarded G s p := by
  refine ⟨?_, hp.along_of_guarded hstep hs⟩
  induction hp with
  | nil => exact fun _ => trivial
  | cons step rest ih =>
    intro h
    have hg := hguard _ _ _ hs step h.1
    exact ⟨hg, ih (hstep _ _ _ hs hg step).1 h.2⟩

/-- The run of a deterministic system on a list of labels. -/
def trace (f : σ → α → σ) : σ → List α → List (α × σ)
  | _, [] => []
  | s, a :: as => (a, f s a) :: trace f (f s a) as

theorem path_trace (f : σ → α → σ) (s : σ) (as : List α) :
    Path (fun s a t => t = f s a) s (trace f s as) := by
  induction as generalizing s with
  | nil => exact .nil s
  | cons a as ih => exact .cons rfl (ih _)

/-! A triple is about runs whose operations all meet a guard; it promises something of every
operation, and something of the last state. -/

section triples

variable {f : σ → α → σ} {G : σ → α → Prop} {R : σ → α → σ → Prop}

theorem along_trace_append (R : σ → α → σ → Prop) (s : σ) (as bs : List α) :
    Along R s (trace f s (as ++ bs)) ↔
      Along R s (trace f s as) ∧ Along R (as.foldl f s) (trace f (as.foldl f s) bs) := by
  induction as generalizing s with
  | nil => simp [trace]
  | cons a as ih =>
    rw [List.cons_append, trace, trace, along_cons, along_cons, ih, and_assoc]
    rfl

/-- From a state with `P`, operations that meet `G` all satisfy `R`, and end in a state with
`Q`. -/
def Triple (f : σ → α → σ) (G : σ → α → Prop) (R : σ → α → σ → Prop) (P : σ → Prop) (as : List α)
    (Q : σ → Prop) : Prop :=
  ∀ s, P s → Guarded G s (trace f s as) → Along R s (trace f s as) ∧ Q (as.foldl f s)

namespace Triple

variable {P P' Q Q' I : σ → Prop} {as bs : List α}

theorem nil : Triple f G R P [] P := fun _ h _ => ⟨trivial, h⟩

theorem single {a : α} (h : ∀ s, P s → G s a → R s a (f s a) ∧ Q (f s a)) :
    Triple f G R P [a] Q := by
  intro s hs hg
  obtain ⟨hr, hq⟩ := h s hs hg.1
  exact ⟨⟨hr, trivial⟩, hq⟩

theorem append (h : Triple f G R P as I) (h' : Triple f G R I bs Q) :
    Triple f G R P (as ++ bs) Q := by
  intro s hs hg
  obtain ⟨hg, hg'⟩ := (along_trace_append _ s as bs).mp hg
  obtain ⟨hr, hi⟩ := h s hs hg
  obtain ⟨hr', hq⟩ := h' _ hi hg'
  rw [List.foldl_append]
  exact ⟨(along_trace_append R s as bs).mpr ⟨hr, hr'⟩, hq⟩

theorem mono (h : Triple f G R P as Q) (hP : ∀ s, P' s → P s) (hQ : ∀ s, Q s → Q' s) :
    Triple f G R P' as Q' := fun s hs hg =>
  ⟨(h s (hP s hs) hg).1, hQ _ (h s (hP s hs) hg).2⟩

/-- The invariant rule. -/
theorem of_forall (h : ∀ a ∈ as, Triple f G R I [a] I) : Triple f G R I as I := by
  induction as with
  | nil => exact nil
  | cons a as ih =>
    exact append (h a List.mem_cons_self) (ih fun b hb => h b (List.mem_cons_of_mem _ hb))

end Triple

end triples

end Einherjar.Lib
