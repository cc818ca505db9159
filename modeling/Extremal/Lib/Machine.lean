import Mathlib.Data.List.Induction

-- Machines that react to one input after the other. A machine refuses an input that it cannot receive.

namespace Machine

-- The runs whose steps all meet a condition.
inductive Run (step : σ → ι → Option σ) (P : σ → ι → Prop) (s : σ) : σ → Prop
  | refl : Run step P s s
  | step (r : Run step P s s₁) (h : P s₁ i) (e : step s₁ i = some s₂) : Run step P s s₂

def execute (step : σ → ι → Option σ) (s : σ) (inputs : List ι) : Option σ :=
  inputs.foldlM step s

variable {step : σ → ι → Option σ} {P : σ → ι → Prop} {s s₁ s₂ : σ} {i : ι} {inputs : List ι}

theorem Run.cons (h : P s i) (e : step s i = some s₁) (r : Run step P s₁ s₂) : Run step P s s₂ := by
  induction r
  case refl          => exact .step .refl h e
  case step hP e' hr => exact hr.step hP e'

theorem Run.mono {Q : σ → ι → Prop} (r : Run step P s s₁) (h : ∀ s i, P s i → Q s i) : Run step Q s s₁ := by
  induction r
  case refl          => exact .refl
  case step hP e hr  => exact hr.step (h _ _ hP) e

theorem Run.invariant (Inv : σ → Prop) (hstep : ∀ {s i s'}, Inv s → P s i → step s i = some s' → Inv s')
    (r : Run step P s s₁) (h : Inv s) : Inv s₁ := by
  induction r
  case refl           => exact h
  case step hP e hInv => exact hstep hInv hP e

-- What holds of all reached states holds before each step.
theorem Run.strengthen {Q : σ → Prop} (hQ : ∀ {t}, Run step P s t → Q t) (r : Run step P s s₁) :
    Run step (fun t i => P t i ∧ Q t) s s₁ := by
  induction r
  case refl             => exact .refl
  case step r' hP e hr => exact hr.step ⟨hP, hQ r'⟩ e

-- A machine each of whose steps is a step of another machine, or one that the other machine does not see.
theorem Run.simulate {step' : τ → κ → Option τ} (f : σ → τ)
    (hstep : ∀ {s i s'}, step s i = some s' → f s' = f s ∨ ∃ j, step' (f s) j = some (f s')) (r : Run step P s s₁) :
    Run step' (fun _ _ => True) (f s) (f s₁) := by
  induction r
  case refl => exact .refl
  case step hP e hr =>
    rcases hstep e with he | ⟨j, he⟩
    · exact he ▸ hr
    · exact hr.step trivial he

theorem execute_cons : execute step s (i :: inputs) = (step s i).bind (execute step · inputs) := rfl

theorem execute_concat : execute step s (inputs ++ [i]) = (execute step s inputs).bind (step · i) := by
  simp only [execute, List.foldlM_append, List.foldlM_cons, List.foldlM_nil, bind_pure]
  rfl

theorem execute_concat_eq_some : execute step s (inputs ++ [i]) = some s₂ ↔
    ∃ s₁, execute step s inputs = some s₁ ∧ step s₁ i = some s₂ := by
  rw [execute_concat, Option.bind_eq_some_iff]

theorem execute_append {inputs' : List ι} : execute step s (inputs ++ inputs') =
    (execute step s inputs).bind (execute step · inputs') :=
  List.foldlM_append

-- An invariant of a state and the inputs that have led to it.
theorem execute_invariant (Inv : List ι → σ → Prop)
    (hstep : ∀ {inputs s i s'}, Inv inputs s → step s i = some s' → Inv (inputs ++ [i]) s') (h : Inv [] s)
    (e : execute step s inputs = some s₁) : Inv inputs s₁ := by
  induction inputs using List.reverseRecOn generalizing s₁
  case nil =>
    cases e
    exact h
  case append_singleton inputs i hr =>
    have ⟨t, ht, hi⟩ := execute_concat_eq_some.mp e
    exact hstep (hr ht) hi

theorem run_of_execute (e : execute step s inputs = some s₁) : Run step (fun _ _ => True) s s₁ :=
  execute_invariant (fun _ => Run step _ s) (fun r => r.step trivial) .refl e

-- The states that an execution passes meet a condition before each of their steps.
def Along (step : σ → ι → Option σ) (P : σ → ι → Prop) (s : σ) (inputs : List ι) : Prop :=
  ∀ before i, before ++ [i] <+: inputs → ∀ t, execute step s before = some t → P t i

theorem Along.nil : Along step P s [] :=
  fun before i hb => absurd (List.prefix_nil.mp hb) (by simp)

theorem Along.cons (h : P s i) (e : step s i = some s₁) (r : Along step P s₁ inputs) : Along step P s (i :: inputs) := by
  intro before j hb t ht
  cases before
  case nil =>
    cases ht
    cases (List.cons_prefix_cons.mp hb).1
    exact h
  case cons k before =>
    have ⟨hk, hp⟩ := List.cons_prefix_cons.mp hb
    subst hk
    rw [execute_cons, e] at ht
    exact r before j hp t ht

theorem Along.run (h : Along step P s inputs) (e : execute step s inputs = some s₁) : Run step P s s₁ := by
  induction inputs using List.reverseRecOn generalizing s₁
  case nil =>
    cases e
    exact .refl
  case append_singleton inputs i hr =>
    have ⟨t, ht, hi⟩ := execute_concat_eq_some.mp e
    have hP := h inputs i List.prefix_rfl t ht
    exact .step (hr (fun before j hb => h before j <| hb.trans <| List.prefix_append ..) ht) hP hi

theorem Run.of_forall {Q : ι → Prop} (h : ∀ i ∈ inputs, Q i) (e : execute step s inputs = some s₁) :
    Run step (fun _ i => Q i) s s₁ :=
  Along.run (fun _ i hb _ _ => h i <| hb.subset <| by simp) e

-- The machine that refuses the inputs that do not meet a condition.
def guarded (step : σ → ι → Option σ) (P : σ → ι → Prop) [∀ s i, Decidable (P s i)] (s : σ) (i : ι) : Option σ :=
  if P s i then step s i else none

theorem along_of_guarded [∀ s i, Decidable (P s i)] (e : execute (guarded step P) s inputs = some s₁) :
    execute step s inputs = some s₁ ∧ Along step P s inputs := by
  induction inputs using List.reverseRecOn generalizing s₁
  case nil => exact ⟨e, fun _ _ h => absurd (List.prefix_nil.mp h) (by simp)⟩
  case append_singleton inputs i hr =>
    have ⟨t, ht, hi⟩ := execute_concat_eq_some.mp e
    have ⟨hP, hi⟩ := Option.ite_none_right_eq_some.mp hi
    have ⟨ht, ha⟩ := hr ht
    refine ⟨execute_concat_eq_some.mpr ⟨t, ht, hi⟩, fun before j hb t' ht' => ?_⟩
    cases List.prefix_concat_iff.mp hb
    case inr hb => exact ha before j hb t' ht'
    case inl hb =>
      have ⟨hb, hj⟩ := List.append_inj' hb rfl
      subst hb
      cases hj
      cases ht.symm.trans ht'
      exact hP

theorem Run.of_guarded [∀ s i, Decidable (P s i)] (e : execute (guarded step P) s inputs = some s₁) :
    Run step P s s₁ :=
  have ⟨e, h⟩ := along_of_guarded e
  h.run e

-- If each step from a good state leads to a good state if and only if it meets a condition, then all
-- states of an execution are good if and only if all its steps meet the condition.
theorem always_iff_along {Inv Q : σ → Prop} (hInv : ∀ {s i s'}, Inv s → step s i = some s' → Inv s')
    (hQ : ∀ {s i s'}, Inv s → Q s → step s i = some s' → (Q s' ↔ P s i)) (hs : Inv s) (hs' : Q s)
    (e : execute step s inputs = some s₁) :
    (∀ before, before <+: inputs → ∀ t, execute step s before = some t → Q t) ↔ Along step P s inputs := by
  have hinv {before t} (e : execute step s before = some t) : Inv t :=
    execute_invariant (fun _ => Inv) hInv hs e
  constructor
  case mp =>
    intro h before i hb t ht
    have ⟨t', ht'⟩ : ∃ t', execute step s (before ++ [i]) = some t' := by
      obtain ⟨after, rfl⟩ := hb
      rw [execute_append] at e
      exact (Option.bind_eq_some_iff.mp e).imp fun _ h => h.1
    have ⟨t₁, ht₁, hi⟩ := execute_concat_eq_some.mp ht'
    cases ht.symm.trans ht₁
    refine (hQ (hinv ht) (h before ?_ t ht) hi).mp <| h _ hb t' ht'
    exact (List.prefix_append ..).trans hb
  case mpr =>
    intro h before hb t ht
    induction before using List.reverseRecOn generalizing t
    case nil =>
      cases ht
      exact hs'
    case append_singleton before i hr =>
      have ⟨t₁, ht₁, hi⟩ := execute_concat_eq_some.mp ht
      have hq := hr ((List.prefix_append ..).trans hb) t₁ ht₁
      exact (hQ (hinv ht₁) hq hi).mpr <| h before i hb t₁ ht₁

end Machine
