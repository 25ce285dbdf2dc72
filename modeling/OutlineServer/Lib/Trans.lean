import Mathlib.Tactic.TypeStar

/-!
# Labelled transition systems

`M.Reach s`: a run of `M` from an initial state ends in `s`. A property of all reachable states is
proved as an invariant (`Reach.invariant`), of the states after `s` as a property that the labels of a
run preserve (`Run.invariant`). `M.guarded G` has only the steps that the guard `G` admits, and `M.within P`
the runs that stay in `P`.
-/

structure Lts (σ ε : Type) where
  init : σ → Prop
  step : σ → ε → σ → Prop

namespace Lts

variable {σ ε : Type} {M : Lts σ ε} {s s' s'' : σ} {e : ε}

inductive Reach (M : Lts σ ε) : σ → Prop
  | init {s : σ} (h : M.init s) : M.Reach s
  | step {s s' : σ} {e : ε} (h : M.Reach s) (hs : M.step s e s') : M.Reach s'

inductive Run (M : Lts σ ε) : σ → List ε → σ → Prop
  | nil (s : σ) : M.Run s [] s
  | cons {s s' s'' : σ} {e : ε} {es : List ε} (hs : M.step s e s') (h : M.Run s' es s'') :
      M.Run s (e :: es) s''

/-- What holds initially and is kept by every step of a reachable state holds of all of them. -/
theorem Reach.invariant {I : σ → Prop} (h₀ : ∀ s, M.init s → I s)
    (hI : ∀ s e s', M.Reach s → I s → M.step s e s' → I s') (h : M.Reach s) : I s := by
  induction h with
  | init h => exact h₀ _ h
  | step h hs ih => exact hI _ _ _ h ih hs

theorem Run.reach {es : List ε} (hs : M.Reach s) (h : M.Run s es s') : M.Reach s' := by
  induction h with
  | nil => exact hs
  | cons hstep _ ih => exact ih (hs.step hstep)

theorem Run.append {es es' : List ε} (h : M.Run s es s') (h' : M.Run s' es' s'') : M.Run s (es ++ es') s'' := by
  induction h with
  | nil => exact h'
  | cons hs _ ih => exact .cons hs (ih h')

/-- What the labels of a run preserve holds at its end. -/
theorem Run.invariant {I : σ → Prop} {P : ε → Prop} {es : List ε} (hP : ∀ e ∈ es, P e)
    (hI : ∀ s e s', P e → I s → M.step s e s' → I s') (h : M.Run s es s') (hs : I s) : I s' := by
  induction h with
  | nil => exact hs
  | cons hstep _ ih =>
    exact ih (fun e he => hP e (List.mem_cons_of_mem _ he)) (hI _ _ _ (hP _ (List.mem_cons_self)) hs hstep)

/-- The steps of `M` that `G` admits. -/
def guarded (M : Lts σ ε) (G : σ → ε → Prop) : Lts σ ε where
  init := M.init
  step s e s' := G s e ∧ M.step s e s'

/-- A run whose labels the guard admits in every state. -/
theorem Run.guarded {G : σ → ε → Prop} {es : List ε} (hG : ∀ e ∈ es, ∀ s, G s e) (h : M.Run s es s') :
    (M.guarded G).Run s es s' := by
  induction h with
  | nil s => exact .nil s
  | cons hs _ ih =>
    exact .cons ⟨hG _ List.mem_cons_self _, hs⟩ (ih fun e he => hG e (List.mem_cons_of_mem _ he))

/-- A function that computes steps of `M` computes runs. -/
theorem Run.of_foldlM {f : σ → ε → Option σ} (hf : ∀ s e s', f s e = some s' → M.step s e s') {es : List ε}
    (h : es.foldlM f s = some s') : M.Run s es s' := by
  induction es generalizing s with
  | nil =>
    cases h
    exact .nil _
  | cons e es ih =>
    rw [List.foldlM_cons] at h
    obtain ⟨s₁, hs₁, h⟩ := Option.bind_eq_some_iff.1 h
    exact .cons (hf _ _ _ hs₁) (ih h)

/-- The step that `f` computes for a label that `ok` admits. -/
def tryStep {F : Type} (ok : σ → ε → Bool) (f : σ → ε → Except F σ) (s : σ) (e : ε) : Option σ :=
  if ok s e then (f s e).toOption else none

theorem of_tryStep {F : Type} {ok : σ → ε → Bool} {f : σ → ε → Except F σ} (h : tryStep ok f s e = some s') :
    ok s e = true ∧ f s e = .ok s' := by
  rw [tryStep] at h
  split at h
  · refine ⟨‹_›, ?_⟩
    cases hf : f s e with
    | ok s₁ =>
      rw [hf] at h
      cases h
      rfl
    | error err =>
      rw [hf] at h
      cases h
  · cases h

/-- The runs of `M` that stay in `P`. -/
def within (M : Lts σ ε) (P : σ → Prop) : Lts σ ε where
  init s := M.init s ∧ P s
  step s e s' := M.step s e s' ∧ P s'

theorem Reach.within_holds {P : σ → Prop} (h : (M.within P).Reach s) : P s := by
  rcases h with h | ⟨-, hs⟩
  · exact h.2
  · exact hs.2

end Lts
