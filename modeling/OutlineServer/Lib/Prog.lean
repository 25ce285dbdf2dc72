import Mathlib.Tactic.TypeStar

/-!
# Programs over a set of operations

`Prog Op Res α` is a program that calls operations `o : Op`, each answering in `Res o`, and returns
an `α`. `Prog.Runs step p w a w'`: run alone, `p` takes the store `w` to `w'` and returns `a`, every
call being a transition of `step`. `Prog.Ensures` is the partial correctness triple over `Runs`; it
passes from a program to what is left of it after one call (`Ensures.next`), so the same triple
serves a program that is stepped one call at a time.
-/

/-- A program over the operations `Op`; `o` answers in `Res o`. -/
inductive Prog (Op : Type) (Res : Op → Type) (α : Type) : Type
  | ret (a : α)
  | call (o : Op) (k : Res o → Prog Op Res α)

namespace Prog

variable {Op : Type} {Res : Op → Type} {α β σ : Type}

def bind : Prog Op Res α → (α → Prog Op Res β) → Prog Op Res β
  | .ret a, f => f a
  | .call o k, f => .call o fun r => (k r).bind f

instance : Monad (Prog Op Res) where
  pure := .ret
  bind := bind

def op (o : Op) : Prog Op Res (Res o) := .call o .ret

theorem ret_bind (a : α) (f : α → Prog Op Res β) : (Prog.ret a : Prog Op Res α) >>= f = f a := rfl

theorem call_bind (o : Op) (k : Res o → Prog Op Res α) (f : α → Prog Op Res β) :
    Prog.call o k >>= f = .call o fun r => k r >>= f := rfl

/-! ### Running alone -/

def exec (h : (o : Op) → σ → Res o × σ) : Prog Op Res α → σ → α × σ
  | .ret a, w => (a, w)
  | .call o k, w => (k (h o w).1).exec h (h o w).2

theorem exec_bind (h : (o : Op) → σ → Res o × σ) (p : Prog Op Res α) (f : α → Prog Op Res β) (w : σ) :
    (p >>= f).exec h w = (f (p.exec h w).1).exec h (p.exec h w).2 := by
  induction p generalizing w with
  | ret a => rfl
  | call o k ih => exact ih _ _

/-- The program whose operations are programs over other operations, with a state of their own. -/
def translate {Op' : Type} {Res' : Op' → Type} (h : (o : Op) → σ → Prog Op' Res' (Res o × σ)) :
    Prog Op Res α → σ → Prog Op' Res' (α × σ)
  | .ret a, w => .ret (a, w)
  | .call o k, w => h o w >>= fun x => (k x.1).translate h x.2

variable (step : σ → (o : Op) → Res o → σ → Prop)

/-- `p` run alone from `w` returns `a` in `w'`. -/
inductive Runs : Prog Op Res α → σ → α → σ → Prop
  | ret (a : α) (w : σ) : Runs (.ret a) w a w
  | call {o : Op} {k : Res o → Prog Op Res α} {w w' w'' : σ} {r : Res o} {a : α}
      (hs : step w o r w') (hk : Runs (k r) w' a w'') : Runs (.call o k) w a w''

/-- Every run of `p` from `w` ends in `Q`. -/
def Ensures (p : Prog Op Res α) (Q : α → σ → Prop) (w : σ) : Prop :=
  ∀ a w', Runs step p w a w' → Q a w'

variable {step}

@[simp] theorem runs_ret {a b : α} {w w' : σ} :
    Runs step (.ret a : Prog Op Res α) w b w' ↔ b = a ∧ w' = w := by
  constructor
  · rintro ⟨⟩; exact ⟨rfl, rfl⟩
  · rintro ⟨rfl, rfl⟩; exact .ret _ _

theorem runs_call {o : Op} {k : Res o → Prog Op Res α} {w w'' : σ} {a : α} :
    Runs step (.call o k) w a w'' ↔ ∃ r w', step w o r w' ∧ Runs step (k r) w' a w'' := by
  constructor
  · rintro (_ | ⟨hs, hk⟩); exact ⟨_, _, hs, hk⟩
  · rintro ⟨r, w', hs, hk⟩; exact .call hs hk

theorem runs_bind {p : Prog Op Res α} {f : α → Prog Op Res β} {w w'' : σ} {b : β} :
    Runs step (p >>= f) w b w'' ↔ ∃ a w', Runs step p w a w' ∧ Runs step (f a) w' b w'' := by
  induction p generalizing w with
  | ret a =>
    simp only [ret_bind, runs_ret]
    exact ⟨fun h => ⟨a, w, ⟨rfl, rfl⟩, h⟩, fun ⟨_, _, ⟨rfl, rfl⟩, h⟩ => h⟩
  | call o k ih =>
    simp only [call_bind, runs_call, ih]
    constructor
    · rintro ⟨r, w₁, hs, a, w₂, hk, hf⟩; exact ⟨a, w₂, ⟨r, w₁, hs, hk⟩, hf⟩
    · rintro ⟨a, w₂, ⟨r, w₁, hs, hk⟩, hf⟩; exact ⟨r, w₁, hs, a, w₂, hk, hf⟩

theorem runs_op {o : Op} {w w' : σ} {r : Res o} :
    Runs step (op o : Prog Op Res (Res o)) w r w' ↔ step w o r w' := by
  simp only [op, runs_call, runs_ret]
  constructor
  · rintro ⟨_, _, hs, rfl, rfl⟩; exact hs
  · exact fun hs => ⟨_, _, hs, rfl, rfl⟩

theorem Runs.mono {step' : σ → (o : Op) → Res o → σ → Prop} (h : ∀ {w o r w'}, step w o r w' → step' w o r w')
    {p : Prog Op Res α} {w w' : σ} {a : α} (hr : Runs step p w a w') : Runs step' p w a w' := by
  induction hr with
  | ret a w => exact .ret a w
  | call hs _ ih => exact .call (h hs) ih

/-- A deterministic store whose answers are transitions of `step` gives a run. -/
theorem Runs.of_exec {h : (o : Op) → σ → Res o × σ} (hh : ∀ o w, step w o (h o w).1 (h o w).2)
    (p : Prog Op Res α) (w : σ) : Runs step p w (p.exec h w).1 (p.exec h w).2 := by
  induction p generalizing w with
  | ret a => exact .ret a w
  | call o k ih => exact .call (hh o w) (ih _ _)

/-- The triple of a program that calls `o` first holds of what is left after the call. -/
theorem Ensures.next {o : Op} {k : Res o → Prog Op Res α} {Q : α → σ → Prop} {w w' : σ} {r : Res o}
    (h : Ensures step (.call o k) Q w) (hs : step w o r w') : Ensures step (k r) Q w' :=
  fun a w'' hk => h a w'' (.call hs hk)

/-! ### Whatever the operations answer -/

/-- Whatever its calls answer, `p` calls only operations in `P` and returns only values in `Q`. -/
def Within (P : Op → Prop) (Q : α → Prop) : Prog Op Res α → Prop
  | .ret a => Q a
  | .call o k => P o ∧ ∀ r, (k r).Within P Q

variable {P : Op → Prop} {Q R : α → Prop}

theorem within_pure {a : α} (h : Q a) : (pure a : Prog Op Res α).Within P Q := h

theorem within_op_bind {o : Op} {f : Res o → Prog Op Res β} {Q : β → Prop} (ho : P o)
    (hf : ∀ r, (f r).Within P Q) : (op o >>= f).Within P Q := ⟨ho, hf⟩

theorem Within.bind {p : Prog Op Res α} {f : α → Prog Op Res β} {Q : β → Prop} (hp : p.Within P R)
    (hf : ∀ a, R a → (f a).Within P Q) : (p >>= f).Within P Q := by
  induction p with
  | ret a => exact hf a hp
  | call o k ih => exact ⟨hp.1, fun r => ih r (hp.2 r)⟩

theorem Within.mono {p : Prog Op Res α} (h : p.Within P R) (hQ : ∀ a, R a → Q a) : p.Within P Q := by
  induction p with
  | ret a => exact hQ a h
  | call o k ih => exact ⟨h.1, fun r => ih r (h.2 r)⟩

theorem Within.op_mono {P' : Op → Prop} {p : Prog Op Res α} (h : p.Within P Q) (hP : ∀ o, P o → P' o) :
    p.Within P' Q := by
  induction p with
  | ret a => exact h
  | call o k ih => exact ⟨hP o h.1, fun r => ih r (h.2 r)⟩

theorem within_top (p : Prog Op Res α) : p.Within (fun _ => True) fun _ => True := by
  induction p with
  | ret a => trivial
  | call o k ih => exact ⟨trivial, ih⟩

/-- If its calls answer as `A` says, `p` returns only values in `Q`. -/
def Given (A : (o : Op) → Res o → Prop) (Q : α → Prop) : Prog Op Res α → Prop
  | .ret a => Q a
  | .call o k => ∀ r, A o r → (k r).Given A Q

variable {A : (o : Op) → Res o → Prop}

theorem given_pure {a : α} (h : Q a) : (pure a : Prog Op Res α).Given A Q := h

theorem given_op_bind {o : Op} {f : Res o → Prog Op Res β} {Q : β → Prop} (hf : ∀ r, A o r → (f r).Given A Q) :
    (op o >>= f).Given A Q := hf

theorem Given.bind {p : Prog Op Res α} {f : α → Prog Op Res β} {Q : β → Prop} (hp : p.Given A R)
    (hf : ∀ a, R a → (f a).Given A Q) : (p >>= f).Given A Q := by
  induction p with
  | ret a => exact hf a hp
  | call o k ih => exact fun r hr => ih r (hp r hr)

theorem Within.given {p : Prog Op Res α} (h : p.Within P Q) (A : (o : Op) → Res o → Prop) : p.Given A Q := by
  induction p with
  | ret a => exact h
  | call o k ih => exact fun r _ => ih r (h.2 r)

theorem Within.and_given {p : Prog Op Res α} (h : p.Within P Q) (hR : p.Given A R) :
    p.Given A fun a => Q a ∧ R a := by
  induction p with
  | ret a => exact ⟨h, hR⟩
  | call o k ih => exact fun r hr => ih r (h.2 r) (hR r hr)

theorem Given.mono {p : Prog Op Res α} (h : p.Given A R) (hQ : ∀ a, R a → Q a) : p.Given A Q := by
  induction p with
  | ret a => exact hQ a h
  | call o k ih => exact fun r hr => ih r (h r hr)

theorem Given.of_answers {A' : (o : Op) → Res o → Prop} {p : Prog Op Res α} (h : p.Given A Q)
    (hA : ∀ o r, A' o r → A o r) : p.Given A' Q := by
  induction p with
  | ret a => exact h
  | call o k ih => exact fun r hr => ih r (h r (hA o r hr))

theorem Within.of_runs {p : Prog Op Res α} {w w' : σ} {a : α} (hp : p.Within P Q) (h : Runs step p w a w') :
    Q a := by
  induction h with
  | ret => exact hp
  | call _ _ ih => exact ih (hp.2 _)

end Prog
