import OutlineServer.Lib.Prog
import OutlineServer.Lib.Trans

/-!
# Two processes over one store

A process serves commands one after another: `body c a` is the program of command `c` in the state
`a`, which returns an outcome and the next state. `Duo.system` interleaves two processes, one operation
at a time. What one process needs from the store while it is busy is a triple of what is left of its
program: `Prog.Ensures` as long as the other process leaves the store alone, `Prog.Within` when the
other one may do anything to it, and `Prog.Rely` when it does no more than a relation says.
-/

namespace Prog

variable {Op : Type} {Res : Op → Type} {α β σ : Type} {tr : σ → (o : Op) → Res o → σ → Prop}
  {R : σ → σ → Prop}

/-- `p` returns in `Q` if the store changes by `R` before each of its calls. -/
def Rely (tr : σ → (o : Op) → Res o → σ → Prop) (R : σ → σ → Prop) (Q : α → σ → Prop) :
    Prog Op Res α → σ → Prop
  | .ret a, w => Q a w
  | .call o k, w => ∀ w₁ r w₂, R w w₁ → tr w₁ o r w₂ → (k r).Rely tr R Q w₂

theorem rely_op_bind {o : Op} {f : Res o → Prog Op Res β} {Q : β → σ → Prop} {w : σ}
    (hf : ∀ w₁ r w₂, R w w₁ → tr w₁ o r w₂ → (f r).Rely tr R Q w₂) : (op o >>= f).Rely tr R Q w := hf

theorem Rely.bind {p : Prog Op Res α} {f : α → Prog Op Res β} {Q : β → σ → Prop} {w : σ}
    (h : p.Rely tr R (fun a w => (f a).Rely tr R Q w) w) : (p >>= f).Rely tr R Q w := by
  induction p generalizing w with
  | ret a => exact h
  | call o k ih => exact fun w₁ r w₂ hR hs => ih r (h w₁ r w₂ hR hs)

theorem Rely.mono {p : Prog Op Res α} {Q Q' : α → σ → Prop} {w : σ} (h : p.Rely tr R Q w)
    (hQ : ∀ a w, Q a w → Q' a w) : p.Rely tr R Q' w := by
  induction p generalizing w with
  | ret a => exact hQ a w h
  | call o k ih => exact fun w₁ r w₂ hR hs => ih r (h w₁ r w₂ hR hs)

/-- The other process moves. -/
theorem Rely.other {o : Op} {k : Res o → Prog Op Res α} {Q : α → σ → Prop} {w w' : σ}
    (h : (Prog.call o k).Rely tr R Q w) (hR : ∀ w₁, R w' w₁ → R w w₁) : (Prog.call o k).Rely tr R Q w' :=
  fun w₁ r w₂ h₁ hs => h w₁ r w₂ (hR w₁ h₁) hs

/-- Run alone, in states that the relation allows to stay as they are. -/
theorem Rely.of_runs {I : σ → Prop} {P : Op → Prop} {p : Prog Op Res α} {Q : α → σ → Prop} {S : α → Prop}
    {w w' : σ} {a : α} (hR : ∀ w, I w → R w w) (hI : ∀ w o r w', P o → I w → tr w o r w' → I w')
    (hp : p.Within P S) (hw : I w) (h : p.Rely tr R Q w) (hr : Runs tr p w a w') : Q a w' := by
  induction hr with
  | ret => exact h
  | call hs _ ih => exact ih (hp.2 _) (hI _ _ _ _ hp.1 hw hs) (h _ _ _ (hR _ hw) hs)

end Prog

/-- A process between two commands, or busy with what is left of one; `a` is the state it started in. -/
inductive Proc (Op : Type) (Res : Op → Type) (κ α ρ : Type) : Type
  | idle (a : α)
  | busy (c : κ) (a : α) (p : Prog Op Res (ρ × α))

/-- What a process does: start a command, one operation, finish the command. -/
inductive ProcEvent (Op κ : Type) : Type
  | start (c : κ)
  | op (o : Op)
  | finish

namespace Proc

variable {Op : Type} {Res : Op → Type} {κ α ρ σ : Type}

/-- The steps of a process with the store. -/
inductive Step (step : σ → (o : Op) → Res o → σ → Prop) (body : κ → α → Prog Op Res (ρ × α)) :
    Proc Op Res κ α ρ → σ → ProcEvent Op κ → Proc Op Res κ α ρ → σ → Prop
  | start (c : κ) (a : α) (w : σ) : Step step body (.idle a) w (.start c) (.busy c a (body c a)) w
  | op {c : κ} {a : α} {o : Op} {k : Res o → Prog Op Res (ρ × α)} {w w' : σ} {r : Res o} (h : step w o r w') :
      Step step body (.busy c a (.call o k)) w (.op o) (.busy c a (k r)) w'
  | finish (c : κ) (a : α) (r : ρ) (a' : α) (w : σ) :
      Step step body (.busy c a (.ret (r, a'))) w .finish (.idle a') w

def last : Proc Op Res κ α ρ → α
  | .idle a => a
  | .busy _ a _ => a

/-- Between commands `I` holds of the state. A command leaves a program that calls only operations in `P`
and brings `I` about again, whatever the store does. -/
def Keeps (P : Op → Prop) (I : α → Prop) : Proc Op Res κ α ρ → Prop
  | .idle a => I a
  | .busy _ a p => I a ∧ p.Within P fun r => I r.2

section
variable {tr : σ → (o : Op) → Res o → σ → Prop} {body : κ → α → Prog Op Res (ρ × α)}
  {P : Op → Prop} {I : α → Prop} {x x' : Proc Op Res κ α ρ} {w w' : σ}

theorem Keeps.step {e : ProcEvent Op κ} (hbody : ∀ c a, I a → (body c a).Within P fun r => I r.2)
    (h : x.Keeps P I) (hs : Step tr body x w e x' w') : x'.Keeps P I := by
  cases hs with
  | start c a => exact ⟨h, hbody c a h⟩
  | op => exact ⟨h.1, h.2.2 _⟩
  | finish => exact h.2

theorem Keeps.op {o : Op} (h : x.Keeps P I) (hs : Step tr body x w (.op o) x' w') :
    P o ∧ ∃ r, tr w o r w' := by
  cases hs with
  | op hs => exact ⟨h.2.1, _, hs⟩

theorem Step.world_eq {e : ProcEvent Op κ} (he : ∀ o, e ≠ .op o) (hs : Step tr body x w e x' w') :
    w' = w := by
  cases hs with
  | start => rfl
  | op => exact absurd rfl (he _)
  | finish => rfl

end

end Proc

structure Duo (Op : Type) (Res : Op → Type) (κ α ρ κ' α' ρ' σ : Type) where
  left : Proc Op Res κ α ρ
  right : Proc Op Res κ' α' ρ'
  world : σ

namespace Duo

variable {Op : Type} {Res : Op → Type} {κ α ρ κ' α' ρ' σ : Type}

inductive Step (step : σ → (o : Op) → Res o → σ → Prop) (body : κ → α → Prog Op Res (ρ × α))
    (body' : κ' → α' → Prog Op Res (ρ' × α')) :
    Duo Op Res κ α ρ κ' α' ρ' σ → ProcEvent Op κ ⊕ ProcEvent Op κ' → Duo Op Res κ α ρ κ' α' ρ' σ → Prop
  | left {x x' : Proc Op Res κ α ρ} {y : Proc Op Res κ' α' ρ'} {w w' : σ} {e : ProcEvent Op κ}
      (h : Proc.Step step body x w e x' w') : Step step body body' ⟨x, y, w⟩ (.inl e) ⟨x', y, w'⟩
  | right {x : Proc Op Res κ α ρ} {y y' : Proc Op Res κ' α' ρ'} {w w' : σ} {e : ProcEvent Op κ'}
      (h : Proc.Step step body' y w e y' w') : Step step body body' ⟨x, y, w⟩ (.inr e) ⟨x, y', w'⟩

def system (step : σ → (o : Op) → Res o → σ → Prop) (body : κ → α → Prog Op Res (ρ × α))
    (body' : κ' → α' → Prog Op Res (ρ' × α')) (init : α → α' → σ → Prop) :
    Lts (Duo Op Res κ α ρ κ' α' ρ' σ) (ProcEvent Op κ ⊕ ProcEvent Op κ') where
  init x := ∃ a a', x.left = .idle a ∧ x.right = .idle a' ∧ init a a' x.world
  step := Step step body body'

variable {step : σ → (o : Op) → Res o → σ → Prop} {body : κ → α → Prog Op Res (ρ × α)}
  {body' : κ' → α' → Prog Op Res (ρ' × α')} {init : α → α' → σ → Prop}

/-- What is left of a command of the left process, run alone, is a run of the system. -/
theorem run_left_rest {c : κ} {a : α} {y : Proc Op Res κ' α' ρ'} {p : Prog Op Res (ρ × α)} {w w' : σ}
    {b : ρ × α} (hr : Prog.Runs step p w b w') :
    ∃ es, (system step body body' init).Run ⟨.busy c a p, y, w⟩ es ⟨.idle b.2, y, w'⟩ ∧
      ∀ e ∈ es, e = .inl .finish ∨ ∃ o, e = .inl (.op o) := by
  induction hr with
  | ret b w => exact ⟨[.inl .finish], .cons (.left (.finish c a b.1 b.2 w)) (.nil _), by simp⟩
  | @call o k _ _ _ _ _ hs _ ih =>
    obtain ⟨es, hrun, hes⟩ := ih
    refine ⟨.inl (.op o) :: es, .cons (.left (.op hs)) hrun, fun e he => ?_⟩
    rcases List.mem_cons.1 he with rfl | he
    · exact .inr ⟨o, rfl⟩
    · exact hes e he

theorem reach_left {a : α} {y : Proc Op Res κ' α' ρ'} {w w' : σ} {b : ρ × α}
    (h : (system step body body' init).Reach ⟨.idle a, y, w⟩) (c : κ) (hr : Prog.Runs step (body c a) w b w') :
    (system step body body' init).Reach ⟨.idle b.2, y, w'⟩ :=
  let ⟨_, hrun, _⟩ := run_left_rest hr
  hrun.reach (h.step (.left (.start c a w)))

/-- The same for the right process; its operations are those of the program. -/
theorem run_right_rest {c : κ'} {x : Proc Op Res κ α ρ} {a : α'} {p : Prog Op Res (ρ' × α')} {w w' : σ}
    {b : ρ' × α'} {P : Op → Prop} {Q : ρ' × α' → Prop} (hp : p.Within P Q) (hr : Prog.Runs step p w b w') :
    ∃ es, (system step body body' init).Run ⟨x, .busy c a p, w⟩ es ⟨x, .idle b.2, w'⟩ ∧
      ∀ e ∈ es, e = .inr .finish ∨ ∃ o, P o ∧ e = .inr (.op o) := by
  induction hr with
  | ret b w => exact ⟨[.inr .finish], .cons (.right (.finish c a b.1 b.2 w)) (.nil _), by simp⟩
  | @call o k _ _ _ _ _ hs _ ih =>
    obtain ⟨es, hrun, hes⟩ := ih (hp.2 _)
    refine ⟨.inr (.op o) :: es, .cons (.right (.op hs)) hrun, fun e he => ?_⟩
    rcases List.mem_cons.1 he with rfl | he
    · exact .inr ⟨o, hp.1, rfl⟩
    · exact hes e he

theorem reach_right_rest {c : κ'} {x : Proc Op Res κ α ρ} {a : α'} {p : Prog Op Res (ρ' × α')} {w w' : σ}
    {b : ρ' × α'} (hr : Prog.Runs step p w b w')
    (h : (system step body body' init).Reach ⟨x, .busy c a p, w⟩) :
    (system step body body' init).Reach ⟨x, .idle b.2, w'⟩ :=
  let ⟨_, hrun, _⟩ := run_right_rest (Prog.within_top p) hr
  hrun.reach h

theorem reach_right {x : Proc Op Res κ α ρ} {a : α'} {w w' : σ} {b : ρ' × α'}
    (h : (system step body body' init).Reach ⟨x, .idle a, w⟩) (c : κ') (hr : Prog.Runs step (body' c a) w b w') :
    (system step body body' init).Reach ⟨x, .idle b.2, w'⟩ :=
  reach_right_rest hr (h.step (.right (.start c a w)))

end Duo
