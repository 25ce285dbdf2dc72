import OutlineServer.Lib.Prog

/-!
# Methods

A method of an object is a program that takes the object's state and returns a result or an exception, and
the state as it is then. `runs_bind` cuts the run of a sequence in two; an exception ends it with the state
that it was raised in.
-/

namespace Prog

variable {Op : Type} {Res : Op → Type} {ε σ α β : Type}

def Method (Op : Type) (Res : Op → Type) (ε σ α : Type) : Type := σ → Prog Op Res (Except ε α × σ)

namespace Method

def pure (a : α) : Method Op Res ε σ α := fun s => .ret (.ok a, s)

/-- What follows a statement that has ended. -/
def next (f : α → Method Op Res ε σ β) : Except ε α × σ → Prog Op Res (Except ε β × σ)
  | (.ok a, s) => f a s
  | (.error e, s) => .ret (.error e, s)

def bind (p : Method Op Res ε σ α) (f : α → Method Op Res ε σ β) : Method Op Res ε σ β :=
  fun s => p s >>= next f

instance : Monad (Method Op Res ε σ) where
  pure := pure
  bind := bind

def raise (e : ε) : Method Op Res ε σ α := fun s => .ret (.error e, s)

def get : Method Op Res ε σ σ := fun s => .ret (.ok s, s)

def set (s : σ) : Method Op Res ε σ Unit := fun _ => .ret (.ok (), s)

def op (o : Op) : Method Op Res ε σ (Res o) := fun s => .call o fun r => .ret (.ok r, s)

/-- An expression that may raise. -/
def ofExcept : Except ε α → Method Op Res ε σ α
  | .ok a => pure a
  | .error e => raise e

/-- `try: p except Exception: handler` -/
def except (p : Method Op Res ε σ α) (handler : ε → Method Op Res ε σ α) : Method Op Res ε σ α :=
  fun s => p s >>= fun
    | (.ok a, s) => .ret (.ok a, s)
    | (.error e, s) => handler e s

section
variable {ω : Type} {step : ω → (o : Op) → Res o → ω → Prop} {v v' : ω} {s s' : σ} {p : Method Op Res ε σ α}
  {f : α → Method Op Res ε σ β} {r : Except ε β}

theorem runs_bind : Runs step ((p >>= f) s) v (r, s') v' ↔
    (∃ a s₁ v₁, Runs step (p s) v (.ok a, s₁) v₁ ∧ Runs step (f a s₁) v₁ (r, s') v') ∨
      ∃ e, r = .error e ∧ Runs step (p s) v (.error e, s') v' := by
  have hb : (p >>= f) s = p s >>= next f := rfl
  rw [hb, Prog.runs_bind]
  constructor
  · rintro ⟨⟨a, s₁⟩, v₁, hp, hf⟩
    cases a with
    | ok a => exact .inl ⟨a, s₁, v₁, hp, hf⟩
    | error e =>
      obtain ⟨hr, rfl⟩ := runs_ret.1 hf
      cases hr
      exact .inr ⟨e, rfl, hp⟩
  · rintro (⟨a, s₁, v₁, hp, hf⟩ | ⟨e, rfl, hp⟩)
    · exact ⟨_, v₁, hp, hf⟩
    · exact ⟨_, v', hp, .ret _ _⟩

theorem runs_pure {a : α} {r : Except ε α} :
    Runs step ((Pure.pure a : Method Op Res ε σ α) s) v (r, s') v' ↔ r = .ok a ∧ s' = s ∧ v' = v := by
  have hp : (Pure.pure a : Method Op Res ε σ α) s = .ret (.ok a, s) := rfl
  rw [hp, runs_ret, Prod.mk.injEq, and_assoc]

theorem runs_raise {e : ε} {r : Except ε α} :
    Runs step ((raise e : Method Op Res ε σ α) s) v (r, s') v' ↔ r = .error e ∧ s' = s ∧ v' = v := by
  rw [raise, runs_ret, Prod.mk.injEq, and_assoc]

theorem runs_get {r : Except ε σ} :
    Runs step ((get : Method Op Res ε σ σ) s) v (r, s') v' ↔ r = .ok s ∧ s' = s ∧ v' = v := by
  rw [get, runs_ret, Prod.mk.injEq, and_assoc]

theorem runs_set {t : σ} {r : Except ε Unit} :
    Runs step ((set t : Method Op Res ε σ Unit) s) v (r, s') v' ↔ r = .ok () ∧ s' = t ∧ v' = v := by
  rw [set, runs_ret, Prod.mk.injEq, and_assoc]

theorem runs_op {o : Op} {r : Except ε (Res o)} :
    Runs step ((op o : Method Op Res ε σ (Res o)) s) v (r, s') v' ↔ ∃ a, r = .ok a ∧ s' = s ∧ step v o a v' := by
  rw [op, runs_call]
  constructor
  · rintro ⟨a, v₁, hs, hr⟩
    obtain ⟨hr, rfl⟩ := runs_ret.1 hr
    cases hr
    exact ⟨a, rfl, rfl, hs⟩
  · rintro ⟨a, rfl, rfl, hs⟩
    exact ⟨a, v', hs, .ret _ _⟩

theorem runs_ofExcept {x : Except ε α} {r : Except ε α} :
    Runs step ((ofExcept x : Method Op Res ε σ α) s) v (r, s') v' ↔ r = x ∧ s' = s ∧ v' = v := by
  cases x with
  | ok a => exact runs_pure
  | error e => exact runs_raise

theorem runs_get_bind {f : σ → Method Op Res ε σ β} :
    Runs step ((get >>= f) s) v (r, s') v' ↔ Runs step (f s s) v (r, s') v' := by
  rw [runs_bind]
  constructor
  · rintro (⟨a, s₁, v₁, h, hf⟩ | ⟨e, -, h⟩)
    · obtain ⟨ha, rfl, rfl⟩ := runs_get.1 h
      cases ha
      exact hf
    · cases (runs_get.1 h).1
  · exact fun h => .inl ⟨s, s, v, .ret _ _, h⟩

theorem runs_op_bind {o : Op} {f : Res o → Method Op Res ε σ β} :
    Runs step ((op o >>= f) s) v (r, s') v' ↔ ∃ a v₁, step v o a v₁ ∧ Runs step (f a s) v₁ (r, s') v' := by
  rw [runs_bind]
  constructor
  · rintro (⟨a, s₁, v₁, h, hf⟩ | ⟨e, -, h⟩)
    · obtain ⟨b, hb, rfl, hs⟩ := runs_op.1 h
      cases hb
      exact ⟨a, v₁, hs, hf⟩
    · obtain ⟨b, hb, -, -⟩ := runs_op.1 h
      cases hb
  · rintro ⟨a, v₁, hs, hf⟩
    exact .inl ⟨a, s, v₁, runs_op.2 ⟨a, rfl, rfl, hs⟩, hf⟩

theorem runs_ofExcept_bind {x : Except ε α} {f : α → Method Op Res ε σ β} :
    Runs step ((ofExcept x >>= f) s) v (r, s') v' ↔
      (∃ a, x = .ok a ∧ Runs step (f a s) v (r, s') v') ∨ ∃ e, x = .error e ∧ r = .error e ∧ s' = s ∧ v' = v := by
  rw [runs_bind]
  constructor
  · rintro (⟨a, s₁, v₁, h, hf⟩ | ⟨e, rfl, h⟩)
    · obtain ⟨hx, rfl, rfl⟩ := runs_ofExcept.1 h
      exact .inl ⟨a, hx.symm, hf⟩
    · obtain ⟨hx, rfl, rfl⟩ := runs_ofExcept.1 h
      exact .inr ⟨e, hx.symm, rfl, rfl, rfl⟩
  · rintro (⟨a, rfl, hf⟩ | ⟨e, rfl, rfl, rfl, rfl⟩)
    · exact .inl ⟨a, s, v, .ret _ _, hf⟩
    · exact .inr ⟨e, rfl, .ret _ _⟩

/-- A handler that is passed what was raised. -/
theorem runs_except {handler : ε → Method Op Res ε σ α} {r : Except ε α} :
    Runs step (except p handler s) v (r, s') v' ↔
      (∃ a, r = .ok a ∧ Runs step (p s) v (.ok a, s') v') ∨
        ∃ e s₁ v₁, Runs step (p s) v (.error e, s₁) v₁ ∧ Runs step (handler e s₁) v₁ (r, s') v' := by
  rw [except, Prog.runs_bind]
  constructor
  · rintro ⟨⟨a, s₁⟩, v₁, hp, hf⟩
    cases a with
    | ok a =>
      obtain ⟨hr, rfl⟩ := runs_ret.1 hf
      cases hr
      exact .inl ⟨a, rfl, hp⟩
    | error e => exact .inr ⟨e, s₁, v₁, hp, hf⟩
  · rintro (⟨a, rfl, hp⟩ | ⟨e, s₁, v₁, hp, hf⟩)
    · exact ⟨_, v', hp, .ret _ _⟩
    · exact ⟨_, v₁, hp, hf⟩

end

end Method

end Prog
