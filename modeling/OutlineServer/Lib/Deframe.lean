import Mathlib.Data.List.Basic
import Mathlib.Logic.Function.Iterate
import Mathlib.Tactic.TypeStar

/-!
# Incremental decoding of framed streams

A `Deframer` looks at the bytes received so far and either needs more of them, fails, or takes an item
off their front. What it answers may not depend on bytes it has not looked at: an item or a failure
stays when bytes are appended. `Drains` takes items until it cannot; since the answers are stable,
draining what is left after each segment is draining the concatenation of the segments
(`Drains.append`).

`whole` are the items whose frames lie inside a given number of bytes. A `Codec` adds an encoder whose frames
are decoded one by one; then a prefix of an encoded stream drains to its whole items (`Codec.drains_prefix`). If the
items that can be decoded at all are those of a fixed list, one position after another, then what any stream drains to
is a prefix of that list (`Drains.prefix_of_only`).
-/

inductive Next (σ γ : Type)
  | more
  | fail
  | item (a : γ) (n : Nat) (s : σ)

structure Deframer (σ β γ : Type) where
  next : σ → List β → Next σ γ
  /-- An item takes some of the bytes received. -/
  item_le : ∀ {s b a n s'}, next s b = .item a n s' → 0 < n ∧ n ≤ b.length
  item_append : ∀ {s b a n s'} x, next s b = .item a n s' → next s (b ++ x) = .item a n s'
  fail_append : ∀ {s b} x, next s b = .fail → next s (b ++ x) = .fail

namespace Deframer

variable {σ β γ : Type} (D : Deframer σ β γ)

/-- `b` drains to the items `as`, leaving `rest` in the state `s'`; `failed` says how it stopped. -/
inductive Drains : σ → List β → List γ → List β → σ → Bool → Prop
  | more {s : σ} {b : List β} (h : D.next s b = .more) : Drains s b [] b s false
  | fail {s : σ} {b : List β} (h : D.next s b = .fail) : Drains s b [] b s true
  | item {s s' s'' : σ} {b rest : List β} {a : γ} {n : Nat} {as : List γ} {f : Bool}
      (h : D.next s b = .item a n s') (hd : Drains s' (b.drop n) as rest s'' f) :
      Drains s b (a :: as) rest s'' f

variable {D} {s s' s'' : σ} {b rest rest' x : List β} {as as' : List γ} {f f' : Bool}

theorem Drains.det (h : D.Drains s b as rest s' f) (h' : D.Drains s b as' rest' s'' f') :
    as = as' ∧ rest = rest' ∧ s' = s'' ∧ f = f' := by
  induction h generalizing as' with
  | more hn =>
    cases h' with
    | more => exact ⟨rfl, rfl, rfl, rfl⟩
    | fail hn' => rw [hn] at hn'; cases hn'
    | item hn' => rw [hn] at hn'; cases hn'
  | fail hn =>
    cases h' with
    | more hn' => rw [hn] at hn'; cases hn'
    | fail => exact ⟨rfl, rfl, rfl, rfl⟩
    | item hn' => rw [hn] at hn'; cases hn'
  | item hn _ ih =>
    cases h' with
    | more hn' => rw [hn] at hn'; cases hn'
    | fail hn' => rw [hn] at hn'; cases hn'
    | item hn' hd' =>
      rw [hn] at hn'
      cases hn'
      obtain ⟨rfl, h⟩ := ih hd'
      exact ⟨rfl, h⟩

theorem exists_drains (D : Deframer σ β γ) (s : σ) (b : List β) : ∃ as rest s' f, D.Drains s b as rest s' f := by
  induction hl : b.length using Nat.strongRecOn generalizing s b with
  | ind l ih =>
    cases hn : D.next s b with
    | more => exact ⟨_, _, _, _, .more hn⟩
    | fail => exact ⟨_, _, _, _, .fail hn⟩
    | item a n s' =>
      have hle := D.item_le hn
      have hlt : (b.drop n).length < l := by
        rw [List.length_drop]
        omega
      obtain ⟨as, rest, s'', f, hd⟩ := ih _ hlt s' (b.drop n) rfl
      exact ⟨_, _, _, _, .item hn hd⟩

theorem Drains.append (h : D.Drains s b as rest s' false) (h' : D.Drains s' (rest ++ x) as' rest' s'' f) :
    D.Drains s (b ++ x) (as ++ as') rest' s'' f := by
  generalize hf : false = f₀ at h
  induction h with
  | more => exact h'
  | fail => cases hf
  | item hn _ ih =>
    have hle := D.item_le hn
    refine .item (D.item_append x hn) ?_
    rw [List.drop_append_of_le_length hle.2]
    exact ih h' hf

theorem Drains.state_eq {φ : σ → σ} (hφ : ∀ s b a n s', D.next s b = .item a n s' → s' = φ s)
    (h : D.Drains s b as rest s' f) : s' = φ^[as.length] s := by
  induction h with
  | more => rfl
  | fail => rfl
  | item hn _ ih =>
    rw [ih, hφ _ _ _ _ _ hn]
    rfl

theorem Drains.exists_next {φ : σ → σ} (hφ : ∀ s b a n s', D.next s b = .item a n s' → s' = φ s)
    (h : D.Drains s b as rest s' f) {i : Nat} {a : γ} (ha : as[i]? = some a) :
    ∃ b n, D.next (φ^[i] s) b = .item a n (φ^[i + 1] s) := by
  induction h generalizing i with
  | more => cases ha
  | fail => cases ha
  | item hn _ ih =>
    obtain rfl := hφ _ _ _ _ _ hn
    rcases i with _ | i
    · cases ha
      exact ⟨_, _, hn⟩
    · exact ih ha

/-! ### Streams that can only be decoded to a fixed list -/

/-- From state `φ^[k] s₀` the only item that any bytes can give is the `k`-th of `sent`. -/
def Only (D : Deframer σ β γ) (φ : σ → σ) (s₀ : σ) (sent : List γ) : Prop :=
  ∀ k ≤ sent.length, ∀ b a n s', D.next (φ^[k] s₀) b = .item a n s' → sent[k]? = some a ∧ s' = φ^[k + 1] s₀

theorem Only.drains {φ : σ → σ} {s₀ : σ} {sent : List γ} (ho : D.Only φ s₀ sent) {k : Nat} (hk : k ≤ sent.length)
    (h : D.Drains (φ^[k] s₀) b as rest s' f) : as <+: sent.drop k := by
  generalize hs : φ^[k] s₀ = s at h
  induction h generalizing k with
  | more => exact List.nil_prefix
  | fail => exact List.nil_prefix
  | @item s s' s'' b rest a n as f hn _ ih =>
    subst hs
    obtain ⟨ha, rfl⟩ := ho k hk _ _ _ _ hn
    obtain ⟨hlt, hget⟩ := List.getElem?_eq_some_iff.1 ha
    rw [List.drop_eq_getElem_cons hlt, hget]
    exact List.prefix_cons_inj a |>.2 (ih hlt rfl)

theorem Drains.prefix_of_only {φ : σ → σ} {sent : List γ} (ho : D.Only φ s sent)
    (h : D.Drains s b as rest s' f) : as <+: sent :=
  ho.drains (k := 0) (Nat.zero_le _) h

/-- The items whose encodings `fs`, one behind the other, lie inside the first `n` bytes. -/
def whole {β γ : Type} : Nat → List γ → List (List β) → List γ
  | n, a :: as, f :: fs => if f.length ≤ n then a :: whole (n - f.length) as fs else []
  | _, _, _ => []

theorem whole_append_head {β γ : Type} {hd f : List β} {fs : List (List β)} {n : Nat} {as : List γ}
    (hf : 0 < f.length) : whole n as ((hd ++ f) :: fs) = whole (n - hd.length) as (f :: fs) := by
  rcases as with _ | ⟨a, as⟩
  · rfl
  simp only [whole, List.length_append]
  by_cases h : hd.length + f.length ≤ n
  · rw [if_pos h, if_pos (by omega), Nat.sub_sub]
  · rw [if_neg h, if_neg (by omega)]

theorem whole_mono {β γ : Type} {m n : Nat} (h : m ≤ n) (as : List γ) (fs : List (List β)) :
    whole m as fs <+: whole n as fs := by
  induction as generalizing m n fs with
  | nil => exact List.nil_prefix
  | cons a as ih =>
    rcases fs with _ | ⟨f, fs⟩
    · exact List.nil_prefix
    simp only [whole]
    split
    · rw [if_pos (by omega)]
      exact (List.prefix_cons_inj a).2 (ih (by omega) fs)
    · exact List.nil_prefix

end Deframer

/-! ### Encoders -/

/-- An encoder for a deframer: a frame decodes to its item, and its proper prefixes to nothing yet. -/
structure Codec (σ β γ : Type) extends Deframer σ β γ where
  frame : σ → γ → List β
  after : σ → σ
  /-- The items that are encoded. -/
  Valid : γ → Prop
  next_frame : ∀ {s a}, Valid a → next s (frame s a) = .item a (frame s a).length (after s)
  next_part : ∀ {s a p}, Valid a → p <+: frame s a → p ≠ frame s a → next s p = .more

namespace Codec

open Deframer (whole)

variable {σ β γ : Type} (C : Codec σ β γ)

def frames : σ → List γ → List (List β)
  | _, [] => []
  | s, a :: as => C.frame s a :: frames (C.after s) as

def encode (s : σ) (as : List γ) : List β := (C.frames s as).flatten

variable {C}

theorem whole_frames (C : Codec σ β γ) (s : σ) (as : List γ) : whole (C.encode s as).length as (C.frames s as) =
    as := by
  induction as generalizing s with
  | nil => rfl
  | cons a as ih =>
    simp only [encode, frames, List.flatten_cons, whole, List.length_append]
    rw [if_pos (Nat.le_add_right _ _), Nat.add_sub_cancel_left]
    exact congrArg (a :: ·) (ih (C.after s))

theorem frames_concat (C : Codec σ β γ) (s : σ) (as : List γ) (a : γ) :
    C.frames s (as ++ [a]) = C.frames s as ++ [C.frame (C.after^[as.length] s) a] := by
  induction as generalizing s with
  | nil => rfl
  | cons b as ih =>
    rw [List.cons_append, frames, ih]
    rfl

/-- A prefix of an encoded stream drains to the items whose frames lie inside it. -/
theorem drains_prefix {s : σ} {as : List γ} (hv : ∀ a ∈ as, C.Valid a) (hnil : ∀ s, C.next s [] = .more)
    {p : List β} (hp : p <+: C.encode s as) :
    ∃ rest s', C.Drains s p (whole p.length as (C.frames s as)) rest s' false := by
  induction as generalizing s p with
  | nil =>
    obtain rfl := List.prefix_nil.1 hp
    exact ⟨[], s, .more (hnil s)⟩
  | cons a as ih =>
    obtain ⟨ha, has⟩ := List.forall_mem_cons.1 hv
    simp only [encode, frames, List.flatten_cons, whole] at hp ⊢
    split
    · rename_i hle
      -- the whole first frame has arrived
      obtain ⟨q, rfl⟩ : ∃ q, p = C.frame s a ++ q :=
        (List.prefix_of_prefix_length_le (List.prefix_append _ _) hp hle).imp fun _ h => h.symm
      have hq : q <+: C.encode (C.after s) as := (List.prefix_append_right_inj _).1 hp
      obtain ⟨rest, s', hd⟩ := ih has hq
      refine ⟨rest, s', .item (C.item_append q (C.next_frame ha)) ?_⟩
      rw [List.length_append, Nat.add_sub_cancel_left, List.drop_left]
      exact hd
    · rename_i hlt
      have hpart : p <+: C.frame s a :=
        List.prefix_of_prefix_length_le hp (List.prefix_append _ _) (by omega)
      refine ⟨p, s, .more (C.next_part ha hpart ?_)⟩
      rintro rfl
      exact hlt (Nat.le_refl _)

end Codec
