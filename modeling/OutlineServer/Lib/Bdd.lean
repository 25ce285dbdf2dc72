import Mathlib.Data.Nat.Init
import Mathlib.Order.Basic
import Mathlib.Tactic.Common

/-!
# Binary decision diagrams

`Bdd α` is a decision tree over numbered variables. A tree is `Robdd v` if its variables are at least `v` and increase
from the root to the leaves, and no node has twice the same child. Such trees are equal if they are equal as functions
(`Robdd.ext`). `insert a n v k t` has the value `v` where the assignment agrees with `a` on the `k` variables from `n`
on, and the values of `t` elsewhere.
-/

inductive Bdd (α : Type)
  | leaf (value : α)
  | node (var : Nat) (low high : Bdd α)
deriving DecidableEq

namespace Bdd

variable {α : Type}

def eval : Bdd α → (Nat → Bool) → α
  | leaf v, _ => v
  | node x lo hi, b => if b x then hi.eval b else lo.eval b

/-- The variables that `eval` looks at. -/
def reads (b : Nat → Bool) : Bdd α → List Nat
  | leaf _ => []
  | node x lo hi => x :: if b x then hi.reads b else lo.reads b

def height : Bdd α → Nat
  | leaf _ => 0
  | node _ lo hi => max lo.height hi.height + 1

def size : Bdd α → Nat
  | leaf _ => 1
  | node _ lo hi => lo.size + hi.size + 1

/-- Every leaf satisfies `P`. -/
def Leaves (P : α → Prop) : Bdd α → Prop
  | leaf v => P v
  | node _ lo hi => lo.Leaves P ∧ hi.Leaves P

/-- Every variable is less than `n`. -/
def Below (n : Nat) : Bdd α → Prop
  | leaf _ => True
  | node x lo hi => x < n ∧ lo.Below n ∧ hi.Below n

theorem Below.mono {n m : Nat} {t : Bdd α} (h : t.Below n) (hnm : n ≤ m) : t.Below m := by
  induction t with
  | leaf v => trivial
  | node x lo hi ihl ihh => exact ⟨Nat.lt_of_lt_of_le h.1 hnm, ihl h.2.1, ihh h.2.2⟩

theorem Below.lt_of_mem_reads {n : Nat} {t : Bdd α} (h : t.Below n) {b : Nat → Bool} {x : Nat} (hx : x ∈ t.reads b) :
    x < n := by
  induction t with
  | leaf v => cases hx
  | node y lo hi ihl ihh =>
    rw [reads, List.mem_cons] at hx
    rcases hx with rfl | hx
    · exact h.1
    · split at hx
      · exact ihh h.2.2 hx
      · exact ihl h.2.1 hx

theorem eval_congr_below {n : Nat} {t : Bdd α} (h : t.Below n) {b b' : Nat → Bool} (hb : ∀ i < n, b i = b' i) :
    t.eval b = t.eval b' := by
  induction t with
  | leaf v => rfl
  | node x lo hi ihl ihh => rw [eval, eval, hb x h.1, ihl h.2.1, ihh h.2.2]

theorem Leaves.eval {P : α → Prop} {t : Bdd α} (h : t.Leaves P) (b : Nat → Bool) : P (t.eval b) := by
  induction t with
  | leaf v => exact h
  | node x lo hi ihl ihh =>
    rw [Bdd.eval]
    split
    · exact ihh h.2
    · exact ihl h.1

/-! ### Ordered and reduced -/

inductive Robdd : Nat → Bdd α → Prop
  | leaf {n : Nat} (v : α) : Robdd n (leaf v)
  | node {n x : Nat} {lo hi : Bdd α} (le : n ≤ x) (low : Robdd (x + 1) lo) (high : Robdd (x + 1) hi) (ne : lo ≠ hi) :
    Robdd n (node x lo hi)

namespace Robdd

variable {n m : Nat} {t t' lo hi : Bdd α}

theorem mono (h : Robdd m t) (hnm : n ≤ m) : Robdd n t := by
  cases h with
  | leaf v => exact .leaf v
  | node le low high ne => exact .node (Nat.le_trans hnm le) low high ne

/-- A variable below all those of `t` does not matter. -/
theorem eval_congr (h : Robdd n t) {b b' : Nat → Bool} (hb : ∀ i, n ≤ i → b i = b' i) : t.eval b = t.eval b' := by
  induction h with
  | leaf v => rfl
  | @node n x lo hi le low high ne ihl ihh =>
    have hx : ∀ i, x + 1 ≤ i → b i = b' i := fun i hi => hb i (by omega)
    rw [eval, eval, hb x le, ihl hx, ihh hx]

theorem eval_update (h : Robdd (n + 1) t) (b : Nat → Bool) (v : Bool) :
    t.eval (Function.update b n v) = t.eval b := by
  refine h.eval_congr fun i hi => Function.update_of_ne ?_ _ _
  omega

theorem eval_low {x : Nat} (h : Robdd (x + 1) lo) (hi : Bdd α) (b : Nat → Bool) :
    (Bdd.node x lo hi).eval (Function.update b x false) = lo.eval b := by
  rw [eval, Function.update_self, if_neg Bool.false_ne_true, h.eval_update]

theorem eval_high {x : Nat} (h : Robdd (x + 1) hi) (lo : Bdd α) (b : Nat → Bool) :
    (Bdd.node x lo hi).eval (Function.update b x true) = hi.eval b := by
  rw [eval, Function.update_self, if_pos rfl, h.eval_update]

/-- A node is no function of the later variables only. -/
theorem ne_of_later {x : Nat} (low : Robdd (x + 1) lo) (high : Robdd (x + 1) hi) (hlater : Robdd (x + 1) t')
    (hext : lo.eval = hi.eval → lo = hi) (ne : lo ≠ hi) : (Bdd.node x lo hi).eval ≠ t'.eval := by
  intro heval
  refine ne (hext (funext fun b => ?_))
  rw [← low.eval_low hi b, ← high.eval_high lo b, heval, hlater.eval_update, hlater.eval_update]

/-- Equal functions have equal trees. -/
theorem ext (h : Robdd n t) (h' : Robdd m t') (heval : t.eval = t'.eval) : t = t' := by
  -- on both trees, as either root may have the smaller variable
  obtain ⟨k, hk⟩ : ∃ k, t.size + t'.size ≤ k := ⟨_, Nat.le_refl _⟩
  induction k generalizing n m t t' with
  | zero =>
    cases t <;> simp [size] at hk
  | succ k ih =>
    cases h with
    | leaf v =>
      cases h' with
      | leaf v' =>
        have hv := congrFun heval fun _ => false
        exact congrArg Bdd.leaf hv
      | @node _ y lo' hi' le' low' high' ne' =>
        simp only [size] at hk
        refine absurd heval.symm (low'.ne_of_later high' (.leaf v) (fun he => ih low' high' he ?_) ne')
        omega
    | @node _ x lo hi le low high ne =>
      cases h' with
      | leaf v' =>
        simp only [size] at hk
        refine absurd heval (low.ne_of_later high (.leaf v') (fun he => ih low high he ?_) ne)
        omega
      | @node _ y lo' hi' le' low' high' ne' =>
        simp only [size] at hk
        rcases Nat.lt_trichotomy x y with hlt | rfl | hgt
        · refine absurd heval (low.ne_of_later high (.node hlt low' high' ne') (fun he => ih low high he ?_) ne)
          omega
        · have hlo : lo = lo' := by
            refine ih low low' (funext fun b => ?_) (by omega)
            rw [← low.eval_low hi b, ← low'.eval_low hi' b, heval]
          have hhi : hi = hi' := by
            refine ih high high' (funext fun b => ?_) (by omega)
            rw [← high.eval_high lo b, ← high'.eval_high lo' b, heval]
          rw [hlo, hhi]
        · refine absurd heval.symm
            (low'.ne_of_later high' (.node hgt low high ne) (fun he => ih low' high' he ?_) ne')
          omega

end Robdd

/-! ### Nodes -/

section
variable [DecidableEq α]

/-- A node, if the children differ. -/
def mk (x : Nat) (lo hi : Bdd α) : Bdd α := if lo = hi then lo else node x lo hi

theorem eval_mk (x : Nat) (lo hi : Bdd α) (b : Nat → Bool) :
    (mk x lo hi).eval b = if b x then hi.eval b else lo.eval b := by
  rw [mk]
  split
  · subst hi
    exact (ite_self _).symm
  · rfl

theorem Robdd.mk {n x : Nat} {lo hi : Bdd α} (le : n ≤ x) (low : Robdd (x + 1) lo) (high : Robdd (x + 1) hi) :
    Robdd n (mk x lo hi) := by
  rw [Bdd.mk]
  split
  · exact low.mono (by omega)
  · exact .node le low high ‹_›

theorem Below.mk {n x : Nat} {lo hi : Bdd α} (hx : x < n) (low : lo.Below n) (high : hi.Below n) :
    (mk x lo hi).Below n := by
  rw [Bdd.mk]
  split
  · exact low
  · exact ⟨hx, low, high⟩

theorem Leaves.mk {P : α → Prop} (x : Nat) {lo hi : Bdd α} (low : lo.Leaves P) (high : hi.Leaves P) :
    (mk x lo hi).Leaves P := by
  rw [Bdd.mk]
  split
  · exact low
  · exact ⟨low, high⟩

end

/-! ### The children at a variable -/

/-- The two functions that `t` is for the values of `x`, if no earlier variable occurs. -/
def branches (x : Nat) : Bdd α → Bdd α × Bdd α
  | node y lo hi => if y = x then (lo, hi) else (node y lo hi, node y lo hi)
  | leaf v => (leaf v, leaf v)

theorem eval_branches (x : Nat) (t : Bdd α) (b : Nat → Bool) :
    t.eval b = if b x then (branches x t).2.eval b else (branches x t).1.eval b := by
  cases t with
  | leaf v => exact (ite_self _).symm
  | node y lo hi =>
    rw [branches]
    by_cases hy : y = x
    · subst y
      rw [if_pos rfl, eval]
    · rw [if_neg hy, ite_self]

theorem Robdd.branches {n : Nat} {t : Bdd α} (h : Robdd n t) :
    Robdd (n + 1) (branches n t).1 ∧ Robdd (n + 1) (branches n t).2 := by
  cases h with
  | leaf v => exact ⟨.leaf v, .leaf v⟩
  | @node _ y lo hi le low high ne =>
    rw [Bdd.branches]
    split
    · subst y
      exact ⟨low, high⟩
    · have hle : n + 1 ≤ y := by omega
      exact ⟨.node hle low high ne, .node hle low high ne⟩

theorem Below.branches {n : Nat} {t : Bdd α} (h : t.Below n) (x : Nat) :
    (branches x t).1.Below n ∧ (branches x t).2.Below n := by
  cases t with
  | leaf v => exact ⟨trivial, trivial⟩
  | node y lo hi =>
    rw [Bdd.branches]
    split
    · exact h.2
    · exact ⟨h, h⟩

theorem Leaves.branches {P : α → Prop} {t : Bdd α} (h : t.Leaves P) (x : Nat) :
    (branches x t).1.Leaves P ∧ (branches x t).2.Leaves P := by
  cases t with
  | leaf v => exact ⟨h, h⟩
  | node y lo hi =>
    rw [Bdd.branches]
    split
    · exact h
    · exact ⟨h, h⟩

theorem branches_of_later {n : Nat} {t : Bdd α} (h : Robdd (n + 1) t) : branches n t = (t, t) := by
  cases h with
  | leaf v => rfl
  | node le low high ne => exact if_neg (by omega)

theorem branches_mk [DecidableEq α] {n : Nat} {lo hi : Bdd α} (h : Robdd (n + 1) lo) :
    branches n (mk n lo hi) = (lo, hi) := by
  rw [mk]
  split
  · subst hi
    exact branches_of_later h
  · exact if_pos rfl

theorem reads_branches {x n : Nat} {t : Bdd α} {b : Nat → Bool} (h : x ∈ t.reads b) :
    x = n ∨ x ∈ (if b n then (branches n t).2 else (branches n t).1).reads b := by
  cases t with
  | leaf v => cases h
  | node y lo hi =>
    rw [branches]
    by_cases hy : y = n
    · subst y
      rw [if_pos rfl]
      rcases List.mem_cons.1 h with rfl | h
      · exact .inl rfl
      · refine .inr ?_
        split at h
        · rwa [if_pos ‹_›]
        · rwa [if_neg ‹_›]
    · rw [if_neg hy, ite_self]
      exact .inr h

/-! ### Insertion -/

section
variable [DecidableEq α]

/-- `v` where the `k` variables from `n` on are as in `a`, and `t` elsewhere. -/
def insert (a : Nat → Bool) (v : α) : Nat → Nat → Bdd α → Bdd α
  | 0, _, _ => leaf v
  | k + 1, n, t =>
    if t = leaf v then t
    else if a n then mk n (branches n t).1 (insert a v k (n + 1) (branches n t).2)
    else mk n (insert a v k (n + 1) (branches n t).1) (branches n t).2

theorem insert_leaf (a : Nat → Bool) (v : α) (k n : Nat) : insert a v k n (leaf v) = leaf v := by
  cases k with
  | zero => rfl
  | succ k => exact if_pos rfl

theorem eval_insert (a : Nat → Bool) (v : α) (k n : Nat) (t : Bdd α) (b : Nat → Bool) :
    (insert a v k n t).eval b = if ∀ i < k, b (n + i) = a (n + i) then v else t.eval b := by
  induction k generalizing n t with
  | zero => simp [insert, eval]
  | succ k ih =>
    have hsplit : (∀ i < k + 1, b (n + i) = a (n + i)) ↔ b n = a n ∧ ∀ i < k, b (n + 1 + i) = a (n + 1 + i) := by
      refine Nat.forall_lt_succ_left.trans (and_congr Iff.rfl (forall₂_congr fun i _ => ?_))
      rw [show n + (i + 1) = n + 1 + i by omega]
    rw [insert]
    split
    · subst t
      exact (ite_self _).symm
    · rw [eval_branches n t b, if_congr hsplit rfl rfl]
      cases hb : b n <;> cases ha : a n <;> simp [eval_mk, ih, hb]

theorem Robdd.insert (a : Nat → Bool) (v : α) (k : Nat) {n : Nat} {t : Bdd α} (h : Robdd n t) :
    Robdd n (insert a v k n t) := by
  induction k generalizing n t with
  | zero => exact .leaf v
  | succ k ih =>
    obtain ⟨hlo, hhi⟩ := h.branches
    rw [Bdd.insert]
    split
    · exact h
    · split
      · exact .mk (Nat.le_refl n) hlo (ih hhi)
      · exact .mk (Nat.le_refl n) (ih hlo) hhi

theorem Below.insert (a : Nat → Bool) (v : α) {k n m : Nat} {t : Bdd α} (h : t.Below m) (hk : n + k ≤ m) :
    (insert a v k n t).Below m := by
  induction k generalizing n t with
  | zero => trivial
  | succ k ih =>
    obtain ⟨hlo, hhi⟩ := h.branches n
    rw [Bdd.insert]
    split
    · exact h
    · split
      · exact .mk (by omega) hlo (ih hhi (by omega))
      · exact .mk (by omega) (ih hlo (by omega)) hhi

theorem Leaves.insert {P : α → Prop} (a : Nat → Bool) {v : α} (hv : P v) (k n : Nat) {t : Bdd α} (h : t.Leaves P) :
    (insert a v k n t).Leaves P := by
  induction k generalizing n t with
  | zero => exact hv
  | succ k ih =>
    obtain ⟨hlo, hhi⟩ := h.branches n
    rw [Bdd.insert]
    split
    · exact h
    · split
      · exact .mk n hlo (ih _ hhi)
      · exact .mk n (ih _ hlo) hhi

end

/-! ### Paths -/

/-- The variables on the way to each leaf with their values, and the leaf. -/
def paths : Bdd α → List (List (Nat × Bool) × α)
  | leaf v => [([], v)]
  | node x lo hi =>
    lo.paths.map (fun p => ((x, false) :: p.1, p.2)) ++ hi.paths.map fun p => ((x, true) :: p.1, p.2)

/-- `b` has the values on a path. -/
def Agrees (b : Nat → Bool) (p : List (Nat × Bool)) : Prop := ∀ q ∈ p, b q.1 = q.2

theorem agrees_cons {b : Nat → Bool} {q : Nat × Bool} {p : List (Nat × Bool)} :
    Agrees b (q :: p) ↔ b q.1 = q.2 ∧ Agrees b p := List.forall_mem_cons

theorem mem_paths_node {x : Nat} {lo hi : Bdd α} {p : List (Nat × Bool) × α} :
    p ∈ (node x lo hi).paths ↔
      ∃ v : Bool, ∃ q ∈ (if v then hi.paths else lo.paths), p = ((x, v) :: q.1, q.2) := by
  rw [paths, List.mem_append, List.mem_map, List.mem_map]
  constructor
  · rintro (⟨q, hq, rfl⟩ | ⟨q, hq, rfl⟩)
    · exact ⟨false, q, hq, rfl⟩
    · exact ⟨true, q, hq, rfl⟩
  · rintro ⟨v, q, hq, rfl⟩
    cases v
    · exact .inl ⟨q, hq, rfl⟩
    · exact .inr ⟨q, hq, rfl⟩

/-- An assignment takes a path, and its leaf is the value. -/
theorem exists_path (t : Bdd α) (b : Nat → Bool) : ∃ p ∈ t.paths, Agrees b p.1 ∧ p.2 = t.eval b := by
  induction t with
  | leaf v => exact ⟨([], v), List.mem_singleton_self _, by simp [Agrees], rfl⟩
  | node x lo hi ihl ihh =>
    obtain ⟨pl, hpl, hal, hvl⟩ := ihl
    obtain ⟨ph, hph, hah, hvh⟩ := ihh
    rw [eval]
    cases hb : b x
    · exact ⟨_, mem_paths_node.2 ⟨false, pl, hpl, rfl⟩, agrees_cons.2 ⟨hb, hal⟩, hvl⟩
    · exact ⟨_, mem_paths_node.2 ⟨true, ph, hph, rfl⟩, agrees_cons.2 ⟨hb, hah⟩, hvh⟩

theorem eval_of_path {t : Bdd α} {b : Nat → Bool} {p : List (Nat × Bool) × α} (hp : p ∈ t.paths) (h : Agrees b p.1) :
    t.eval b = p.2 := by
  induction t generalizing p with
  | leaf v =>
    obtain rfl := List.mem_singleton.1 hp
    rfl
  | node x lo hi ihl ihh =>
    obtain ⟨v, q, hq, rfl⟩ := mem_paths_node.1 hp
    obtain ⟨hb, hagrees⟩ := agrees_cons.1 h
    show (if b x then hi.eval b else lo.eval b) = q.2
    rw [show b x = v from hb]
    cases v
    · exact ihl (p := q) hq hagrees
    · exact ihh (p := q) hq hagrees

/-- No assignment takes two paths. -/
theorem paths_pairwise (t : Bdd α) (b : Nat → Bool) : t.paths.Pairwise fun p q => ¬ (Agrees b p.1 ∧ Agrees b q.1) := by
  induction t with
  | leaf v => exact List.pairwise_singleton _ _
  | node x lo hi ihl ihh =>
    rw [paths, List.pairwise_append, List.pairwise_map, List.pairwise_map]
    refine ⟨ihl.imp fun hne h => ?_, ihh.imp fun hne h => ?_, ?_⟩
    · exact hne ⟨(agrees_cons.1 h.1).2, (agrees_cons.1 h.2).2⟩
    · exact hne ⟨(agrees_cons.1 h.1).2, (agrees_cons.1 h.2).2⟩
    · intro p hp q hq h
      obtain ⟨p', -, rfl⟩ := List.mem_map.1 hp
      obtain ⟨q', -, rfl⟩ := List.mem_map.1 hq
      exact Bool.false_ne_true ((agrees_cons.1 h.1).1.symm.trans (agrees_cons.1 h.2).1)

theorem Below.lt_of_mem_path {n : Nat} {t : Bdd α} (h : t.Below n) {p : List (Nat × Bool) × α} (hp : p ∈ t.paths)
    {q : Nat × Bool} (hq : q ∈ p.1) : q.1 < n := by
  induction t generalizing p with
  | leaf v =>
    obtain rfl := List.mem_singleton.1 hp
    cases hq
  | node x lo hi ihl ihh =>
    obtain ⟨v, p', hp', rfl⟩ := mem_paths_node.1 hp
    rcases List.mem_cons.1 hq with rfl | hmem
    · exact h.1
    · cases v
      · exact ihl h.2.1 hp' hmem
      · exact ihh h.2.2 hp' hmem

theorem Robdd.le_of_mem_path {n : Nat} {t : Bdd α} (h : t.Robdd n) {p : List (Nat × Bool) × α} (hp : p ∈ t.paths) :
    (p.1.map Prod.fst).Nodup ∧ ∀ q ∈ p.1, n ≤ q.1 := by
  induction h generalizing p with
  | leaf v =>
    obtain rfl := List.mem_singleton.1 hp
    exact ⟨List.nodup_nil, by simp⟩
  | @node n x lo hi le low high ne ihl ihh =>
    obtain ⟨v, p', hp', rfl⟩ := mem_paths_node.1 hp
    obtain ⟨hnodup, hle⟩ : (p'.1.map Prod.fst).Nodup ∧ ∀ q ∈ p'.1, x + 1 ≤ q.1 := by
      cases v
      · exact ihl hp'
      · exact ihh hp'
    refine ⟨List.nodup_cons.2 ⟨fun hmem => ?_, hnodup⟩, List.forall_mem_cons.2 ⟨le, fun q hq => ?_⟩⟩
    · obtain ⟨q, hq, hqx⟩ := List.mem_map.1 hmem
      have hlt := hle q hq
      simp only at hqx
      omega
    · have hlt := hle q hq
      omega

theorem mem_path_branches {n : Nat} {t : Bdd α} (h : t.Robdd n) {p : List (Nat × Bool) × α} (hp : p ∈ t.paths) :
    (∃ v, ∃ q ∈ (if v then (t.branches n).2 else (t.branches n).1).paths, p = ((n, v) :: q.1, q.2)) ∨
      (t.branches n = (t, t) ∧ n ∉ p.1.map Prod.fst) := by
  cases h with
  | leaf v =>
    obtain rfl := List.mem_singleton.1 hp
    exact .inr ⟨rfl, List.not_mem_nil⟩
  | @node _ x lo hi le low high ne =>
    rw [branches]
    by_cases hx : x = n
    · subst x
      rw [if_pos rfl]
      obtain ⟨v, q, hq, rfl⟩ := mem_paths_node.1 hp
      exact .inl ⟨v, q, by cases v <;> exact hq, rfl⟩
    · rw [if_neg hx]
      refine .inr ⟨rfl, fun hmem => ?_⟩
      obtain ⟨q, hq, hqn⟩ := List.mem_map.1 hmem
      have hle := ((Robdd.node (Nat.lt_of_le_of_ne le (Ne.symm hx)) low high ne).le_of_mem_path hp).2 q hq
      omega

/-! ### Values of open variables -/

/-- All values of the variables `es`, the last one changing fastest, and the others as in `f`. -/
def expansions : List Nat → (Nat → Bool) → List (Nat → Bool)
  | [], f => [f]
  | e :: es, f => expansions es (Function.update f e false) ++ expansions es (Function.update f e true)

/-- Those behind `f` itself. -/
def later : List Nat → (Nat → Bool) → List (Nat → Bool)
  | [], _ => []
  | e :: es, f => later es f ++ if f e then [] else expansions es (Function.update f e true)

/-- `f` with the variables `es` false. -/
def clear (es : List Nat) (f : Nat → Bool) (i : Nat) : Bool := decide (i ∉ es) && f i

theorem mem_expansions {es : List Nat} {f g : Nat → Bool} : g ∈ expansions es f ↔ ∀ i, i ∉ es → g i = f i := by
  induction es generalizing f with
  | nil =>
    rw [expansions, List.mem_singleton]
    exact ⟨fun h i _ => h ▸ rfl, fun h => funext fun i => h i List.not_mem_nil⟩
  | cons e es ih =>
    rw [expansions, List.mem_append, ih, ih]
    constructor
    · rintro (h | h) i hi <;> rw [List.mem_cons, not_or] at hi
      · rw [h i hi.2, Function.update_of_ne hi.1]
      · rw [h i hi.2, Function.update_of_ne hi.1]
    · intro h
      have hrest : ∀ v, g e = v → ∀ i, i ∉ es → g i = Function.update f e v i := by
        intro v hv i hi
        by_cases hie : i = e
        · subst i
          rw [hv, Function.update_self]
        · rw [Function.update_of_ne hie, h i (by simp [hie, hi])]
      cases hg : g e
      · exact .inl (hrest false hg)
      · exact .inr (hrest true hg)

theorem expansions_ne_nil (es : List Nat) (f : Nat → Bool) : expansions es f ≠ [] :=
  List.ne_nil_of_mem (mem_expansions.2 fun _ _ => rfl)

theorem expansions_congr {es : List Nat} {f f' : Nat → Bool} (h : ∀ i, i ∉ es → f i = f' i) :
    expansions es f = expansions es f' := by
  induction es generalizing f f' with
  | nil => rw [funext fun i => h i List.not_mem_nil]
  | cons e es ih =>
    have hrest : ∀ v, ∀ i, i ∉ es → Function.update f e v i = Function.update f' e v i := by
      intro v i hi
      by_cases hie : i = e
      · subst i
        rw [Function.update_self, Function.update_self]
      · rw [Function.update_of_ne hie, Function.update_of_ne hie, h i (by simp [hie, hi])]
    rw [expansions, expansions, ih (hrest false), ih (hrest true)]

theorem expansions_pairwise {es : List Nat} (h : es.Nodup) (f : Nat → Bool) :
    (expansions es f).Pairwise fun g g' => ∃ e ∈ es, g e ≠ g' e := by
  induction es generalizing f with
  | nil => exact List.pairwise_singleton _ _
  | cons e es ih =>
    obtain ⟨he, hes⟩ := List.nodup_cons.1 h
    have hstep : ∀ {g g' : Nat → Bool}, (∃ i ∈ es, g i ≠ g' i) → ∃ i ∈ e :: es, g i ≠ g' i :=
      fun ⟨i, hi, hne⟩ => ⟨i, List.mem_cons_of_mem _ hi, hne⟩
    rw [expansions, List.pairwise_append]
    refine ⟨(ih hes _).imp hstep, (ih hes _).imp hstep, fun g hg g' hg' => ⟨e, List.mem_cons_self, ?_⟩⟩
    rw [mem_expansions.1 hg e he, mem_expansions.1 hg' e he, Function.update_self, Function.update_self]
    exact Bool.false_ne_true

theorem clear_nil (f : Nat → Bool) : clear [] f = f := by
  funext i
  simp [clear]

theorem eq_of_mem_later {es : List Nat} {f g : Nat → Bool} (h : g ∈ later es f) : ∀ i, i ∉ es → g i = f i := by
  induction es generalizing f with
  | nil => cases h
  | cons e es ih =>
    intro i hi
    rw [List.mem_cons, not_or] at hi
    rw [later, List.mem_append] at h
    rcases h with h | h
    · exact ih h i hi.2
    · split at h
      · cases h
      · rw [mem_expansions.1 h i hi.2, Function.update_of_ne hi.1]

theorem clear_update {es : List Nat} {e : Nat} (he : e ∉ es) (f : Nat → Bool) (v : Bool) :
    clear es (Function.update f e v) = Function.update (clear es f) e v := by
  funext i
  by_cases hie : i = e
  · subst i
    simp [clear, he]
  · simp [clear, Function.update_of_ne hie]

theorem clear_cons {es : List Nat} (e : Nat) (f : Nat → Bool) :
    clear (e :: es) f = Function.update (clear es f) e false := by
  funext i
  by_cases hie : i = e
  · subst i
    simp [clear]
  · simp [clear, hie]

theorem expansions_eq {es : List Nat} (h : es.Nodup) (f : Nat → Bool) :
    expansions es f = clear es f :: later es (clear es f) := by
  induction es generalizing f with
  | nil =>
    rw [expansions, clear_nil]
    rfl
  | cons e es ih =>
    obtain ⟨he, hes⟩ := List.nodup_cons.1 h
    have hfirst : clear es (Function.update f e false) = clear (e :: es) f := by rw [clear_update he, clear_cons]
    have hrest : expansions es (Function.update (clear (e :: es) f) e true)
      = expansions es (Function.update f e true) := by
      refine expansions_congr fun i hi => ?_
      by_cases hie : i = e
      · subst i
        rw [Function.update_self, Function.update_self]
      · simp [clear, hie, hi]
    have hfalse : clear (e :: es) f e = false := by simp [clear]
    rw [expansions, ih hes, hfirst, later, hfalse, if_neg Bool.false_ne_true, hrest]
    rfl

end Bdd
