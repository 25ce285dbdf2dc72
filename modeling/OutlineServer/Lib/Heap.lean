import Mathlib.Data.List.Basic

/-!
# A heap of objects

`Heap α` holds objects under addresses that are given out in order and never again, so that a reference to
a freed object is never taken for one to a live object. `Mem` is the monad of code that dereferences such
addresses: it stops with `freed` at an object that is not live, and otherwise with the errors of the data that
the code computes on. `Mem.Safe x Q` is the triple of its programs: `x` touches no freed object, and `Q` holds of what
it returns. `Mem.Yields x Q` says only the latter.
-/

structure Heap (α : Type) where
  cells : List (Option α)
deriving DecidableEq

namespace Heap

variable {α : Type}

def empty : Heap α := ⟨[]⟩

/-- The object at `a`, if it is live. -/
def get (h : Heap α) (a : Nat) : Option α := h.cells[a]?.join

/-- The address of the next object. -/
def next (h : Heap α) : Nat := h.cells.length

def alloc (h : Heap α) (v : α) : Heap α := ⟨h.cells ++ [some v]⟩

def put (h : Heap α) (a : Nat) (v : α) : Heap α := ⟨h.cells.set a (some v)⟩

def free (h : Heap α) (a : Nat) : Heap α := ⟨h.cells.set a none⟩

@[simp] theorem get_empty (a : Nat) : (empty : Heap α).get a = none := rfl

theorem lt_next_of_get {h : Heap α} {a : Nat} {v : α} (hv : h.get a = some v) : a < h.next := by
  by_contra hlt
  have hnone : h.cells[a]? = none := List.getElem?_eq_none (Nat.le_of_not_lt hlt)
  rw [get, hnone] at hv
  cases hv

@[simp] theorem get_next (h : Heap α) : h.get h.next = none := by
  simp [get, next]

theorem get_alloc (h : Heap α) (v : α) (a : Nat) :
    (h.alloc v).get a = if a = h.next then some v else h.get a := by
  split
  · subst a
    simp [get, alloc, next]
  · rcases Nat.lt_or_gt_of_ne ‹_› with hlt | hgt
    · simp [get, alloc, List.getElem?_append_left hlt]
    · have hout : h.cells.length + 1 ≤ a := hgt
      rw [get, get, alloc, List.getElem?_eq_none (by simpa using hout), List.getElem?_eq_none (by omega)]

@[simp] theorem next_alloc (h : Heap α) (v : α) : (h.alloc v).next = h.next + 1 := by
  simp [next, alloc]

@[simp] theorem next_put (h : Heap α) (a : Nat) (v : α) : (h.put a v).next = h.next := by
  simp [next, put]

@[simp] theorem next_free (h : Heap α) (a : Nat) : (h.free a).next = h.next := by
  simp [next, free]

theorem get_put {h : Heap α} {a : Nat} {u : α} (hu : h.get a = some u) (v : α) (b : Nat) :
    (h.put a v).get b = if b = a then some v else h.get b := by
  have hlt := lt_next_of_get hu
  split
  · subst b
    rw [get, put, List.getElem?_set_self hlt]
    rfl
  · rw [get, put, List.getElem?_set_ne (Ne.symm ‹_›)]
    rfl

theorem get_free (h : Heap α) (a b : Nat) : (h.free a).get b = if b = a then none else h.get b := by
  split
  · subst b
    rw [get, free, List.getElem?_set, if_pos rfl]
    split <;> rfl
  · rw [get, free, List.getElem?_set_ne (Ne.symm ‹_›)]
    rfl

def any (h : Heap α) (p : α → Bool) : Bool := h.cells.any fun o => o.any p

theorem any_iff {h : Heap α} {p : α → Bool} : h.any p = true ↔ ∃ a v, h.get a = some v ∧ p v = true := by
  simp only [any, List.any_eq_true, List.mem_iff_getElem?, Option.any_eq_true, get, Option.join_eq_some_iff]
  constructor
  · rintro ⟨o, ⟨a, ha⟩, v, rfl, hv⟩
    exact ⟨a, v, ha, hv⟩
  · rintro ⟨a, v, ha, hv⟩
    exact ⟨some v, ⟨a, ha⟩, v, rfl, hv⟩

/-! ### Pointers -/

variable {β : Type} {h h' : Heap α} {k k' : Heap β} {p : α → Option Nat} {q : β → Option Nat} {a b x y : Nat}
  {u v : α} {w : β}

/-- The field `p` of the live object at `a` points to `b`. -/
def Points (h : Heap α) (p : α → Option Nat) (a b : Nat) : Prop := ∃ v, h.get a = some v ∧ p v = some b

theorem points_iff (hv : h.get a = some v) : h.Points p a b ↔ p v = some b := by
  simp [Points, hv]

theorem points_put (hu : h.get a = some u) (v : α) :
    (h.put a v).Points p x y ↔ if x = a then p v = some y else h.Points p x y := by
  simp only [Points, get_put hu]
  split <;> simp

theorem points_put_same (hu : h.get a = some u) (hp : p v = p u) :
    (h.put a v).Points p x y ↔ h.Points p x y := by
  rw [points_put hu]
  split
  · subst x
    rw [points_iff hu, hp]
  · rfl

theorem points_put_none (hu : h.get a = some u) (hp : p v = none) :
    (h.put a v).Points p x y ↔ x ≠ a ∧ h.Points p x y := by
  rw [points_put hu]
  split <;> simp [*]

theorem points_free : (h.free a).Points p x y ↔ x ≠ a ∧ h.Points p x y := by
  simp only [Points, get_free]
  split <;> simp [*]

theorem points_alloc (hp : p v = none) : (h.alloc v).Points p x y ↔ h.Points p x y := by
  simp only [Points, get_alloc]
  split
  · subst x
    simp [hp]
  · rfl

/-- The pointers `p` of one heap and `q` of the other are each other's inverse. -/
def Linked (h : Heap α) (p : α → Option Nat) (k : Heap β) (q : β → Option Nat) : Prop :=
  ∀ a b, h.Points p a b ↔ k.Points q b a

theorem Linked.symm (hl : Linked h p k q) : Linked k q h p := fun a b => (hl b a).symm

/-- Where the pointer leads there is an object that points back. -/
theorem Linked.target (hl : Linked h p k q) (hv : h.get a = some v) (hp : p v = some b) :
    ∃ w, k.get b = some w ∧ q w = some a := (hl a b).1 ⟨v, hv, hp⟩

theorem Linked.congr (hl : Linked h p k q) (hh : ∀ x y, h'.Points p x y ↔ h.Points p x y)
    (hk : ∀ x y, k'.Points q x y ↔ k.Points q x y) : Linked h' p k' q := fun a b => by
  rw [hh, hk]
  exact hl a b

theorem Linked.put_left (hl : Linked h p k q) (hu : h.get a = some u) (hp : p v = p u) :
    Linked (h.put a v) p k q := hl.congr (fun _ _ => points_put_same hu hp) fun _ _ => .rfl

theorem Linked.put_right {w' : β} (hl : Linked h p k q) (hu : k.get b = some w) (hq : q w' = q w) :
    Linked h p (k.put b w') q := hl.congr (fun _ _ => .rfl) fun _ _ => points_put_same hu hq

theorem Linked.alloc_left (hl : Linked h p k q) (hp : p v = none) : Linked (h.alloc v) p k q :=
  hl.congr (fun _ _ => points_alloc hp) fun _ _ => .rfl

theorem Linked.alloc_right (hl : Linked h p k q) (hq : q w = none) : Linked h p (k.alloc w) q :=
  hl.congr (fun _ _ => .rfl) fun _ _ => points_alloc hq

theorem Linked.free_left (hl : Linked h p k q) (hv : h.get a = some v) (hp : p v = none) :
    Linked (h.free a) p k q := by
  refine hl.congr (fun x y => ?_) fun _ _ => .rfl
  rw [points_free]
  refine ⟨fun hx => hx.2, fun hx => ⟨?_, hx⟩⟩
  rintro rfl
  rw [points_iff hv, hp] at hx
  cases hx

theorem Linked.free_right (hl : Linked h p k q) (hw : k.get b = some w) (hq : q w = none) :
    Linked h p (k.free b) q := (hl.symm.free_left hw hq).symm

/-- The two objects that point to each other are cut off on both sides. -/
theorem Linked.cut (hl : Linked h p k q) (hab : h.Points p a b)
    (hh : ∀ x y, h'.Points p x y ↔ x ≠ a ∧ h.Points p x y) (hk : ∀ x y, k'.Points q x y ↔ x ≠ b ∧ k.Points q x y) :
    Linked h' p k' q := by
  intro x y
  rw [hh, hk, ← hl x y]
  refine and_congr_left fun hxy => not_congr ?_
  obtain ⟨v, hv, hvb⟩ := hab
  obtain ⟨v', hv', hvy⟩ := hxy
  constructor
  · rintro rfl
    rw [hv] at hv'
    cases hv'
    exact Option.some.inj (hvy.symm.trans hvb)
  · rintro rfl
    obtain ⟨w, hw, hwa⟩ := hl.target hv hvb
    obtain ⟨w', hw', hwx⟩ := hl.target hv' hvy
    rw [hw] at hw'
    cases hw'
    exact Option.some.inj (hwx.symm.trans hwa)

/-- An address that points nowhere and one that nothing points back from are made to point to each other. -/
theorem Linked.join (hl : Linked h p k q) (ha : ∀ y, ¬ h.Points p a y) (hb : ∀ x, ¬ k.Points q b x)
    (hh : ∀ x y, h'.Points p x y ↔ if x = a then y = b else h.Points p x y)
    (hk : ∀ y x, k'.Points q y x ↔ if y = b then x = a else k.Points q y x) : Linked h' p k' q := by
  intro x y
  rw [hh, hk]
  split <;> split
  · simp [*]
  · subst x
    rw [← hl a y]
    simp [*]
  · subst y
    rw [hl x b]
    simp [*]
  · exact hl x y

theorem not_points (hu : h.get a = some u) (hp : p u = none) (y : Nat) : ¬ h.Points p a y := by
  rw [points_iff hu, hp]
  exact (Option.some_ne_none y).symm

theorem points_put_some (hu : h.get a = some u) (hp : p v = some b) :
    (h.put a v).Points p x y ↔ if x = a then y = b else h.Points p x y := by
  rw [points_put hu, hp, Option.some.injEq, eq_comm (a := b)]

/-- Two objects that point nowhere are made to point to each other. -/
theorem Linked.tie {w' : β} (hl : Linked h p k q) (hu : h.get a = some u) (hpu : p u = none) (hw : k.get b = some w)
    (hqw : q w = none) (hpv : p v = some b) (hqw' : q w' = some a) : Linked (h.put a v) p (k.put b w') q :=
  hl.join (not_points hu hpu) (not_points hw hqw) (fun _ _ => points_put_some hu hpv) fun _ _ =>
    points_put_some hw hqw'

/-- An object that points nowhere and a new one are made to point to each other. -/
theorem Linked.tie_alloc (hl : Linked h p k q) (hu : h.get a = some u) (hpu : p u = none) (hpv : p v = some k.next)
    (hqw : q w = some a) : Linked (h.put a v) p (k.alloc w) q := by
  refine hl.join (not_points hu hpu) (b := k.next) ?_ (fun _ _ => points_put_some hu hpv) fun y x => ?_
  · rintro x ⟨w', hw', -⟩
    rw [get_next] at hw'
    cases hw'
  · simp only [Points, get_alloc]
    split
    · simp [hqw, eq_comm]
    · rfl

end Heap

/-! ### Code over heaps -/

/-- An access to an object that is not live, or an error of type `ε`. -/
inductive MemFault (ε : Type)
  | freed
  | data (e : ε)
deriving DecidableEq

abbrev Mem (ε : Type) := Except (MemFault ε)

namespace Mem

variable {ε α β : Type}

/-- A pointer is followed. -/
def deref : Option α → Mem ε α
  | some v => .ok v
  | none => .error .freed

@[simp] theorem deref_some (v : α) : (deref (some v) : Mem ε α) = .ok v := rfl

@[simp] theorem ok_bind (a : α) (f : α → Mem ε β) : ((.ok a : Mem ε α) >>= f) = f a := rfl

/-- A computation on data. -/
def lift : Except ε α → Mem ε α
  | .ok v => .ok v
  | .error e => .error (.data e)

def Safe (x : Mem ε α) (Q : α → Prop) : Prop :=
  match x with
  | .ok a => Q a
  | .error .freed => False
  | .error (.data _) => True

theorem Safe.pure {a : α} {Q : α → Prop} (h : Q a) : Safe (pure a : Mem ε α) Q := h

theorem Safe.bind {x : Mem ε α} {f : α → Mem ε β} {P : α → Prop} {Q : β → Prop} (hx : x.Safe P)
    (hf : ∀ a, P a → (f a).Safe Q) : (x >>= f).Safe Q := by
  cases x with
  | ok a => exact hf a hx
  | error e =>
    cases e with
    | freed => exact hx.elim
    | data e => trivial

theorem Safe.mono {x : Mem ε α} {P Q : α → Prop} (hx : x.Safe P) (h : ∀ a, P a → Q a) : x.Safe Q := by
  cases x with
  | ok a => exact h a hx
  | error e =>
    cases e with
    | freed => exact hx.elim
    | data e => trivial

theorem Safe.deref_bind {o : Option α} {v : α} {f : α → Mem ε β} {Q : β → Prop} (ho : o = some v)
    (hf : (f v).Safe Q) : (deref o >>= f).Safe Q := by
  subst o
  exact hf

theorem Safe.lift_bind {x : Except ε α} {f : α → Mem ε β} {Q : β → Prop} (hf : ∀ a, x = .ok a → (f a).Safe Q) :
    (lift x >>= f).Safe Q := by
  cases x with
  | ok a => exact hf a rfl
  | error e => trivial

theorem Safe.data {e : ε} {Q : α → Prop} : Safe (.error (.data e) : Mem ε α) Q := trivial

theorem Safe.ne_freed {x : Mem ε α} {Q : α → Prop} (h : x.Safe Q) : x ≠ .error .freed := by
  rintro rfl
  exact h

theorem Safe.of_ok {x : Mem ε α} {Q : α → Prop} {a : α} (h : x.Safe Q) (ha : x = .ok a) : Q a := by
  subst ha
  exact h

/-- `Q` holds of what `x` returns, if it returns. -/
def Yields (x : Mem ε α) (Q : α → Prop) : Prop := ∀ a, x = .ok a → Q a

theorem Safe.yields {x : Mem ε α} {Q : α → Prop} (h : x.Safe Q) : x.Yields Q := fun _ ha => h.of_ok ha

theorem Yields.and {x : Mem ε α} {P Q : α → Prop} (hP : x.Yields P) (hQ : x.Yields Q) : x.Yields fun a => P a ∧ Q a :=
  fun a ha => ⟨hP a ha, hQ a ha⟩

theorem Yields.pure {a : α} {Q : α → Prop} (h : Q a) : Yields (pure a : Mem ε α) Q := by
  rintro b ⟨⟩
  exact h

theorem Yields.error {e : MemFault ε} {Q : α → Prop} : Yields (.error e : Mem ε α) Q := by
  rintro a ⟨⟩

theorem Yields.bind {x : Mem ε α} {f : α → Mem ε β} {P : α → Prop} {Q : β → Prop} (hx : x.Yields P)
    (hf : ∀ a, P a → (f a).Yields Q) : (x >>= f).Yields Q := by
  cases x with
  | ok a => exact hf a (hx a rfl)
  | error e => exact Yields.error

theorem Yields.mono {x : Mem ε α} {P Q : α → Prop} (hx : x.Yields P) (h : ∀ a, P a → Q a) : x.Yields Q :=
  fun a ha => h a (hx a ha)

theorem Yields.deref_bind {o : Option α} {f : α → Mem ε β} {Q : β → Prop} (hf : ∀ v, o = some v → (f v).Yields Q) :
    (deref o >>= f).Yields Q := by
  cases o with
  | some v => exact hf v rfl
  | none => exact Yields.error

theorem Yields.lift_bind {x : Except ε α} {f : α → Mem ε β} {Q : β → Prop}
    (hf : ∀ a, x = .ok a → (f a).Yields Q) : (lift x >>= f).Yields Q := by
  cases x with
  | ok a => exact hf a rfl
  | error e => exact Yields.error

end Mem
