import Mathlib.Data.List.Nodup

/-!
# Dictionaries in insertion order

A `Dict` is the list of its items with each key once. `set` replaces the value of a key where it stands or
appends it, `erase` takes it out. `get?_set` and `get?_erase` are what the rest is derived from; an item is
found by its key (`mem_items`).
-/

structure Dict (κ ν : Type) where
  items : List (κ × ν)
  nodup : (items.map Prod.fst).Nodup

namespace Dict

variable {κ ν : Type}

theorem ext {d d' : Dict κ ν} (h : d.items = d'.items) : d = d' := by
  cases d
  cases d'
  cases h
  rfl

def empty : Dict κ ν := ⟨[], List.nodup_nil⟩

def keys (d : Dict κ ν) : List κ := d.items.map Prod.fst

theorem mem_keys_of_mem {d : Dict κ ν} {p : κ × ν} (h : p ∈ d.items) : p.1 ∈ d.keys := List.mem_map_of_mem h

theorem eq_of_mem {d : Dict κ ν} {p q : κ × ν} (hp : p ∈ d.items) (hq : q ∈ d.items) (h : p.1 = q.1) : p = q :=
  List.inj_on_of_nodup_map d.nodup hp hq h

variable [DecidableEq κ]

def get? (d : Dict κ ν) (k : κ) : Option ν := (d.items.find? fun p => p.1 = k).map Prod.snd

def getD (d : Dict κ ν) (k : κ) (v : ν) : ν := (d.get? k).getD v

theorem get?_eq_some {d : Dict κ ν} {k : κ} {v : ν} : d.get? k = some v ↔ (k, v) ∈ d.items := by
  constructor
  · intro h
    obtain ⟨p, hp, rfl⟩ := Option.map_eq_some_iff.1 h
    have hk : p.1 = k := by simpa using List.find?_some hp
    exact hk ▸ List.mem_of_find?_eq_some hp
  · intro h
    rw [get?]
    cases hf : d.items.find? fun p => p.1 = k with
    | none =>
      have := List.find?_eq_none.1 hf _ h
      simp at this
    | some p =>
      have hk : p.1 = k := by simpa using List.find?_some hf
      rw [eq_of_mem (List.mem_of_find?_eq_some hf) h hk]
      rfl

theorem get?_eq_none {d : Dict κ ν} {k : κ} : d.get? k = none ↔ k ∉ d.keys := by
  rw [get?, Option.map_eq_none_iff, List.find?_eq_none, keys, List.mem_map]
  constructor
  · rintro h ⟨p, hp, rfl⟩
    have := h p hp
    simp at this
  · intro h p hp
    simp only [decide_eq_true_eq]
    rintro rfl
    exact h ⟨p, hp, rfl⟩

theorem mem_keys {d : Dict κ ν} {k : κ} : k ∈ d.keys ↔ ∃ v, d.get? k = some v := by
  rw [← Option.isSome_iff_exists, Option.isSome_iff_ne_none, ne_eq, get?_eq_none, not_not]

instance (k : κ) (d : Dict κ ν) : Decidable (k ∈ d.keys) := inferInstanceAs (Decidable (k ∈ List.map _ _))

/-- The items after `k` has been given the value `v`. -/
def setItems (k : κ) (v : ν) : List (κ × ν) → List (κ × ν)
  | [] => [(k, v)]
  | p :: ps => if p.1 = k then (k, v) :: ps else p :: setItems k v ps

theorem keys_setItems (k : κ) (v : ν) (ps : List (κ × ν)) :
    (setItems k v ps).map Prod.fst =
      if k ∈ ps.map Prod.fst then ps.map Prod.fst else ps.map Prod.fst ++ [k] := by
  induction ps with
  | nil => rfl
  | cons p ps ih =>
    rw [setItems]
    by_cases hp : p.1 = k
    · simp [hp]
    · rw [if_neg hp, List.map_cons, ih, List.map_cons]
      by_cases hk : k ∈ ps.map Prod.fst
      · rw [if_pos hk, if_pos (List.mem_cons_of_mem _ hk)]
      · rw [if_neg hk, if_neg (fun h => (List.mem_cons.1 h).elim (fun h => hp h.symm) hk), List.cons_append]

def set (d : Dict κ ν) (k : κ) (v : ν) : Dict κ ν where
  items := setItems k v d.items
  nodup := by
    rw [keys_setItems]
    split
    · exact d.nodup
    · rename_i hk
      exact List.Nodup.append d.nodup (List.nodup_singleton k) (by simpa using hk)

theorem keys_set (d : Dict κ ν) (k : κ) (v : ν) :
    (d.set k v).keys = if k ∈ d.keys then d.keys else d.keys ++ [k] := keys_setItems k v d.items

@[simp] theorem mem_keys_set {d : Dict κ ν} {k k' : κ} {v : ν} : k' ∈ (d.set k v).keys ↔ k' = k ∨ k' ∈ d.keys := by
  rw [keys_set]
  split
  · rename_i hk
    exact ⟨.inr, fun h => h.elim (fun h => h ▸ hk) id⟩
  · simp [or_comm]

theorem find?_setItems (k k' : κ) (v : ν) (ps : List (κ × ν)) :
    (setItems k v ps).find? (fun p => p.1 = k') =
      if k' = k then some (k, v) else ps.find? fun p => p.1 = k' := by
  induction ps with
  | nil =>
    by_cases h : k' = k
    · simp [setItems, h]
    · have h' : ¬ k = k' := fun hk => h hk.symm
      simp [setItems, h, h']
  | cons p ps ih =>
    rw [setItems]
    by_cases hp : p.1 = k
    · rw [if_pos hp]
      by_cases h : k' = k
      · simp [h]
      · have h' : ¬ k = k' := fun hk => h hk.symm
        simp [h, h', hp]
    · rw [if_neg hp]
      by_cases hp' : p.1 = k'
      · have h : ¬ k' = k := fun hk => hp (hp'.trans hk)
        simp [hp', h]
      · rw [List.find?_cons_of_neg (by simpa using hp'), ih, List.find?_cons_of_neg (by simpa using hp')]

theorem get?_set (d : Dict κ ν) (k k' : κ) (v : ν) :
    (d.set k v).get? k' = if k' = k then some v else d.get? k' := by
  rw [get?, set, find?_setItems]
  split <;> rfl

@[simp] theorem get?_set_self (d : Dict κ ν) (k : κ) (v : ν) : (d.set k v).get? k = some v := by
  rw [get?_set, if_pos rfl]

theorem items_set_of_new {d : Dict κ ν} {k : κ} {v : ν} (h : d.get? k = none) :
    (d.set k v).items = d.items ++ [(k, v)] := by
  have hk : k ∉ d.items.map Prod.fst := get?_eq_none.1 h
  show setItems k v d.items = _
  revert hk
  generalize d.items = ps
  intro hk
  induction ps with
  | nil => rfl
  | cons p ps ih =>
    rw [List.map_cons, List.mem_cons, not_or] at hk
    rw [setItems, if_neg (Ne.symm hk.1), ih hk.2]
    rfl

def erase (d : Dict κ ν) (k : κ) : Dict κ ν where
  items := d.items.filter fun p => p.1 ≠ k
  nodup := d.nodup.sublist (List.filter_sublist.map _)

theorem mem_erase {d : Dict κ ν} {k : κ} {p : κ × ν} : p ∈ (d.erase k).items ↔ p ∈ d.items ∧ p.1 ≠ k := by
  simp [erase]

@[simp] theorem mem_keys_erase {d : Dict κ ν} {k k' : κ} : k' ∈ (d.erase k).keys ↔ k' ∈ d.keys ∧ k' ≠ k := by
  simp only [keys, List.mem_map, mem_erase]
  constructor
  · rintro ⟨p, ⟨hp, hk⟩, rfl⟩
    exact ⟨⟨p, hp, rfl⟩, hk⟩
  · rintro ⟨⟨p, hp, rfl⟩, hk⟩
    exact ⟨p, ⟨hp, hk⟩, rfl⟩

theorem get?_erase (d : Dict κ ν) (k k' : κ) : (d.erase k).get? k' = if k' = k then none else d.get? k' := by
  split
  · rename_i h
    rw [get?_eq_none, mem_keys_erase]
    exact fun hk => hk.2 h
  · rename_i h
    refine Option.ext fun v => ?_
    rw [get?_eq_some, get?_eq_some, mem_erase]
    exact ⟨And.left, fun hp => ⟨hp, h⟩⟩

/-- A literal: a key given twice keeps its place and has the last value. -/
def ofList (items : List (κ × ν)) : Dict κ ν := items.foldl (fun d p => d.set p.1 p.2) empty

end Dict
