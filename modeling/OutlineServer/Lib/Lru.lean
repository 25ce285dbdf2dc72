import OutlineServer.Lib.Dict

/-!
# Maps that forget what was least recently used

An `Lru κ α N` is a dictionary of fewer than `N` items, the most recent one first: to use a key brings it to the front,
and an insertion that makes `N` items drops the last one. `L.ByRecency uses` says that the items are in the order of
their last uses, for a history `uses` of the used keys.
-/

namespace Dict

variable {κ α : Type} [DecidableEq κ] {d : Dict κ α} {k : κ}

/-- The items with `k` in front. -/
def front (d : Dict κ α) (k : κ) (a : α) : Dict κ α where
  items := (k, a) :: (d.erase k).items
  nodup := List.nodup_cons.2 ⟨fun h => (mem_keys_erase.1 h).2 rfl, (d.erase k).nodup⟩

/-- The value of a key is changed by `f`. -/
def use (d : Dict κ α) (k : κ) (f : α → α) : Dict κ α :=
  match d.get? k with
  | none => d
  | some a => d.front k (f a)

theorem erase_of_not_mem (h : k ∉ d.keys) : d.erase k = d := by
  refine ext (List.filter_eq_self.2 fun p hp => ?_)
  have : p.1 ≠ k := fun hk => h (hk ▸ mem_keys_of_mem hp)
  simpa using this

theorem perm_erase {a : α} (h : d.get? k = some a) : d.items.Perm ((k, a) :: (d.erase k).items) := by
  obtain ⟨s, t, hst⟩ := List.append_of_mem (get?_eq_some.1 h)
  have hfresh : ∀ p ∈ s ++ t, p.1 ≠ k := by
    have hnodup := (List.perm_middle.map Prod.fst).nodup_iff.1 (hst ▸ d.nodup)
    intro p hp hk
    exact (List.nodup_cons.1 hnodup).1 (List.mem_map.2 ⟨p, hp, hk⟩)
  have herase : (d.erase k).items = s ++ t := by
    have hs : s.filter (fun p => p.1 ≠ k) = s :=
      List.filter_eq_self.2 fun p hp => by simpa using hfresh p (List.mem_append_left t hp)
    have ht : t.filter (fun p => p.1 ≠ k) = t :=
      List.filter_eq_self.2 fun p hp => by simpa using hfresh p (List.mem_append_right s hp)
    change d.items.filter (fun p => p.1 ≠ k) = _
    rw [hst, List.filter_append, hs, List.filter_cons_of_neg (by simp), ht]
  rw [hst, herase]
  exact List.perm_middle

theorem length_use_le (d : Dict κ α) (k : κ) (f : α → α) : (d.use k f).items.length ≤ d.items.length := by
  rw [use]
  cases h : d.get? k with
  | none => exact Nat.le_refl _
  | some a => exact Nat.le_of_eq (perm_erase h).length_eq.symm

end Dict

structure Lru (κ α : Type) (N : Nat) extends Dict κ α where
  room : items.length < N

namespace Lru

variable {κ α : Type} {N : Nat}

theorem ext {L L' : Lru κ α N} (h : L.items = L'.items) : L = L' := by
  cases L
  cases L'
  cases Dict.ext h
  rfl

def empty (hN : 0 < N) : Lru κ α N := ⟨.empty, hN⟩

/-- What is left of the items. -/
def restrict (L : Lru κ α N) (p : κ × α → Bool) : Lru κ α N where
  items := L.items.filter p
  nodup := L.nodup.sublist (List.filter_sublist.map _)
  room := Nat.lt_of_le_of_lt (List.length_filter_le p L.items) L.room

variable [DecidableEq κ]

def use (L : Lru κ α N) (k : κ) (f : α → α) : Lru κ α N :=
  ⟨L.toDict.use k f, Nat.lt_of_le_of_lt (L.toDict.length_use_le k f) L.room⟩

def erase (L : Lru κ α N) (k : κ) : Lru κ α N :=
  ⟨L.toDict.erase k, Nat.lt_of_le_of_lt (List.length_filter_le _ L.items) L.room⟩

theorem use_of_none {L : Lru κ α N} {k : κ} (h : L.get? k = none) (f : α → α) : L.use k f = L := by
  refine ext ?_
  simp only [use, Dict.use, h]

theorem items_use {L : Lru κ α N} {k : κ} {a : α} (h : L.get? k = some a) (f : α → α) :
    (L.use k f).items = (k, f a) :: (L.erase k).items := by
  simp only [use, Dict.use, h]
  rfl

theorem length_front_le (L : Lru κ α N) (k : κ) (a : α) : (L.front k a).items.length ≤ N :=
  Nat.le_trans (Nat.succ_le_succ (List.length_filter_le _ L.items)) L.room

/-- The least recently used item goes if there are `N`. -/
def insert (L : Lru κ α N) (k : κ) (a : α) : Option (κ × α) × Lru κ α N :=
  if h : (L.front k a).items.length < N then
    (none, ⟨L.front k a, h⟩)
  else
    ((L.front k a).items.getLast?,
      { items := (L.front k a).items.dropLast
        nodup := (L.front k a).nodup.sublist ((List.dropLast_sublist _).map _)
        room := by
          have hle := L.length_front_le k a
          have hpos : 0 < (L.front k a).items.length := Nat.succ_pos _
          rw [List.length_dropLast]
          omega })

/-- What is inserted is kept, or given up. -/
theorem insert_perm (L : Lru κ α N) {k : κ} (hk : k ∉ L.keys) (a : α) :
    ((L.insert k a).2.items ++ (L.insert k a).1.toList).Perm ((k, a) :: L.items) := by
  have hitems : (L.front k a).items = (k, a) :: L.items := by
    change (k, a) :: (L.toDict.erase k).items = _
    rw [Dict.erase_of_not_mem hk]
  rw [insert]
  split
  · rw [Option.toList_none, List.append_nil, hitems]
  · have hne : (L.front k a).items ≠ [] := List.cons_ne_nil _ _
    simp only [List.getLast?_eq_getLast_of_ne_nil hne, Option.toList_some]
    rw [List.dropLast_append_getLast hne, hitems]

/-! ### Recency -/

/-- `uses` starts with the last one. -/
def ByRecency (L : Lru κ α N) (uses : List κ) : Prop :=
  L.items.Pairwise fun p q => uses.idxOf p.1 < uses.idxOf q.1

variable {L L' : Lru κ α N} {uses : List κ} {k : κ}

theorem ByRecency.sublist (h : L.ByRecency uses) (hs : L'.items.Sublist L.items) : L'.ByRecency uses :=
  List.Pairwise.sublist hs h

/-- A use of another key. -/
theorem idxOf_cons_lt {k₁ k₂ : κ} (h₁ : k₁ ≠ k) (h₂ : k₂ ≠ k) (h : uses.idxOf k₁ < uses.idxOf k₂) :
    (k :: uses).idxOf k₁ < (k :: uses).idxOf k₂ := by
  rw [List.idxOf_cons_ne _ h₁.symm, List.idxOf_cons_ne _ h₂.symm]
  exact Nat.succ_lt_succ h

theorem ByRecency.miss (h : L.ByRecency uses) (hk : k ∉ L.keys) : L.ByRecency (k :: uses) := by
  refine List.Pairwise.imp_of_mem (fun hp hq hpq => ?_) h
  exact idxOf_cons_lt (fun he => hk (he ▸ Dict.mem_keys_of_mem hp)) (fun he => hk (he ▸ Dict.mem_keys_of_mem hq)) hpq

theorem ByRecency.front (h : L.ByRecency uses) (k : κ) (a : α) :
    (L.front k a).items.Pairwise fun p q => (k :: uses).idxOf p.1 < (k :: uses).idxOf q.1 := by
  refine List.pairwise_cons.2 ⟨fun p hp => ?_, ?_⟩
  · rw [List.idxOf_cons_self, List.idxOf_cons_ne _ (Dict.mem_erase.1 hp).2.symm]
    exact Nat.succ_pos _
  · refine List.Pairwise.imp_of_mem (fun hp hq hpq => ?_) (List.Pairwise.sublist List.filter_sublist h)
    exact idxOf_cons_lt (Dict.mem_erase.1 hp).2 (Dict.mem_erase.1 hq).2 hpq

theorem ByRecency.use (h : L.ByRecency uses) (k : κ) (f : α → α) : (L.use k f).ByRecency (k :: uses) := by
  simp only [ByRecency, Lru.use, Dict.use]
  cases hk : L.get? k with
  | none => exact h.miss (Dict.get?_eq_none.1 hk)
  | some a => exact h.front k (f a)

theorem ByRecency.insert (h : L.ByRecency uses) (k : κ) (a : α) : (L.insert k a).2.ByRecency (k :: uses) := by
  rw [Lru.insert]
  split
  · exact h.front k a
  · exact List.Pairwise.sublist (List.dropLast_sublist _) (h.front k a)

end Lru
