import Mathlib.Data.List.Basic
import Mathlib.Data.List.Perm.Basic

/-!
# The connection cache (`cache.c`)

A hash table that is iterated in the order in which its entries were added: an entry that is found is taken out and
added again, so the first one is the least recently used. The functions return the data that they give up, with which
`free_cb` is called unless it is null.
-/

namespace OutlineServer

structure CacheEntry (κ δ : Type) where
  key : κ
  data : δ
  ts : Nat
deriving DecidableEq

structure Cache (κ δ : Type) where
  max_entries : Nat
  entries : List (CacheEntry κ δ)
deriving DecidableEq

variable {κ δ : Type}

def cache_create (capacity : Nat) : Cache κ δ := ⟨capacity, []⟩

/-- `HASH_ADD_KEYPTR`, and the first entry goes if there are `max_entries`. -/
def cache_insert (now : Nat) (cache : Cache κ δ) (key : κ) (data : δ) : Option δ × Cache κ δ :=
  let entries := cache.entries ++ [⟨key, data, now⟩]
  if cache.max_entries ≤ entries.length then
    (entries.head?.map CacheEntry.data, { cache with entries := entries.tail })
  else
    (none, { cache with entries })

/-- `cache_clear`; `age` and the time since `ts` are signed. -/
def cache_clear (now : Nat) (cache : Cache κ δ) (age : Int) : List δ × Cache κ δ :=
  let old := fun e : CacheEntry κ δ => decide (age < now - e.ts)
  ((cache.entries.filter old).map CacheEntry.data, { cache with entries := cache.entries.filter (!old ·) })

variable [DecidableEq κ]

/-- `HASH_FIND`. -/
def Cache.find (cache : Cache κ δ) (key : κ) : Option (CacheEntry κ δ) := cache.entries.find? (·.key = key)

/-- `HASH_DEL` of the entry that `HASH_FIND` gives. -/
def Cache.del (cache : Cache κ δ) (key : κ) : List (CacheEntry κ δ) := cache.entries.eraseP (·.key = key)

def cache_lookup (now : Nat) (cache : Cache κ δ) (key : κ) : Option δ × Cache κ δ :=
  match cache.find key with
  | some tmp => (some tmp.data, { cache with entries := cache.del key ++ [{ tmp with ts := now }] })
  | none => (none, cache)

def cache_key_exist (now : Nat) (cache : Cache κ δ) (key : κ) : Bool × Cache κ δ :=
  match cache.find key with
  | some tmp => (true, { cache with entries := cache.del key ++ [{ tmp with ts := now }] })
  | none => (false, cache)

def cache_remove (cache : Cache κ δ) (key : κ) : Option δ × Cache κ δ :=
  match cache.find key with
  | some tmp => (some tmp.data, { cache with entries := cache.del key })
  | none => (none, cache)

/-! ### What is cached -/

variable {cache : Cache κ δ} {key : κ} {tmp : CacheEntry κ δ}

def Cache.pairs (cache : Cache κ δ) : List (κ × δ) := cache.entries.map fun e => (e.key, e.data)

/-- What `cache_insert` gives up for a new entry. -/
def Cache.victim (cache : Cache κ δ) : Option δ :=
  if cache.max_entries ≤ cache.entries.length + 1 then cache.entries.head?.map CacheEntry.data else none

theorem Cache.mem_of_find (h : cache.find key = some tmp) : (key, tmp.data) ∈ cache.pairs := by
  have hkey : tmp.key = key := by simpa using List.find?_some h
  rw [← hkey]
  exact List.mem_map_of_mem (List.mem_of_find?_eq_some h)

theorem Cache.not_mem_of_find (h : cache.find key = none) (data : δ) : (key, data) ∉ cache.pairs := by
  intro hmem
  obtain ⟨e, he, heq⟩ := List.mem_map.1 hmem
  cases heq
  have hne := List.find?_eq_none.1 h e he
  simp at hne

theorem Cache.pairs_del (h : cache.find key = some tmp) :
    cache.pairs.Perm ((key, tmp.data) :: ({ cache with entries := cache.del key } : Cache κ δ).pairs) := by
  obtain ⟨hkey, l₁, l₂, hsplit, hne⟩ := List.find?_eq_some_iff_append.1 h
  have hkey : tmp.key = key := by simpa using hkey
  have hdel : cache.del key = l₁ ++ l₂ := by
    rw [del, hsplit, List.eraseP_append_right _ (by simpa using hne), List.eraseP_cons_of_pos (by simpa using hkey)]
  simp only [pairs, hdel, hsplit, List.map_append, List.map_cons, hkey]
  exact List.perm_middle

theorem cache_lookup_fst (now : Nat) (cache : Cache κ δ) (key : κ) :
    (cache_lookup now cache key).1 = (cache.find key).map CacheEntry.data := by
  rw [cache_lookup]
  cases cache.find key <;> rfl

theorem cache_lookup_miss (h : cache.find key = none) (now : Nat) : cache_lookup now cache key = (none, cache) := by
  rw [cache_lookup, h]

theorem cache_lookup_max (now : Nat) (cache : Cache κ δ) (key : κ) :
    (cache_lookup now cache key).2.max_entries = cache.max_entries := by
  rw [cache_lookup]
  cases cache.find key <;> rfl

theorem cache_lookup_pairs (now : Nat) (cache : Cache κ δ) (key : κ) :
    (cache_lookup now cache key).2.pairs.Perm cache.pairs := by
  rw [cache_lookup]
  cases h : cache.find key with
  | none => exact .refl _
  | some tmp =>
    have hkey : tmp.key = key := by simpa using List.find?_some h
    refine .trans ?_ (Cache.pairs_del h).symm
    simp only [Cache.pairs, List.map_append, List.map_cons, List.map_nil, hkey]
    exact List.perm_append_comm

theorem cache_remove_eq (h : cache.find key = some tmp) :
    cache_remove cache key = (some tmp.data, { cache with entries := cache.del key }) := by
  rw [cache_remove, h]

omit [DecidableEq κ] in
/-- The new entry is not the one that goes. -/
theorem cache_insert_pairs (hmax : 2 ≤ cache.max_entries) (now : Nat) (key : κ) (data : δ) :
    (cache_insert now cache key data).1 = cache.victim ∧
      (cache_insert now cache key data).2.max_entries = cache.max_entries ∧
      match cache.victim with
      | none => (cache_insert now cache key data).2.pairs.Perm ((key, data) :: cache.pairs)
      | some v => ∃ k ps, cache.pairs = (k, v) :: ps ∧
          (cache_insert now cache key data).2.pairs.Perm ((key, data) :: ps) := by
  obtain ⟨max_entries, entries⟩ := cache
  dsimp only at hmax
  simp only [cache_insert, Cache.victim, Cache.pairs, List.length_append, List.length_singleton]
  split
  · cases entries with
    | nil =>
      have : max_entries ≤ 1 := ‹_›
      omega
    | cons e es =>
      refine ⟨rfl, rfl, e.key, es.map fun e => (e.key, e.data), rfl, ?_⟩
      simp
  · refine ⟨rfl, rfl, ?_⟩
    simp

end OutlineServer
