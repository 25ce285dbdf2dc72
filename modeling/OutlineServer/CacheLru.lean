import Mathlib.Data.List.ReduceOption
import OutlineServer.Cache
import OutlineServer.Lib.Lru
import OutlineServer.Lib.Trans

/-!
# The cache forgets what was least recently used

An `Lru` with the time of the last use beside the data says what the cache is for: the cache is its items from the last
one to the first (`Refines`). In every run the two return the same and free the same data, and what has been inserted is
in the cache or has been freed once (`cache_refines_lru`). Null data is `none`.
-/

namespace OutlineServer

variable {κ δ ε : Type} {N : Nat}

/-! ### Operations -/

inductive CacheOp (κ ε : Type)
  | insert (key : κ) (data : Option ε)
  | lookup (key : κ)
  | exist (key : κ)
  | remove (key : κ)
  | clear (age : Int)
deriving DecidableEq

/-- `*result` of a lookup, the value of `cache_key_exist`, and the calls of `free_cb`. -/
structure CacheOut (ε : Type) where
  result : Option ε
  exist : Bool
  freed : List ε
deriving DecidableEq

variable [DecidableEq κ]

def CacheOp.run (now : Nat) (cache : Cache κ (Option ε)) : CacheOp κ ε → CacheOut ε × Cache κ (Option ε)
  | .insert key data =>
    let (evicted, cache) := cache_insert now cache key data
    (⟨none, false, evicted.join.toList⟩, cache)
  | .lookup key =>
    let (data, cache) := cache_lookup now cache key
    (⟨data.join, false, []⟩, cache)
  | .exist key =>
    let (found, cache) := cache_key_exist now cache key
    (⟨none, found, []⟩, cache)
  | .remove key =>
    let (removed, cache) := cache_remove cache key
    (⟨none, false, removed.join.toList⟩, cache)
  | .clear age =>
    let (old, cache) := cache_clear now cache age
    (⟨none, false, old.reduceOption⟩, cache)

/-- The data of a key, and when the key was last used. -/
abbrev Recent (κ ε : Type) (N : Nat) := Lru κ (Option ε × Nat) N

/-- What the operations are for. -/
def CacheOp.spec (now : Nat) (L : Recent κ ε N) : CacheOp κ ε → CacheOut ε × Recent κ ε N
  | .insert key data =>
    let (evicted, L) := L.insert key (data, now)
    (⟨none, false, (evicted.bind fun p => p.2.1).toList⟩, L)
  | .lookup key => (⟨(L.get? key).bind Prod.fst, false, []⟩, L.use key fun a => (a.1, now))
  | .exist key => (⟨none, (L.get? key).isSome, []⟩, L.use key fun a => (a.1, now))
  | .remove key => (⟨none, false, ((L.get? key).bind Prod.fst).toList⟩, L.erase key)
  | .clear age =>
    let old := fun p : κ × Option ε × Nat => decide (age < now - p.2.2)
    (⟨none, false, (L.items.reverse.filter old).filterMap fun p => p.2.1⟩, L.restrict (!old ·))

/-- Only absent keys are inserted. -/
def CacheOp.Absent (cache : Cache κ δ) : CacheOp κ ε → Prop
  | .insert key _ => cache.find key = none
  | _ => True

/-! ### The cache and its items -/

omit [DecidableEq κ] in
def CacheEntry.item (e : CacheEntry κ δ) : κ × δ × Nat := (e.key, e.data, e.ts)

/-- The cache has the items, oldest first. -/
structure Refines (cache : Cache κ (Option ε)) (L : Recent κ ε N) : Prop where
  max : cache.max_entries = N
  items : cache.entries.map CacheEntry.item = L.items.reverse

namespace Refines

variable {cache : Cache κ (Option ε)} {L : Recent κ ε N} {key : κ} {tmp : CacheEntry κ (Option ε)}

omit [DecidableEq κ] in
theorem nodup (h : Refines cache L) : (cache.entries.map CacheEntry.key).Nodup := by
  have hkeys : cache.entries.map CacheEntry.key = (L.items.map Prod.fst).reverse := by
    rw [← List.map_reverse, ← h.items, List.map_map]
    rfl
  rw [hkeys]
  exact List.nodup_reverse.2 L.nodup

omit [DecidableEq κ] in
theorem mem_iff (h : Refines cache L) {p : κ × Option ε × Nat} :
    p ∈ L.items ↔ ∃ e ∈ cache.entries, e.item = p := by
  rw [← List.mem_reverse, ← h.items, List.mem_map]

theorem get?_eq (h : Refines cache L) (key : κ) :
    L.get? key = (cache.find key).map fun e => (e.data, e.ts) := by
  cases hf : cache.find key with
  | none =>
    rw [Option.map_none, Dict.get?_eq_none]
    intro hk
    obtain ⟨p, hp, rfl⟩ := List.mem_map.1 hk
    obtain ⟨e, he, rfl⟩ := h.mem_iff.1 hp
    have hne := List.find?_eq_none.1 hf e he
    simp [CacheEntry.item] at hne
  | some e =>
    have hkey : e.key = key := by simpa using List.find?_some hf
    rw [Option.map_some, Dict.get?_eq_some, ← hkey]
    exact h.mem_iff.2 ⟨e, List.mem_of_find?_eq_some hf, rfl⟩

/-- `HASH_DEL` takes out the only entry of a key. -/
theorem del_eq (h : Refines cache L) (key : κ) : (cache.del key).map CacheEntry.item = (L.erase key).items.reverse := by
  have hdel : ∀ es : List (CacheEntry κ (Option ε)), (es.map CacheEntry.key).Nodup →
      es.eraseP (·.key = key) = es.filter (·.key ≠ key) := by
    intro es hnodup
    induction es with
    | nil => rfl
    | cons e es ih =>
      obtain ⟨hfresh, hnodup⟩ := List.nodup_cons.1 hnodup
      by_cases hkey : e.key = key
      · rw [List.eraseP_cons_of_pos (by simpa using hkey), List.filter_cons_of_neg (by simpa using hkey)]
        refine (List.filter_eq_self.2 fun e' he' => ?_).symm
        have hne : e'.key ≠ key := fun he => hfresh (List.mem_map.2 ⟨e', he', he.trans hkey.symm⟩)
        simpa using hne
      · rw [List.eraseP_cons_of_neg (by simpa using hkey), List.filter_cons_of_pos (by simpa using hkey), ih hnodup]
  rw [Cache.del, hdel _ h.nodup]
  change _ = (L.items.filter fun p => p.1 ≠ key).reverse
  rw [← List.filter_reverse, ← h.items, List.filter_map]
  rfl

theorem front_eq (h : Refines cache L) (e : CacheEntry κ (Option ε)) :
    (cache.del e.key ++ [e]).map CacheEntry.item = (L.front e.key (e.data, e.ts)).items.reverse := by
  rw [List.map_append, h.del_eq]
  exact List.reverse_cons.symm

/-- A lookup, or a check, of a key that is there. -/
theorem use (h : Refines cache L) (hf : cache.find key = some tmp) (now : Nat) :
    Refines { cache with entries := cache.del key ++ [{ tmp with ts := now }] } (L.use key fun a => (a.1, now)) where
  max := h.max
  items := by
    have hkey : tmp.key = key := by simpa using List.find?_some hf
    simp only [Lru.use, Dict.use, h.get?_eq, hf, Option.map_some]
    subst hkey
    exact h.front_eq { tmp with ts := now }

theorem use_miss (h : Refines cache L) (hf : cache.find key = none) (f : Option ε × Nat → Option ε × Nat) :
    L.use key f = L := by
  refine Lru.use_of_none ?_ f
  rw [h.get?_eq, hf, Option.map_none]

theorem del_of_find (hf : cache.find key = none) : cache.del key = cache.entries :=
  List.eraseP_of_forall_not fun e he => List.find?_eq_none.1 hf e he

/-- Both make room if there are `N` items. -/
theorem insert (h : Refines cache L) (hf : cache.find key = none) (data : Option ε) (now : Nat) :
    (cache_insert now cache key data).1.join = ((L.insert key (data, now)).1.bind fun p => p.2.1) ∧
      Refines (cache_insert now cache key data).2 (L.insert key (data, now)).2 := by
  have hmax := h.max
  have hitems := h.front_eq ⟨key, data, now⟩
  rw [del_of_find hf] at hitems
  dsimp only at hitems
  have hlen : (cache.entries ++ [CacheEntry.mk key data now]).length = (L.front key (data, now)).items.length := by
    rw [← List.length_map CacheEntry.item, hitems, List.length_reverse]
  simp only [cache_insert, Lru.insert, hmax, hlen]
  split
  · rw [dif_neg (Nat.not_lt.2 ‹_›)]
    refine ⟨?_, rfl, ?_⟩
    · rw [← List.head?_reverse, ← hitems, List.head?_map]
      cases (cache.entries ++ [CacheEntry.mk key data now]).head? <;> rfl
    · rw [← List.tail_reverse, ← hitems, List.map_tail]
  · rw [dif_pos (Nat.not_le.1 ‹_›)]
    exact ⟨rfl, rfl, hitems⟩

omit [DecidableEq κ] in
theorem clear (h : Refines cache L) (now : Nat) (age : Int) :
    (cache_clear now cache age).1.reduceOption =
        (L.items.reverse.filter fun p => decide (age < now - p.2.2)).filterMap (fun p => p.2.1) ∧
      Refines (cache_clear now cache age).2 (L.restrict fun p => !decide (age < now - p.2.2)) := by
  refine ⟨?_, h.max, ?_⟩
  · rw [← h.items, List.filter_map, List.filterMap_map, List.reduceOption, cache_clear, List.filterMap_map]
    rfl
  · simp only [cache_clear, Lru.restrict]
    rw [← List.filter_reverse, ← h.items, List.filter_map]
    rfl

theorem remove (h : Refines cache L) (key : κ) :
    (cache_remove cache key).1.join = (L.get? key).bind Prod.fst ∧
      Refines (cache_remove cache key).2 (L.erase key) := by
  rw [cache_remove, h.get?_eq]
  cases hf : cache.find key with
  | some tmp => exact ⟨rfl, h.max, h.del_eq key⟩
  | none =>
    refine ⟨rfl, h.max, ?_⟩
    rw [← h.del_eq key, del_of_find hf]

end Refines

/-- Every operation does on the cache what it is for. -/
theorem CacheOp.run_refines {cache : Cache κ (Option ε)} {L : Recent κ ε N} (h : Refines cache L) (now : Nat)
    {op : CacheOp κ ε} (hop : op.Absent cache) :
    (op.run now cache).1 = (op.spec now L).1 ∧ Refines (op.run now cache).2 (op.spec now L).2 := by
  cases op with
  | insert key data =>
    obtain ⟨hfreed, hins⟩ := h.insert hop data now
    refine ⟨?_, hins⟩
    simp only [run, spec, hfreed]
  | lookup key =>
    simp only [run, spec, cache_lookup, h.get?_eq]
    cases hf : cache.find key with
    | some tmp => exact ⟨rfl, h.use hf now⟩
    | none =>
      rw [h.use_miss hf]
      exact ⟨rfl, h⟩
  | exist key =>
    simp only [run, spec, cache_key_exist, h.get?_eq]
    cases hf : cache.find key with
    | some tmp => exact ⟨rfl, h.use hf now⟩
    | none =>
      rw [h.use_miss hf]
      exact ⟨rfl, h⟩
  | remove key =>
    obtain ⟨hfreed, hrem⟩ := h.remove key
    refine ⟨?_, hrem⟩
    simp only [run, spec, hfreed]
  | clear age =>
    obtain ⟨hfreed, hclear⟩ := h.clear now age
    refine ⟨?_, hclear⟩
    simp only [run, spec, hfreed]

/-! ### Histories -/

/-- The key that an operation uses, if it is there. -/
def CacheOp.used? : CacheOp κ ε → Option κ
  | .insert key _ | .lookup key | .exist key => some key
  | .remove _ | .clear _ => none

def CacheOp.inserted? : CacheOp κ ε → Option (κ × Option ε)
  | .insert key data => some (key, data)
  | _ => none

/-- Operations with the times at which they were called, the last one first. -/
abbrev History (κ ε : Type) := List (Nat × CacheOp κ ε)

def History.used (hist : History κ ε) : List (κ × Nat) := hist.filterMap fun p => p.2.used?.map (·, p.1)

def History.inserted (hist : History κ ε) : List (κ × Option ε) := hist.filterMap fun p => p.2.inserted?

/-- The items in the order of their last uses, each with the time of its last use and what was last inserted under its
key. -/
structure Remembers (hist : History κ ε) (L : Recent κ ε N) : Prop where
  recency : L.ByRecency (hist.used.map Prod.fst)
  lastUse : ∀ p ∈ L.items, hist.used.lookup p.1 = some p.2.2
  lastInsert : ∀ p ∈ L.items, hist.inserted.lookup p.1 = some p.2.1

namespace Remembers

variable {hist : History κ ε} {L L' : Recent κ ε N}

theorem sublist (h : Remembers hist L) (hs : L'.items.Sublist L.items) : Remembers hist L' where
  recency := h.recency.sublist hs
  lastUse p hp := h.lastUse p (hs.subset hp)
  lastInsert p hp := h.lastInsert p (hs.subset hp)

/-- An operation that uses no key, or one that is not there, and inserts nothing. -/
theorem skip (h : Remembers hist L) (now : Nat) {op : CacheOp κ ε} (hins : op.inserted? = none)
    (hused : ∀ key, op.used? = some key → key ∉ L.keys) : Remembers ((now, op) :: hist) L := by
  have hinserted : History.inserted ((now, op) :: hist) = hist.inserted := by
    simp [History.inserted, hins]
  cases hop : op.used? with
  | none =>
    have heq : History.used ((now, op) :: hist) = hist.used := by
      simp [History.used, hop]
    exact ⟨heq ▸ h.recency, heq ▸ h.lastUse, hinserted ▸ h.lastInsert⟩
  | some key =>
    have heq : History.used ((now, op) :: hist) = (key, now) :: hist.used := by
      simp [History.used, hop]
    refine ⟨?_, fun p hp => ?_, hinserted ▸ h.lastInsert⟩
    · rw [heq]
      exact h.recency.miss (hused key hop)
    · have hne : p.1 ≠ key := fun he => hused key hop (he ▸ Dict.mem_keys_of_mem hp)
      rw [heq, List.lookup_cons, beq_eq_false_iff_ne.2 hne]
      exact h.lastUse p hp

/-- A key that is there is used. -/
theorem use (h : Remembers hist L) (now : Nat) {op : CacheOp κ ε} {key : κ} (hins : op.inserted? = none)
    (hop : op.used? = some key) : Remembers ((now, op) :: hist) (L.use key fun a => (a.1, now)) := by
  cases hget : L.get? key with
  | none =>
    rw [Lru.use_of_none hget]
    refine h.skip now hins fun k hk => ?_
    rw [hop] at hk
    cases hk
    exact Dict.get?_eq_none.1 hget
  | some a =>
    have hitems : (L.use key fun a => (a.1, now)).items = (key, a.1, now) :: (L.toDict.erase key).items :=
      Lru.items_use hget _
    have hused : History.used ((now, op) :: hist) = (key, now) :: hist.used := by
      simp [History.used, hop]
    have hinserted : History.inserted ((now, op) :: hist) = hist.inserted := by
      simp [History.inserted, hins]
    refine ⟨?_, fun p hp => ?_, fun p hp => ?_⟩
    · rw [hused]
      exact h.recency.use key _
    · rw [hitems, List.mem_cons, Dict.mem_erase] at hp
      rw [hused, List.lookup_cons]
      rcases hp with rfl | ⟨hp, hne⟩
      · rw [beq_self_eq_true]
      · rw [beq_eq_false_iff_ne.2 hne]
        exact h.lastUse p hp
    · rw [hitems, List.mem_cons, Dict.mem_erase] at hp
      rw [hinserted]
      rcases hp with rfl | ⟨hp, -⟩
      · exact h.lastInsert (key, a) (Dict.get?_eq_some.1 hget)
      · exact h.lastInsert p hp

theorem insert (h : Remembers hist L) (now : Nat) (key : κ) (data : Option ε) :
    Remembers ((now, .insert key data) :: hist) (L.insert key (data, now)).2 := by
  have hmem : ∀ p ∈ (L.insert key (data, now)).2.items, p ∈ (L.front key (data, now)).items := by
    intro p hp
    rw [Lru.insert] at hp
    split at hp
    · exact hp
    · exact (List.dropLast_sublist _).subset hp
  have hcases : ∀ p ∈ (L.insert key (data, now)).2.items, p = (key, data, now) ∨ p ∈ L.items ∧ p.1 ≠ key := by
    intro p hp
    exact (List.mem_cons.1 (hmem p hp)).imp_right Dict.mem_erase.1
  refine ⟨h.recency.insert key _, fun p hp => ?_, fun p hp => ?_⟩
  · rw [show History.used ((now, .insert key data) :: hist) = (key, now) :: hist.used from rfl, List.lookup_cons]
    rcases hcases p hp with rfl | ⟨hp, hne⟩
    · rw [beq_self_eq_true]
    · rw [beq_eq_false_iff_ne.2 hne]
      exact h.lastUse p hp
  · rw [show History.inserted ((now, .insert key data) :: hist) = (key, data) :: hist.inserted from rfl,
      List.lookup_cons]
    rcases hcases p hp with rfl | ⟨hp, hne⟩
    · rw [beq_self_eq_true]
    · rw [beq_eq_false_iff_ne.2 hne]
      exact h.lastInsert p hp

theorem spec (h : Remembers hist L) (now : Nat) (op : CacheOp κ ε) :
    Remembers ((now, op) :: hist) (op.spec now L).2 := by
  cases op with
  | insert key data => exact h.insert now key data
  | lookup key => exact h.use now rfl rfl
  | exist key => exact h.use now rfl rfl
  | remove key => exact (h.skip now rfl (by simp [CacheOp.used?])).sublist List.filter_sublist
  | clear age => exact (h.skip now rfl (by simp [CacheOp.used?])).sublist List.filter_sublist

end Remembers

/-! ### What becomes of the data -/

def History.data (hist : History κ ε) : List ε := hist.inserted.filterMap Prod.snd

def Recent.data (L : Recent κ ε N) : List ε := L.items.filterMap fun p => p.2.1

theorem filterMap_toList {α β : Type} (f : α → Option β) (o : Option α) : o.toList.filterMap f = (o.bind f).toList := by
  cases o with
  | none => rfl
  | some a => cases h : f a <;> simp [h]

/-- What an operation inserts, and what was there, is there or has been freed. -/
theorem CacheOp.spec_data (now : Nat) {L : Recent κ ε N} (op : CacheOp κ ε)
    (hop : ∀ p ∈ op.inserted?, p.1 ∉ L.keys) :
    (Recent.data (op.spec now L).2 ++ (op.spec now L).1.freed).Perm
      ((op.inserted?.bind Prod.snd).toList ++ Recent.data L) := by
  have huse : ∀ key, (Recent.data (L.use key fun a => (a.1, now))).Perm (Recent.data L) := by
    intro key
    cases hget : L.get? key with
    | none => rw [Lru.use_of_none hget]
    | some a =>
      rw [Recent.data, Lru.items_use hget]
      exact ((Dict.perm_erase hget).symm.filterMap fun p => p.2.1)
  cases op with
  | insert key data =>
    have hperm := (L.insert_perm (hop (key, data) rfl) (data, now)).filterMap fun p => p.2.1
    rw [List.filterMap_append, filterMap_toList, ← List.singleton_append, List.filterMap_append] at hperm
    have hdata : [(key, data, now)].filterMap (fun p => p.2.1) = data.toList := by
      cases data <;> rfl
    rw [hdata] at hperm
    exact hperm
  | lookup key => simpa [spec, inserted?] using huse key
  | exist key => simpa [spec, inserted?] using huse key
  | remove key =>
    simp only [spec, inserted?, Option.bind_none, Option.toList_none, List.nil_append]
    cases hget : L.get? key with
    | none =>
      have herase : L.erase key = L := Lru.ext (congrArg Dict.items (Dict.erase_of_not_mem (Dict.get?_eq_none.1 hget)))
      simp [herase]
    | some a =>
      have hperm := (Dict.perm_erase hget).filterMap fun p => p.2.1
      rw [← List.singleton_append, List.filterMap_append] at hperm
      have hdata : [(key, a)].filterMap (fun p => p.2.1) = ((some a).bind Prod.fst).toList := by
        obtain ⟨data, ts⟩ := a
        cases data <;> rfl
      rw [hdata] at hperm
      exact List.perm_append_comm.trans hperm.symm
  | clear age =>
    simp only [spec, inserted?, Option.bind_none, Option.toList_none, List.nil_append, List.filter_reverse]
    have hold := ((List.reverse_perm (L.items.filter fun p => decide (age < now - p.2.2))).filterMap fun p => p.2.1)
    refine (List.Perm.append_left _ hold).trans ?_
    rw [Recent.data, Lru.restrict, ← List.filterMap_append]
    have hall := List.filter_append_perm (fun p : κ × Option ε × Nat => decide (age < now - p.2.2)) L.items
    exact (List.perm_append_comm.trans hall).filterMap _

/-! ### Runs -/

structure CacheRun (κ ε : Type) where
  cache : Cache κ (Option ε)
  hist : History κ ε
  /-- The calls of `free_cb`. -/
  freed : List ε

def CacheRun.next (r : CacheRun κ ε) (now : Nat) (op : CacheOp κ ε) : CacheRun κ ε where
  cache := (op.run now r.cache).2
  hist := (now, op) :: r.hist
  freed := r.freed ++ (op.run now r.cache).1.freed

/-- A cache of the capacity `N`, used in any way that inserts absent keys only. -/
def cacheLoop (κ ε : Type) [DecidableEq κ] (N : Nat) : Lts (CacheRun κ ε) (Nat × CacheOp κ ε) where
  init r := r = ⟨cache_create N, [], []⟩
  step r e r' := (∀ p ∈ r.hist.head?, p.1 ≤ e.1) ∧ e.2.Absent r.cache ∧ r' = r.next e.1 e.2

/-- What a run keeps, `L` being what the cache is for. -/
structure LruInv (N : Nat) (r : CacheRun κ ε) (L : Recent κ ε N) : Prop where
  refines : Refines r.cache L
  remembers : Remembers r.hist L
  data : (L.data ++ r.freed).Perm r.hist.data

theorem Refines.absent {cache : Cache κ (Option ε)} {L : Recent κ ε N} (h : Refines cache L) {op : CacheOp κ ε}
    (hop : op.Absent cache) : ∀ p ∈ op.inserted?, p.1 ∉ L.keys := by
  intro p hp
  cases op with
  | insert key data =>
    cases hp
    have hfind : cache.find key = none := hop
    rw [← Dict.get?_eq_none, h.get?_eq, hfind, Option.map_none]
  | _ => cases hp

theorem LruInv.step {r : CacheRun κ ε} {L : Recent κ ε N} (h : LruInv N r L) {now : Nat} {op : CacheOp κ ε}
    (hop : op.Absent r.cache) :
    LruInv N (r.next now op) (op.spec now L).2 := by
  obtain ⟨hout, hrefines⟩ := CacheOp.run_refines h.refines now hop
  refine ⟨hrefines, h.remembers.spec now op, ?_⟩
  have hspec := CacheOp.spec_data now op (h.refines.absent hop)
  have hhist : History.data ((now, op) :: r.hist) = (op.inserted?.bind Prod.snd).toList ++ r.hist.data := by
    rw [History.data, ← List.singleton_append, History.inserted, List.filterMap_append, List.filterMap_append,
      ← Option.toList_some, filterMap_toList, filterMap_toList]
    rfl
  simp only [CacheRun.next, hout, hhist]
  calc Recent.data (op.spec now L).2 ++ (r.freed ++ (op.spec now L).1.freed)
    _ |>.Perm (Recent.data (op.spec now L).2 ++ (op.spec now L).1.freed ++ r.freed) := by
      rw [List.append_assoc]
      exact .append_left _ List.perm_append_comm
    _ |>.Perm ((op.inserted?.bind Prod.snd).toList ++ (L.data ++ r.freed)) := by
      rw [← List.append_assoc]
      exact .append_right _ hspec
    _ |>.Perm ((op.inserted?.bind Prod.snd).toList ++ r.hist.data) := .append_left _ h.data

/-- In every run the cache is the list of what it is for, whose items are in the order of their last uses and have what
was last inserted under their keys; every operation returns and frees what it does there, and what has been inserted is
there or has been freed once. -/
theorem cache_refines_lru {N : Nat} (hN : 2 ≤ N) {r : CacheRun κ ε} (h : (cacheLoop κ ε N).Reach r) :
    ∃ L : Recent κ ε N, Refines r.cache L ∧ Remembers r.hist L ∧ (L.data ++ r.freed).Perm r.hist.data ∧
      ∀ (now : Nat) (op : CacheOp κ ε), op.Absent r.cache →
        (op.run now r.cache).1 = (op.spec now L).1 ∧ Refines (op.run now r.cache).2 (op.spec now L).2 := by
  have hinv : ∃ L : Recent κ ε N, LruInv N r L := by
    refine h.invariant (I := fun r => ∃ L : Recent κ ε N, LruInv N r L) ?_ ?_
    · rintro r rfl
      refine ⟨.empty (by omega), ⟨rfl, rfl⟩, ⟨List.Pairwise.nil, ?_, ?_⟩, .refl _⟩
      · simp [Lru.empty, Dict.empty]
      · simp [Lru.empty, Dict.empty]
    · rintro r ⟨now, op⟩ r' - ⟨L, hL⟩ ⟨-, hop, rfl⟩
      exact ⟨_, hL.step hop⟩
  obtain ⟨L, hL⟩ := hinv
  exact ⟨L, hL.refines, hL.remembers, hL.data, fun now op hop => CacheOp.run_refines hL.refines now hop⟩

/-- Of three keys the first one is looked up again; the next insertions take the second one and the third one. -/
theorem cache_refines_lru_four :
    ∃ r : CacheRun Nat Nat, (cacheLoop Nat Nat 3).Reach r ∧ r.freed = [12, 13] ∧
      ∃ L : Recent Nat Nat 3, Refines r.cache L ∧ Remembers r.hist L ∧ (L.data ++ r.freed).Perm r.hist.data ∧
        ∀ (now : Nat) (op : CacheOp Nat Nat), op.Absent r.cache →
          (op.run now r.cache).1 = (op.spec now L).1 ∧ Refines (op.run now r.cache).2 (op.spec now L).2 := by
  have hstep : ∀ {r : CacheRun Nat Nat} (now : Nat) (op : CacheOp Nat Nat), (cacheLoop Nat Nat 3).Reach r →
      (∀ p ∈ r.hist.head?, p.1 ≤ now) → op.Absent r.cache → (cacheLoop Nat Nat 3).Reach (r.next now op) :=
    fun now op h hnow hop => h.step (e := (now, op)) ⟨hnow, hop, rfl⟩
  have h₁ := hstep 0 (.insert 1 (some 11)) (.init rfl) (by simp) rfl
  have h₂ := hstep 1 (.insert 2 (some 12)) h₁ (by simp [CacheRun.next]) rfl
  have h₃ := hstep 2 (.lookup 1) h₂ (by simp [CacheRun.next]) trivial
  have h₄ := hstep 3 (.insert 3 (some 13)) h₃ (by simp [CacheRun.next]) rfl
  have h₅ := hstep 4 (.exist 1) h₄ (by simp [CacheRun.next]) trivial
  have h₆ := hstep 5 (.insert 4 none) h₅ (by simp [CacheRun.next]) rfl
  exact ⟨_, h₆, rfl, cache_refines_lru (by decide) h₆⟩

end OutlineServer
