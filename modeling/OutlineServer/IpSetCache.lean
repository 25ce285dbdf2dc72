import OutlineServer.Lib.Bdd
import OutlineServer.IpSet
import Mathlib.Data.List.Perm.Basic
import Mathlib.Data.List.Perm.Subperm
import Mathlib.Data.List.Range

/-!
# The node cache

`Cached` is the invariant of a node cache: the hash table has the nodes, each with as many references as other nodes and
the holders `refs` have, and everything else is on the free list. While `ipset_node_decref` takes a node apart, the
node is `dying`: nobody refers to it, and its children belong to the callers. `Rep` says which decision diagram an ID
stands for.
-/

namespace OutlineServer.Ipset

/-! ### Trees -/

def NodeCache.content (cache : NodeCache) (i : Nat) : Option Content :=
  match cache.slots[i]? with
  | some (.node _ k) => some k
  | _ => none

/-- The tree of an ID, when the nodes have the contents `m`. -/
inductive Rep (m : Nat → Option Content) : NodeId → Bdd Nat → Prop
  | terminal (v : Nat) : Rep m (.terminal v) (.leaf v)
  | nonterminal {i : Nat} {k : Content} {lo hi : Bdd Nat} (content : m i = some k) (low : Rep m k.low lo)
      (high : Rep m k.high hi) : Rep m (.nonterminal i) (.node k.var lo hi)

section
variable {m m' : Nat → Option Content} {x y : NodeId} {t t' : Bdd Nat}

theorem Rep.unique (h : Rep m x t) (h' : Rep m x t') : t = t' := by
  induction h generalizing t' with
  | terminal v =>
    cases h'
    rfl
  | nonterminal content _ _ ihl ihh =>
    cases h' with
    | nonterminal content' low' high' =>
      obtain rfl := Option.some.inj (content.symm.trans content')
      rw [ihl low', ihh high']

theorem Rep.mono (h : Rep m x t) (hm : ∀ i k, m i = some k → m' i = some k) : Rep m' x t := by
  induction h with
  | terminal v => exact .terminal v
  | nonterminal content _ _ ihl ihh => exact .nonterminal (hm _ _ content) ihl ihh

/-- No two nodes have the same contents. -/
def Shared (m : Nat → Option Content) : Prop := ∀ i j k, m i = some k → m j = some k → i = j

theorem Rep.inj (hm : Shared m) (h : Rep m x t) (h' : Rep m y t) : x = y := by
  induction h generalizing y with
  | terminal v =>
    cases h'
    rfl
  | @nonterminal i k lo hi content _ _ ihl ihh =>
    obtain ⟨j, k', rfl, hcontent', hvar, hlow', hhigh'⟩ : ∃ j k', y = .nonterminal j ∧ m j = some k' ∧ k'.var = k.var ∧
        Rep m k'.low lo ∧ Rep m k'.high hi := by
      generalize ht : Bdd.node k.var lo hi = t at h'
      cases h' with
      | terminal v => cases ht
      | @nonterminal j k' lo' hi' content' low' high' =>
        injection ht with hv hl hh
        subst hl hh
        exact ⟨j, k', rfl, content', hv.symm, low', high'⟩
    have hk : k = k' := Content.ext hvar.symm (ihl hlow') (ihh hhigh')
    subst hk
    rw [hm i j k content hcontent']

/-- The nodes on a longest path. -/
theorem Rep.exists_path {n : Nat} (h : Rep m x t) (hr : t.Robdd n) :
    ∃ is : List Nat, is.length = t.height ∧ is.Nodup ∧ ∀ i ∈ is, ∃ k, m i = some k ∧ n ≤ k.var := by
  induction h generalizing n with
  | terminal v => exact ⟨[], rfl, List.nodup_nil, by simp⟩
  | @nonterminal i k lo hi content _ _ ihl ihh =>
    cases hr with
    | node le low high ne =>
      obtain ⟨is, hlen, hnodup, hvars⟩ : ∃ is : List Nat, is.length = max lo.height hi.height ∧ is.Nodup ∧
          ∀ i ∈ is, ∃ k', m i = some k' ∧ k.var + 1 ≤ k'.var := by
        rcases Nat.le_total lo.height hi.height with hle | hle
        · obtain ⟨is, hlen, his⟩ := ihh high
          exact ⟨is, by omega, his⟩
        · obtain ⟨is, hlen, his⟩ := ihl low
          exact ⟨is, by omega, his⟩
      refine ⟨i :: is, by rw [List.length_cons, hlen, Bdd.height], List.nodup_cons.2 ⟨fun hi => ?_, hnodup⟩, ?_⟩
      · obtain ⟨k', hk', hlt⟩ := hvars i hi
        obtain rfl := Option.some.inj (content.symm.trans hk')
        omega
      · refine List.forall_mem_cons.2 ⟨⟨k, content, le⟩, fun j hj => ?_⟩
        obtain ⟨k', hk', hlt⟩ := hvars j hj
        exact ⟨k', hk', by omega⟩

end

theorem NodeCache.lt_of_content {cache : NodeCache} {i : Nat} {k : Content} (h : cache.content i = some k) :
    i < cache.slots.length := by
  by_contra hlt
  rw [content, List.getElem?_eq_none (by omega)] at h
  cases h

/-- The recursion over a tree does not run out. -/
theorem Rep.height_le {cache : NodeCache} {x : NodeId} {t : Bdd Nat} {n : Nat} (h : Rep cache.content x t)
    (hr : t.Robdd n) : t.height ≤ cache.slots.length := by
  obtain ⟨is, hlen, hnodup, hvars⟩ := h.exists_path hr
  have hsub : is ⊆ List.range cache.slots.length := by
    intro i hi
    obtain ⟨k, hk, -⟩ := hvars i hi
    exact List.mem_range.2 (cache.lt_of_content hk)
  have hle := (hnodup.subperm hsub).length_le
  rwa [hlen, List.length_range] at hle

/-! ### References -/

/-- A node and its index. -/
abbrev Entry := Content × Nat

def Entry.item (e : Entry) : Content × NodeId := (e.1, .nonterminal e.2)

/-- The references from the nodes. -/
def edges (es : List Entry) : List NodeId := es.flatMap fun e => [e.1.low, e.1.high]

/-- How often a node is referred to. -/
def refCount (live : List Entry) (refs : List NodeId) (i : Nat) : Nat := (edges live ++ refs).count (.nonterminal i)

theorem edges_cons (e : Entry) (es : List Entry) : edges (e :: es) = e.1.low :: e.1.high :: edges es := rfl

theorem edges_perm {es es' : List Entry} (h : es.Perm es') : (edges es).Perm (edges es') := h.flatMap_right _

theorem refCount_perm {live live' : List Entry} {refs refs' : List NodeId}
    (h : (edges live ++ refs).Perm (edges live' ++ refs')) (i : Nat) : refCount live refs i = refCount live' refs' i :=
  h.count_eq _

theorem refCount_cons (live : List Entry) (x : NodeId) (refs : List NodeId) (i : Nat) :
    refCount live (x :: refs) i = refCount live refs i + if x = .nonterminal i then 1 else 0 := by
  simp [refCount, List.count_cons, Nat.add_assoc]

@[simp] theorem refCount_terminal (live : List Entry) (v : Nat) (refs : List NodeId) :
    refCount live (.terminal v :: refs) = refCount live refs := by
  funext i
  rw [refCount_cons, if_neg nofun, Nat.add_zero]

/-- The free indices, in order. -/
def FreeList (slots : List Slot) : Option Nat → List Nat → Prop
  | first, [] => first = none
  | first, i :: is => first = some i ∧ ∃ next, slots[i]? = some (.free next) ∧ FreeList slots next is

theorem FreeList.congr {slots slots' : List Slot} {first : Option Nat} {is : List Nat} (h : FreeList slots first is)
    (hs : ∀ i ∈ is, slots'[i]? = slots[i]?) : FreeList slots' first is := by
  induction is generalizing first with
  | nil => exact h
  | cons i is ih =>
    obtain ⟨hfirst, next, hnext, his⟩ := h
    exact ⟨hfirst, next, (hs i List.mem_cons_self).trans hnext, ih his fun j hj => hs j (List.mem_cons_of_mem _ hj)⟩

/-- The free list is complete. -/
def FreeAll (slots : List Slot) (first : Option Nat) : Prop :=
  ∃ is, FreeList slots first is ∧ is.Nodup ∧ ∀ i, i ∈ is ↔ ∃ next, slots[i]? = some (.free next)

structure Cached (cache : NodeCache) (live dying : List Entry) (refs : List NodeId) : Prop where
  table : cache.node_cache.items.Perm ((live ++ dying).map Entry.item)
  nodup : ((live ++ dying).map Prod.snd).Nodup
  slot : ∀ i r k, cache.slots[i]? = some (.node r k) ↔ (k, i) ∈ live ++ dying ∧ r = refCount live refs i
  held : ∀ e ∈ live, 0 < refCount live refs e.2
  closed : ∀ i, 0 < refCount live refs i → ∃ k, (k, i) ∈ live
  /-- The children are later variables. -/
  later : ∀ e ∈ live, ∀ e' ∈ live, e.1.low = .nonterminal e'.2 ∨ e.1.high = .nonterminal e'.2 → e.1.var < e'.1.var
  free : FreeAll cache.slots cache.free_list

namespace Cached

variable {cache cache' : NodeCache} {live dying live' dying' : List Entry} {refs refs' : List NodeId} {x : NodeId}
  {t : Bdd Nat} {i : Nat} {k : Content}

theorem content_iff (h : Cached cache live dying refs) : cache.content i = some k ↔ (k, i) ∈ live ++ dying := by
  rw [NodeCache.content]
  constructor
  · intro hk
    split at hk
    · rename_i r k' hslot
      cases hk
      exact ((h.slot i r k).1 hslot).1
    · cases hk
  · intro hmem
    rw [(h.slot i _ k).2 ⟨hmem, rfl⟩]

theorem get (h : Cached cache live dying refs) (hmem : (k, i) ∈ live ++ dying) :
    ipset_node_cache_get_nonterminal cache i = .ok (refCount live refs i, k) := by
  rw [ipset_node_cache_get_nonterminal, (h.slot i _ k).2 ⟨hmem, rfl⟩]

theorem of_content (h : cache.content i = some k) : ∃ r, ipset_node_cache_get_nonterminal cache i = .ok (r, k) := by
  rw [NodeCache.content] at h
  split at h
  · rename_i r k' hslot
    cases h
    exact ⟨r, by rw [ipset_node_cache_get_nonterminal, hslot]⟩
  · cases h

theorem eq_of_index (h : Cached cache live dying refs) {k' : Content} (hk : (k, i) ∈ live ++ dying)
    (hk' : (k', i) ∈ live ++ dying) : k = k' := by
  rw [← h.content_iff] at hk hk'
  exact Option.some.inj (hk.symm.trans hk')

theorem shared (h : Cached cache live dying refs) : Shared cache.content := by
  intro i j k hi hj
  rw [h.content_iff] at hi hj
  have hitem : ∀ {i}, (k, i) ∈ live ++ dying → (k, NodeId.nonterminal i) ∈ cache.node_cache.items := fun hmem =>
    h.table.mem_iff.2 (List.mem_map_of_mem hmem)
  have heq := Dict.eq_of_mem (hitem hi) (hitem hj) rfl
  injection heq with _ hij
  exact NodeId.nonterminal.inj hij

theorem perm (h : Cached cache live dying refs) (hlive : live.Perm live') (hrefs : refs.Perm refs') :
    Cached cache live' dying refs' := by
  have hcount : ∀ i, refCount live refs i = refCount live' refs' i := refCount_perm ((edges_perm hlive).append hrefs)
  have hmem : ∀ e, e ∈ live ++ dying ↔ e ∈ live' ++ dying := fun e => (hlive.append_right dying).mem_iff
  refine ⟨h.table.trans ((hlive.append_right dying).map _), ((hlive.append_right dying).map _).nodup_iff.1 h.nodup,
    fun i r k => ?_, fun e he => ?_, fun i hi => ?_, fun e he e' he' => ?_, h.free⟩
  · rw [h.slot, hmem, hcount]
  · rw [← hcount]
    exact h.held e (hlive.mem_iff.2 he)
  · rw [← hcount] at hi
    obtain ⟨k, hk⟩ := h.closed i hi
    exact ⟨k, hlive.mem_iff.1 hk⟩
  · exact h.later e (hlive.mem_iff.2 he) e' (hlive.mem_iff.2 he')

/-- Holders of terminals do not count. -/
theorem of_terminal {v : Nat} (h : Cached cache live dying (.terminal v :: refs)) : Cached cache live dying refs := by
  obtain ⟨htable, hnodup, hslot, hheld, hclosed, hlater, hfree⟩ := h
  rw [refCount_terminal] at hslot hheld hclosed
  exact ⟨htable, hnodup, hslot, hheld, hclosed, hlater, hfree⟩

theorem terminal (v : Nat) (h : Cached cache live dying refs) : Cached cache live dying (.terminal v :: refs) := by
  obtain ⟨htable, hnodup, hslot, hheld, hclosed, hlater, hfree⟩ := h
  rw [← refCount_terminal live v] at hslot hheld hclosed
  exact ⟨htable, hnodup, hslot, hheld, hclosed, hlater, hfree⟩

/-- A new reference count. -/
theorem put (h : Cached cache live dying refs) (hmem : (k, i) ∈ live ++ dying) (live' dying' : List Entry)
    (refs' : List NodeId) (hperm : (live' ++ dying').Perm (live ++ dying)) (hsub : ∀ e ∈ live', e ∈ live)
    (hcount : ∀ j ≠ i, refCount live' refs' j = refCount live refs j)
    (hheld : ∀ e ∈ live', 0 < refCount live' refs' e.2)
    (hclosed : ∀ j, 0 < refCount live' refs' j → ∃ k, (k, j) ∈ live') :
    Cached (cache.put i (.node (refCount live' refs' i) k)) live' dying' refs' := by
  have hlt : i < cache.slots.length := cache.lt_of_content (h.content_iff.2 hmem)
  have hold : cache.slots[i]? = some (.node (refCount live refs i) k) := (h.slot i _ k).2 ⟨hmem, rfl⟩
  refine ⟨h.table.trans (hperm.symm.map _), ((hperm.map _).nodup_iff).2 h.nodup, fun j r k' => ?_, hheld, hclosed,
    fun e he e' he' => h.later e (hsub e he) e' (hsub e' he'), ?_⟩
  · rw [hperm.mem_iff]
    by_cases hj : j = i
    · subst j
      rw [NodeCache.put, List.getElem?_set_self hlt, Option.some.injEq, Slot.node.injEq]
      constructor
      · rintro ⟨rfl, rfl⟩
        exact ⟨hmem, rfl⟩
      · rintro ⟨hk', rfl⟩
        exact ⟨rfl, h.eq_of_index hmem hk'⟩
    · rw [NodeCache.put, List.getElem?_set_ne (Ne.symm hj), h.slot, hcount j hj]
  · obtain ⟨is, hfree, hnodup, hall⟩ := h.free
    have hne : i ∉ is := by
      intro hi
      obtain ⟨next, hnext⟩ := (hall i).1 hi
      rw [hold] at hnext
      cases hnext
    refine ⟨is, hfree.congr fun j hj => List.getElem?_set_ne fun hij => hne (by rwa [hij]), hnodup, fun j => ?_⟩
    rw [hall]
    by_cases hj : j = i
    · subst j
      rw [NodeCache.put, List.getElem?_set_self hlt, hold]
      constructor <;> rintro ⟨next, hnext⟩ <;> cases hnext
    · rw [NodeCache.put, List.getElem?_set_ne (Ne.symm hj)]

end Cached

theorem NodeCache.content_put {cache : NodeCache} {i : Nat} {k : Content} (h : cache.content i = some k) (r : Nat) :
    (cache.put i (.node r k)).content = cache.content := by
  have hlt := cache.lt_of_content h
  funext j
  by_cases hj : j = i
  · subst j
    rw [h, content, put, List.getElem?_set_self hlt]
  · rw [content, content, put, List.getElem?_set_ne (Ne.symm hj)]

/-! ### Counting -/

section
variable {cache cache' : NodeCache} {live dying : List Entry} {refs : List NodeId} {x : NodeId} {t : Bdd Nat}

/-- The nodes stay, and there are at most `n` more slots. -/
structure Grows (n : Nat) (cache cache' : NodeCache) : Prop where
  length_le : cache.slots.length ≤ cache'.slots.length
  le_length_add : cache'.slots.length ≤ cache.slots.length + n
  content : ∀ i k, cache.content i = some k → cache'.content i = some k

theorem Grows.refl (cache : NodeCache) : Grows 0 cache cache := ⟨Nat.le_refl _, Nat.le_refl _, fun _ _ h => h⟩

theorem Grows.trans {n m : Nat} {cache'' : NodeCache} (h : Grows n cache cache') (h' : Grows m cache' cache'') :
    Grows (n + m) cache cache'' := by
  refine ⟨Nat.le_trans h.length_le h'.length_le, ?_, fun i k hk => h'.content i k (h.content i k hk)⟩
  have hn := h.le_length_add
  have hm := h'.le_length_add
  omega

theorem Grows.mono {n m : Nat} (h : Grows n cache cache') (hnm : n ≤ m) : Grows m cache cache' :=
  ⟨h.length_le, Nat.le_trans h.le_length_add (Nat.add_le_add_left hnm _), h.content⟩

theorem Grows.rep {n : Nat} (h : Grows n cache cache') (hx : Rep cache.content x t) : Rep cache'.content x t :=
  hx.mono h.content

theorem NodeCache.length_put (cache : NodeCache) (i : Nat) (slot : Slot) :
    (cache.put i slot).slots.length = cache.slots.length := List.length_set ..

theorem NodeCache.grows_put {i : Nat} {k : Content} (h : cache.content i = some k) (r : Nat) :
    Grows 0 cache (cache.put i (.node r k)) := by
  refine ⟨(cache.length_put i _).ge, (cache.length_put i _).le, fun j k' hk' => ?_⟩
  rwa [cache.content_put h]

theorem Cached.pos_of_mem (hx : x ∈ edges live ++ refs) {i : Nat} (hi : x = .nonterminal i) :
    0 < refCount live refs i :=
  List.count_pos_iff.2 (hi ▸ hx)

theorem ipset_node_incref_spec (h : Cached cache live [] refs) (hx : Rep cache.content x t) :
    ∃ cache', ipset_node_incref cache x = .ok cache' ∧ Cached cache' live [] (x :: refs) ∧ Grows 0 cache cache' := by
  cases hx with
  | terminal v => exact ⟨cache, rfl, h.terminal v, .refl cache⟩
  | @nonterminal i k lo hi content low high =>
    have hmem := h.content_iff.1 content
    rw [ipset_node_incref, h.get hmem, M.ok_bind]
    have hcount := refCount_cons live (.nonterminal i) refs
    refine ⟨_, rfl, ?_, cache.grows_put content _⟩
    have hput := h.put hmem live [] (.nonterminal i :: refs) (.refl _) (fun _ he => he)
      (fun j hj => by rw [hcount, if_neg (fun hij => hj (NodeId.nonterminal.inj hij).symm), Nat.add_zero])
      (fun e he => by
        have hpos := h.held e he
        rw [hcount]
        omega)
      (fun j hj => by
        rw [hcount] at hj
        split at hj
        · rename_i hij
          rw [← NodeId.nonterminal.inj hij]
          exact ⟨k, by simpa using hmem⟩
        · exact h.closed j hj)
    rwa [hcount, if_pos rfl] at hput

/-- Another holder keeps the node. -/
theorem decrefLoop_keep (h : Cached cache live dying (x :: refs)) (hx : x ∈ edges live ++ refs) (fuel : Nat) :
    ∃ cache', decrefLoop (fuel + 1) cache x = .ok cache' ∧ Cached cache' live dying refs ∧ Grows 0 cache cache' := by
  cases x with
  | terminal v => exact ⟨cache, rfl, h.of_terminal, .refl cache⟩
  | nonterminal i =>
    have hpos : 0 < refCount live refs i := Cached.pos_of_mem hx rfl
    have hcount := refCount_cons live (.nonterminal i) refs
    obtain ⟨k, hk⟩ := h.closed i (by rw [hcount]; omega)
    have hmem : (k, i) ∈ live ++ dying := List.mem_append_left _ hk
    have hval := hcount i
    rw [if_pos rfl] at hval
    rw [decrefLoop, h.get hmem, M.ok_bind]
    simp only [hval, Nat.add_one_sub_one, Nat.add_one_ne_zero, ↓reduceIte, Nat.ne_of_gt hpos]
    refine ⟨_, rfl, ?_, cache.grows_put (h.content_iff.2 hmem) _⟩
    refine h.put hmem live dying refs (.refl _) (fun _ he => he) (fun j hj => ?_) (fun e he => ?_)
      fun j hj => h.closed j ?_
    · rw [hcount, if_neg (fun hij => hj (NodeId.nonterminal.inj hij).symm), Nat.add_zero]
    · by_cases hei : e.2 = i
      · rwa [hei]
      · have hheld := h.held e he
        rwa [hcount, if_neg (fun hij => hei (NodeId.nonterminal.inj hij).symm), Nat.add_zero] at hheld
    · rw [hcount]
      omega

/-- What is still referred to has the nodes that it had. -/
theorem Cached.rep_of_subset {live' : List Entry} {refs' : List NodeId} {y : NodeId} {s : Bdd Nat}
    (h : Cached cache live dying refs') (h' : Cached cache' live' dying refs) (hsub : ∀ e ∈ live', e ∈ live)
    (hy : y ∈ edges live' ++ refs) (hrep : Rep cache.content y s) : Rep cache'.content y s := by
  induction hrep with
  | terminal v => exact .terminal v
  | @nonterminal i k lo hi content _ _ ihl ihh =>
    obtain ⟨k', hk'⟩ := h'.closed i (Cached.pos_of_mem hy rfl)
    obtain rfl := h.eq_of_index (h.content_iff.1 content) (List.mem_append_left _ (hsub _ hk'))
    have hchild : ∀ z, z = k.low ∨ z = k.high → z ∈ edges live' ++ refs := by
      intro z hz
      refine List.mem_append_left _ (List.mem_flatMap.2 ⟨_, hk', ?_⟩)
      simpa using hz
    exact .nonterminal (h'.content_iff.2 (List.mem_append_left _ hk')) (ihl (hchild _ (.inl rfl)))
      (ihh (hchild _ (.inr rfl)))

/-- The node leaves the hash table and goes to the free list. -/
theorem Cached.release {i : Nat} {k : Content} (h : Cached cache live ((k, i) :: dying) refs) :
    Cached { NodeCache.put { cache with node_cache := cache.node_cache.erase k } i (.free cache.free_list) with
      free_list := some i } live dying refs := by
  have hmem : (k, i) ∈ live ++ (k, i) :: dying := by simp
  have hperm : (live ++ (k, i) :: dying).Perm ((k, i) :: (live ++ dying)) := List.perm_middle
  have hlt : i < cache.slots.length := cache.lt_of_content (h.content_iff.2 hmem)
  have hnodup : i ∉ (live ++ dying).map Prod.snd ∧ ((live ++ dying).map Prod.snd).Nodup :=
    List.nodup_cons.1 ((hperm.map Prod.snd).nodup_iff.1 h.nodup)
  have hne : ∀ {k' j}, (k', j) ∈ live ++ dying → j ≠ i := fun hm hj => hnodup.1 (hj ▸ List.mem_map_of_mem hm)
  have hiff : ∀ {k' j}, j ≠ i → ((k', j) ∈ live ++ (k, i) :: dying ↔ (k', j) ∈ live ++ dying) := by
    intro k' j hj
    rw [hperm.mem_iff, List.mem_cons, or_iff_right]
    rintro ⟨⟩
    exact hj rfl
  refine ⟨?_, hnodup.2, fun j r k' => ?_, h.held, h.closed, h.later, ?_⟩
  · have htable := h.table.trans (hperm.map _)
    have hkeep : ∀ p ∈ (live ++ dying).map Entry.item, p.1 ≠ k := by
      intro p hp hpk
      obtain ⟨⟨k', j⟩, hm, rfl⟩ := List.mem_map.1 hp
      obtain rfl : k' = k := hpk
      have hji : j = i := h.shared j i k' (h.content_iff.2 ((hiff (hne hm)).2 hm)) (h.content_iff.2 hmem)
      exact hne hm hji
    have hrest : ((live ++ dying).map Entry.item).filter (fun p => p.1 ≠ k) = (live ++ dying).map Entry.item :=
      List.filter_eq_self.2 fun p hp => decide_eq_true (hkeep p hp)
    have hfilter := htable.filter fun p => p.1 ≠ k
    rw [List.map_cons, List.filter_cons_of_neg (by simp [Entry.item]), hrest] at hfilter
    exact hfilter
  · by_cases hj : j = i
    · subst j
      simp only [NodeCache.put, List.getElem?_set_self hlt, Option.some.injEq]
      exact ⟨nofun, fun hm => absurd rfl (hne hm.1)⟩
    · simp only [NodeCache.put, List.getElem?_set_ne (Ne.symm hj)]
      rw [h.slot, hiff hj]
  · obtain ⟨is, hfree, hnod, hall⟩ := h.free
    have hni : i ∉ is := by
      intro hi
      obtain ⟨next, hnext⟩ := (hall i).1 hi
      rw [(h.slot i _ k).2 ⟨hmem, rfl⟩] at hnext
      cases hnext
    refine ⟨i :: is, ⟨rfl, cache.free_list, List.getElem?_set_self hlt, hfree.congr fun j hj => ?_⟩,
      List.nodup_cons.2 ⟨hni, hnod⟩, fun j => ?_⟩
    · exact List.getElem?_set_ne fun hij => hni (by rwa [hij])
    · simp only [NodeCache.put, List.mem_cons]
      by_cases hj : j = i
      · subst j
        simp [List.getElem?_set_self hlt]
      · rw [List.getElem?_set_ne (Ne.symm hj), ← hall, or_iff_right hj]

/-- A node that nobody refers to is taken apart. -/
theorem Cached.die {i : Nat} {k : Content} (h : Cached cache live dying (.nonterminal i :: refs)) (hk : (k, i) ∈ live)
    (hzero : refCount live refs i = 0) :
    ∃ live', (∀ e ∈ live', e ∈ live) ∧
      Cached (cache.put i (.node 0 k)) live' ((k, i) :: dying) (k.low :: k.high :: refs) := by
  obtain ⟨live', hperm⟩ : ∃ live', live.Perm ((k, i) :: live') := ⟨_, List.perm_cons_erase hk⟩
  have hsub : ∀ e ∈ live', e ∈ live := fun e he => hperm.mem_iff.2 (List.mem_cons_of_mem _ he)
  have hcount : ∀ j, refCount live refs j = refCount live' (k.low :: k.high :: refs) j := by
    refine refCount_perm (((edges_perm hperm).append_right refs).trans ?_)
    rw [edges_cons, List.cons_append, List.cons_append]
    exact (List.perm_middle.trans (List.Perm.cons _ List.perm_middle)).symm
  have hother : ∀ j ≠ i, refCount live' (k.low :: k.high :: refs) j = refCount live (.nonterminal i :: refs) j := by
    intro j hj
    rw [refCount_cons _ (.nonterminal i), if_neg (fun hij => hj (NodeId.nonterminal.inj hij).symm), Nat.add_zero,
      hcount]
  have hni : ∀ e ∈ live', e.2 ≠ i := by
    intro e he
    have hnodup := ((hperm.append_right dying).map Prod.snd).nodup_iff.1 h.nodup
    rw [List.cons_append, List.map_cons, List.nodup_cons] at hnodup
    exact fun hei => hnodup.1 (List.mem_map.2 ⟨e, List.mem_append_left _ he, hei⟩)
  refine ⟨live', hsub, ?_⟩
  have hput := h.put (List.mem_append_left _ hk) live' ((k, i) :: dying) (k.low :: k.high :: refs)
    (List.perm_middle.trans (hperm.append_right dying).symm) hsub hother
    (fun e he => by
      rw [hother e.2 (hni e he)]
      exact h.held e (hsub e he))
    (fun j hj => by
      have hji : j ≠ i := by
        rintro rfl
        rw [← hcount, hzero] at hj
        exact Nat.lt_irrefl 0 hj
      rw [hother j hji] at hj
      obtain ⟨k', hk'⟩ := h.closed j hj
      rcases List.mem_cons.1 (hperm.mem_iff.1 hk') with heq | hmem
      · cases heq
        exact absurd rfl hji
      · exact ⟨k', hmem⟩)
  rwa [← hcount, hzero] at hput

/-- `ipset_node_decref` gives a reference back. What others refer to stays. -/
theorem decrefLoop_spec {n fuel : Nat} (hrep : Rep cache.content x t) (hr : t.Robdd n) (hfuel : t.height < fuel)
    (h : Cached cache live dying (x :: refs)) :
    ∃ cache' live', decrefLoop fuel cache x = .ok cache' ∧ Cached cache' live' dying refs ∧ (∀ e ∈ live', e ∈ live) ∧
      cache'.slots.length = cache.slots.length := by
  induction t generalizing cache live dying refs x n fuel with
  | leaf v =>
    obtain ⟨fuel, rfl⟩ := Nat.exists_eq_add_one_of_ne_zero (Nat.ne_of_gt (Nat.zero_lt_of_lt hfuel))
    cases hrep
    exact ⟨cache, live, rfl, h.of_terminal, fun _ he => he, rfl⟩
  | node var lo hi ihl ihh =>
    obtain ⟨fuel, rfl⟩ := Nat.exists_eq_add_one_of_ne_zero (Nat.ne_of_gt (Nat.zero_lt_of_lt hfuel))
    by_cases hx : x ∈ edges live ++ refs
    · obtain ⟨cache', hcall, h', hgrows⟩ := decrefLoop_keep h hx fuel
      exact ⟨cache', live, hcall, h', fun _ he => he, Nat.le_antisymm hgrows.le_length_add hgrows.length_le⟩
    cases hrep with
    | @nonterminal i k _ _ content low high =>
      have hzero : refCount live refs i = 0 := List.count_eq_zero.2 hx
      have hval := refCount_cons live (.nonterminal i) refs i
      rw [if_pos rfl, hzero, Nat.zero_add] at hval
      obtain ⟨k', hk⟩ := h.closed i (by omega)
      obtain rfl := h.eq_of_index (h.content_iff.1 content) (List.mem_append_left _ hk)
      obtain ⟨live₁, hsub₁, h₁⟩ := h.die hk hzero
      have hcontent := cache.content_put content 0
      rw [Bdd.height, Nat.add_lt_add_iff_right] at hfuel
      cases hr with
      | node le hlo hhi ne =>
        obtain ⟨cache₂, live₂, hcall₂, h₂, hsub₂, hlen₂⟩ :=
          ihl (hcontent ▸ low) hlo (Nat.lt_of_le_of_lt (Nat.le_max_left _ _) hfuel) h₁
        have high₂ : Rep cache₂.content k.high hi :=
          h₁.rep_of_subset h₂ hsub₂ (List.mem_append_right _ List.mem_cons_self) (hcontent ▸ high)
        obtain ⟨cache₃, live₃, hcall₃, h₃, hsub₃, hlen₃⟩ :=
          ihh high₂ hhi (Nat.lt_of_le_of_lt (Nat.le_max_right _ _) hfuel) h₂
        refine ⟨_, live₃, ?_, h₃.release, fun e he => hsub₁ e (hsub₂ e (hsub₃ e he)), ?_⟩
        · rw [decrefLoop, h.get (List.mem_append_left _ hk), M.ok_bind, hval]
          simp only [Nat.sub_self, Nat.one_ne_zero, ↓reduceIte, hcall₂, hcall₃, M.ok_bind]
          rfl
        · have hput := cache.length_put i (.node 0 k)
          simp only [NodeCache.length_put]
          rw [hlen₃, hlen₂, hput]

theorem ipset_node_decref_spec {n : Nat} (hrep : Rep cache.content x t) (hr : t.Robdd n)
    (h : Cached cache live [] (x :: refs)) :
    ∃ cache' live', ipset_node_decref cache x = .ok cache' ∧ Cached cache' live' [] refs ∧ (∀ e ∈ live', e ∈ live) ∧
      cache'.slots.length = cache.slots.length :=
  decrefLoop_spec hrep hr (Nat.lt_succ_of_le (hrep.height_le hr)) h

end

end OutlineServer.Ipset
