import OutlineServer.IpSetSpec

/-!
# Runs of updates

Whatever the updates, a set made by `ipset_init` represents the addresses that they leave, and uses no memory for
anything else: every node is reachable from the root (`Cached.reachable`), and `ipset_done` gives all of them back.
-/

namespace OutlineServer.Ipset
open AclFile

section
variable {cache cache' : NodeCache} {live : List Entry} {refs : List NodeId} {root : NodeId} {i : Nat}

/-! ### Reachable nodes -/

theorem exists_parent (h : 0 < refCount live refs i) :
    (∃ e ∈ live, e.1.low = .nonterminal i ∨ e.1.high = .nonterminal i) ∨ .nonterminal i ∈ refs := by
  have hmem : NodeId.nonterminal i ∈ edges live ++ refs := List.count_pos_iff.1 h
  rcases List.mem_append.1 hmem with hmem | hmem
  · obtain ⟨e, he, hchild⟩ := List.mem_flatMap.1 hmem
    refine .inl ⟨e, he, ?_⟩
    simpa [eq_comm] using hchild
  · exact .inr hmem

/-- What holds of the nodes that `refs` has and of the children of nodes holds of all nodes. -/
theorem Cached.reachable (h : Cached cache live [] refs) {P : Nat → Prop} (hroot : ∀ i, .nonterminal i ∈ refs → P i)
    (hchild : ∀ e ∈ live, P e.2 → ∀ i, e.1.low = .nonterminal i ∨ e.1.high = .nonterminal i → P i) :
    ∀ e ∈ live, P e.2 := by
  intro e he
  -- a parent is an earlier variable
  induction hvar : e.1.var using Nat.strong_induction_on generalizing e with
  | _ n ih =>
    rcases exists_parent (h.held e he) with ⟨e', he', hee⟩ | hmem
    · refine hchild e' he' (ih e'.1.var ?_ e' he' rfl) e.2 hee
      rw [← hvar]
      exact h.later e' he' e he hee
    · exact hroot e.2 hmem

theorem Cached.nil_of_unreferenced (h : Cached cache live [] []) : live = [] := by
  have hall := h.reachable (P := fun _ => False) (by simp) fun _ _ hp => hp.elim
  exact List.eq_nil_iff_forall_not_mem.2 hall

theorem Cached.length_table (h : Cached cache live [] refs) : cache.node_cache.items.length = live.length := by
  have hlen := h.table.length_eq
  rwa [List.append_nil, List.length_map] at hlen

theorem Cached.length_le (h : Cached cache live [] refs) : live.length ≤ cache.slots.length := by
  have hnodup := h.nodup
  rw [List.append_nil] at hnodup
  have hsub : live.map Prod.snd ⊆ List.range cache.slots.length := by
    intro i hi
    obtain ⟨⟨k, i⟩, he, rfl⟩ := List.mem_map.1 hi
    exact List.mem_range.2 (cache.lt_of_content (h.content_iff.2 (List.mem_append_left _ he)))
  have hle := (hnodup.subperm hsub).length_le
  rwa [List.length_map, List.length_range] at hle

theorem mem_pushNode {queue : List Nat} {x : NodeId} {j : Nat} :
    j ∈ pushNode queue x ↔ x = .nonterminal j ∨ j ∈ queue := by
  cases x with
  | terminal v => simp [pushNode]
  | nonterminal i => simp [pushNode, eq_comm]

theorem length_pushNode_le (queue : List Nat) (x : NodeId) : (pushNode queue x).length ≤ queue.length + 1 := by
  cases x with
  | terminal v => exact Nat.le_succ _
  | nonterminal i => exact Nat.le_refl _

/-- What the loop has visited and still has to visit. -/
structure Visiting (live : List Entry) (root : NodeId) (visited queue : List Nat) : Prop where
  nodup : visited.Nodup
  visited_live : ∀ i ∈ visited, i ∈ live.map Prod.snd
  queue_live : ∀ i ∈ queue, i ∈ live.map Prod.snd
  root : ∀ i, root = .nonterminal i → i ∈ visited ∨ i ∈ queue
  children : ∀ e ∈ live, e.2 ∈ visited → ∀ i, e.1.low = .nonterminal i ∨ e.1.high = .nonterminal i →
    i ∈ visited ∨ i ∈ queue

theorem Visiting.visit {visited queue : List Nat} {k : Content} {curr : Nat} (h : Cached cache live [] [root])
    (hv : Visiting live root visited (curr :: queue)) (hnew : curr ∉ visited) (hk : (k, curr) ∈ live) :
    Visiting live root (curr :: visited) (pushNode (pushNode queue k.low) k.high) := by
  have hmem : ∀ {i}, i ∈ visited ∨ i ∈ curr :: queue →
    i ∈ curr :: visited ∨ i ∈ pushNode (pushNode queue k.low) k.high := by
    intro i hi
    rw [List.mem_cons, mem_pushNode, mem_pushNode]
    rcases hi with hi | hi
    · exact .inl (.inr hi)
    · rcases List.mem_cons.1 hi with rfl | hi
      · exact .inl (.inl rfl)
      · exact .inr (.inr (.inr hi))
  refine ⟨List.nodup_cons.2 ⟨hnew, hv.nodup⟩, fun i hi => ?_, fun i hi => ?_, fun i hi => hmem (hv.root i hi),
    fun e he hev i hi => ?_⟩
  · rcases List.mem_cons.1 hi with rfl | hi
    · exact hv.queue_live _ List.mem_cons_self
    · exact hv.visited_live i hi
  · rw [mem_pushNode, mem_pushNode, ← or_assoc] at hi
    rcases hi with hi | hi
    · have hedge : NodeId.nonterminal i ∈ edges live ++ [root] := by
        refine List.mem_append_left _ (List.mem_flatMap.2 ⟨_, hk, ?_⟩)
        rcases hi with hi | hi <;> simp [hi]
      obtain ⟨k', hk'⟩ := h.closed i (Cached.pos_of_mem hedge rfl)
      exact List.mem_map_of_mem hk'
    · exact hv.queue_live i (List.mem_cons_of_mem _ hi)
  · rcases List.mem_cons.1 hev with heq | hev
    · obtain rfl : e.1 = k := h.eq_of_index (i := curr) (List.mem_append_left _ (heq ▸ he)) (List.mem_append_left _ hk)
      rw [List.mem_cons, mem_pushNode, mem_pushNode]
      exact .inr (hi.elim (fun hl => .inr (.inl hl)) .inl)
    · exact hmem (hv.children e he hev i hi)

theorem reachableLoop_spec (h : Cached cache live [] [root]) {fuel : Nat} {visited queue : List Nat}
    (hv : Visiting live root visited queue) (hfuel : queue.length + 2 * (live.length - visited.length) < fuel) :
    reachableLoop cache fuel visited queue visited.length = .ok live.length := by
  induction fuel generalizing visited queue with
  | zero => exact absurd hfuel (Nat.not_lt_zero _)
  | succ fuel ih =>
    have hvisited : visited.length ≤ live.length := by
      have hle := (hv.nodup.subperm hv.visited_live).length_le
      rwa [List.length_map] at hle
    cases queue with
    | nil =>
      -- what is visited is closed, so it is everything
      have hall : ∀ e ∈ live, e.2 ∈ visited := by
        refine h.reachable (P := (· ∈ visited)) (fun i hi => ?_) fun e he hev i hi => ?_
        · exact (hv.root i (List.mem_singleton.1 hi).symm).resolve_right (List.not_mem_nil)
        · exact (hv.children e he hev i hi).resolve_right (List.not_mem_nil)
      have hsub : live.map Prod.snd ⊆ visited := by
        intro i hi
        obtain ⟨e, he, rfl⟩ := List.mem_map.1 hi
        exact hall e he
      have hnodup := h.nodup
      rw [List.append_nil] at hnodup
      have hle := (hnodup.subperm hsub).length_le
      rw [List.length_map] at hle
      rw [reachableLoop, Nat.le_antisymm hvisited hle]
    | cons curr queue =>
      rw [List.length_cons] at hfuel
      rw [reachableLoop]
      by_cases hcurr : curr ∈ visited
      · rw [if_pos hcurr]
        refine ih ⟨hv.nodup, hv.visited_live, fun i hi => hv.queue_live i (List.mem_cons_of_mem _ hi), fun i hi => ?_,
          fun e he hev i hi => ?_⟩ (by omega)
        · rcases hv.root i hi with hi | hi
          · exact .inl hi
          · rcases List.mem_cons.1 hi with rfl | hi
            · exact .inl hcurr
            · exact .inr hi
        · rcases hv.children e he hev i hi with hi | hi
          · exact .inl hi
          · rcases List.mem_cons.1 hi with rfl | hi
            · exact .inl hcurr
            · exact .inr hi
      · obtain ⟨⟨k, i⟩, hk, rfl⟩ := List.mem_map.1 (hv.queue_live curr List.mem_cons_self)
        rw [if_neg hcurr, h.get (List.mem_append_left _ hk), M.ok_bind]
        have hv' := hv.visit h hcurr hk
        have hle : (i :: visited).length ≤ live.length := by
          have hsub := (hv'.nodup.subperm hv'.visited_live).length_le
          rwa [List.length_map] at hsub
        have hpush := length_pushNode_le (pushNode queue k.low) k.high
        have hpush' := length_pushNode_le queue k.low
        refine ih hv' ?_
        rw [List.length_cons] at hle ⊢
        omega

/-- The nodes in the cache are those that are reachable. -/
theorem ipset_node_reachable_count_spec (h : Cached cache live [] [root]) :
    ipset_node_reachable_count cache root = .ok cache.node_cache.items.length := by
  have hle := h.length_le
  have hpush := length_pushNode_le [] root
  rw [h.length_table]
  refine reachableLoop_spec h ⟨List.nodup_nil, by simp, fun i hi => ?_, fun i hi => ?_, by simp⟩ ?_
  · rw [mem_pushNode, or_iff_left (List.not_mem_nil)] at hi
    obtain ⟨k, hk⟩ := h.closed i (Cached.pos_of_mem (List.mem_append_right _ List.mem_cons_self) hi)
    exact List.mem_map_of_mem hk
  · exact .inr (mem_pushNode.2 (.inl hi))
  · rw [List.length_nil] at hpush ⊢
    omega

end

/-! ### Updates -/

/-- A set after the updates `ops`. -/
def updates (ops : List IpOp) : M IpSet :=
  ops.foldlM (fun s op => do
    let (_, s) ← op.run s
    return s) ipset_init

/-- The addresses that updates leave. -/
def addresses (ops : List IpOp) : Set AclFile.CorkIp := ops.foldl IpOp.spec ∅

theorem foldlM_spec {s : IpSet} {A : Set AclFile.CorkIp} (h : Holds s A) (ops : List IpOp) :
    ∃ s', ops.foldlM (fun s op => do
        let (_, s) ← op.run s
        return s) s = .ok s' ∧
      Holds s' (ops.foldl IpOp.spec A) ∧ s'.cache.slots.length ≤ s.cache.slots.length + 129 * ops.length := by
  induction ops generalizing s A with
  | nil => exact ⟨s, rfl, h, Nat.le_add_right _ _⟩
  | cons op ops ih =>
    obtain ⟨b, s₁, hcall, h₁, -, hlen₁⟩ := IpOp.run_spec h op
    obtain ⟨s₂, hcall₂, h₂, hlen₂⟩ := ih h₁
    refine ⟨s₂, ?_, h₂, ?_⟩
    · rw [List.foldlM_cons, hcall]
      exact hcall₂
    · rw [List.length_cons]
      omega

theorem updates_spec (ops : List IpOp) :
    ∃ s, updates ops = .ok s ∧ Holds s (addresses ops) ∧ s.cache.slots.length ≤ 129 * ops.length := by
  obtain ⟨s, hcall, h, hlen⟩ := foldlM_spec ipset_init_holds ops
  rw [ipset_init, ipset_node_cache_new, List.length_nil, Nat.zero_add] at hlen
  exact ⟨s, hcall, h, hlen⟩

/-- No update and no question uses a freed node, reads behind an address or fails to end. A set contains what the
updates leave, knows whether that is nothing, and an update tells whether it changes anything. -/
theorem ipset_updates (ops : List IpOp) :
    ∃ s, updates ops = .ok s ∧
      (∀ ip, ∃ b, ipset_contains_ip s ip = .ok b ∧ (b = true ↔ ip ∈ addresses ops)) ∧
      (ipset_is_empty s = true ↔ addresses ops = ∅) ∧
      ∀ op : IpOp, ∃ b s',
        op.run s = .ok (b, s') ∧ (b = true ↔ op.InRange ∧ op.spec (addresses ops) = addresses ops) := by
  obtain ⟨s, hcall, h, -⟩ := updates_spec ops
  refine ⟨s, hcall, h.contains, h.isEmpty, fun op => ?_⟩
  obtain ⟨b, s', hrun, -, hb, -⟩ := IpOp.run_spec h op
  exact ⟨b, s', hrun, hb⟩

/-- Sets that were made in different ways are equal if and only if they contain the same addresses. -/
theorem ipset_equality (ops ops' : List IpOp) :
    ∃ s s' b, updates ops = .ok s ∧ updates ops' = .ok s' ∧ ipset_is_equal s s' = .ok b ∧
      (b = true ↔ addresses ops = addresses ops') := by
  obtain ⟨s, hcall, h, -⟩ := updates_spec ops
  obtain ⟨s', hcall', h', -⟩ := updates_spec ops'
  obtain ⟨b, hequal, hb⟩ := h.isEqual h'
  exact ⟨s, s', b, hcall, hcall', hequal, hb⟩

/-- The cache has as many nodes as the set needs, an update takes at most 129 new indices, and in the end every index is
free. -/
theorem ipset_memory (ops : List IpOp) :
    ∃ s cache, updates ops = .ok s ∧
      ipset_node_reachable_count s.cache s.set_bdd = .ok s.cache.node_cache.items.length ∧
      s.cache.slots.length ≤ 129 * ops.length ∧
      ipset_done s = .ok cache ∧ cache.node_cache.items = [] ∧
      (∀ i < cache.slots.length, ∃ next, cache.slots[i]? = some (.free next)) ∧
      FreeAll cache.slots cache.free_list := by
  obtain ⟨s, hcall, ⟨t, ht, -⟩, hlen⟩ := updates_spec ops
  obtain ⟨live, hcached⟩ := ht.cached
  obtain ⟨cache, live', hdone, h', -, -⟩ := ipset_node_decref_spec ht.rep ht.isSet.robdd hcached
  obtain rfl := h'.nil_of_unreferenced
  refine ⟨s, cache, hcall, ipset_node_reachable_count_spec hcached, hlen, hdone, ?_, fun i hi => ?_, h'.free⟩
  · exact List.length_eq_zero_iff.1 h'.length_table
  · cases hslot : cache.slots[i]? with
    | none => exact absurd (List.getElem?_eq_none_iff.1 hslot) (Nat.not_le.2 hi)
    | some slot =>
      cases slot with
      | free next => exact ⟨next, rfl⟩
      | node r k => exact absurd ((h'.slot i r k).1 hslot).1 List.not_mem_nil

/-! ### The sets of an ACL -/

/-- A set that some updates have made. -/
def MadeSet : Type := { s : IpSet // ∃ A, Holds s A }

namespace MadeSet

def init : MadeSet := ⟨ipset_init, ∅, ipset_init_holds⟩

def update (s : MadeSet) (op : IpOp) : MadeSet :=
  match h : op.run s.1 with
  | .ok (_, s') => ⟨s', by
      obtain ⟨A, hA⟩ := s.2
      obtain ⟨b, s'', hrun, hs, -⟩ := IpOp.run_spec hA op
      cases h.symm.trans hrun
      exact ⟨_, hs⟩⟩
  | .error _ => s

def contains (s : MadeSet) (ip : AclFile.CorkIp) : Bool := (ipset_contains_ip s.1 ip).toOption.getD false

theorem contains_iff {s : MadeSet} {A : Set AclFile.CorkIp} (h : Holds s.1 A) (ip : AclFile.CorkIp) :
    s.contains ip = true ↔ ip ∈ A := by
  obtain ⟨b, hcall, hb⟩ := h.contains ip
  rw [contains, hcall]
  exact hb

theorem holds_update {s : MadeSet} {A : Set AclFile.CorkIp} (h : Holds s.1 A) (op : IpOp) :
    Holds (s.update op).1 (op.spec A) := by
  obtain ⟨b, s', hrun, hs, -⟩ := IpOp.run_spec h op
  rw [update]
  split
  · rename_i hok
    cases hok.symm.trans hrun
    exact hs
  · rename_i herr
    cases herr.symm.trans hrun

theorem contains_update (s : MadeSet) (op : IpOp) (ip : AclFile.CorkIp) :
    (s.update op).contains ip = true ↔ ip ∈ op.spec {ip | s.contains ip = true} := by
  obtain ⟨A, hA⟩ := s.2
  have hset : {ip | s.contains ip = true} = A := by
    ext ip
    exact contains_iff hA ip
  rw [hset]
  exact contains_iff (holds_update hA op) ip

end MadeSet

/-- libcorkipset as the set library of the addresses `ip`. -/
def ipsetLib {w : Nat} (ip : BitVec w → AclFile.CorkIp) (hinj : ∀ addr elem, ip addr = ip elem → addr = elem)
    (hnet : ∀ addr n elem, ip elem ∈ network (ip addr) n ↔ InNetwork addr n elem) : IpSetLib w where
  IpSet := MadeSet
  init := .init
  add set addr := set.update (.add (ip addr))
  add_network set addr n := set.update (.add_network (ip addr) n)
  contains set elem := set.contains (ip elem)
  contains_init elem := Bool.eq_false_iff.2 fun h =>
    Set.notMem_empty _ ((MadeSet.contains_iff (s := .init) ipset_init_holds (ip elem)).1 h)
  contains_add set addr elem := by
    rw [MadeSet.contains_update, IpOp.spec, Set.mem_insert_iff, or_comm]
    exact or_congr Iff.rfl ⟨fun h => (hinj _ _ h).symm, fun h => congrArg ip h.symm⟩
  contains_add_network set addr n elem := by
    rw [MadeSet.contains_update, IpOp.spec, Set.mem_union, hnet]
    rfl

/-- The libraries of `L`, and libcorkipset. -/
def AclLib.withIpset (L : AclLib) : AclLib :=
  { L with
    ipv4 := ipsetLib .v4 (fun _ _ => AclFile.CorkIp.v4.inj) fun _ _ _ => by simp [network]
    ipv6 := ipsetLib .v6 (fun _ _ => AclFile.CorkIp.v6.inj) fun _ _ _ => by simp [network] }

/-- With the diagrams for its sets, an ACL answers for a host what the entries of its file say. -/
theorem acl_ipset (L : AclLib) (content host : Text) :
    let acl := init_acl (AclLib.withIpset L) content
    let listed := fun s => AclFile.Listed (AclLib.withIpset L) (interpreted content) s host
    (acl_match_host acl host = 1 ↔ listed .black_list) ∧
      (acl_match_host acl host = -1 ↔ ¬ listed .black_list ∧ listed .white_list) ∧
      (acl_match_host acl host = 0 ↔ ¬ listed .black_list ∧ ¬ listed .white_list) :=
  acl_match_host_iff (init_acl_holds (AclLib.withIpset L) content) host

end OutlineServer.Ipset
