import OutlineServer.IpSetCache

/-!
# Building nodes

`ipset_node_cache_nonterminal` gives the node of a variable and two children, an old one if there is one, and `Bdd.mk`
is its tree; `ipset_apply_ite` is `Bdd.insert` on trees. Neither frees a node. IDs of one cache are equal if and only if
their trees are.
-/

namespace OutlineServer.Ipset

section
variable {cache cache' : NodeCache} {live : List Entry} {refs : List NodeId} {x y low high : NodeId} {t lo hi : Bdd Nat}

/-! ### New nodes -/

/-- A new index has no node, and the free list goes on behind it. -/
theorem ipset_node_cache_alloc_node_spec (h : FreeAll cache.slots cache.free_list) :
    ∃ i cache', ipset_node_cache_alloc_node cache = .ok (i, cache') ∧ cache'.node_cache = cache.node_cache ∧
      (∀ r k, cache.slots[i]? ≠ some (.node r k)) ∧
      (∀ s j, (cache'.put i s).slots[j]? = if j = i then some s else cache.slots[j]?) ∧
      cache.slots.length ≤ cache'.slots.length ∧ cache'.slots.length ≤ cache.slots.length + 1 ∧
      ∀ r k, FreeAll (cache'.put i (.node r k)).slots cache'.free_list := by
  obtain ⟨is, hfree, hnodup, hall⟩ := h
  cases is with
  | nil =>
    have hnone : cache.free_list = none := hfree
    have hslots : ∀ s j, ((cache.slots ++ [zeroNode]).set cache.slots.length s)[j]? =
        if j = cache.slots.length then some s else cache.slots[j]? := by
      intro s j
      split
      · subst j
        simp
      · rename_i hj
        rw [List.getElem?_set_ne (Ne.symm hj)]
        rcases Nat.lt_or_gt_of_ne hj with hlt | hgt
        · rw [List.getElem?_append_left hlt]
        · rw [List.getElem?_eq_none (by rw [List.length_append]; exact hgt), List.getElem?_eq_none (Nat.le_of_lt hgt)]
    rw [ipset_node_cache_alloc_node, hnone]
    refine ⟨_, _, rfl, rfl, by simp, hslots, by simp, by simp, fun r k => ⟨[], rfl, List.nodup_nil, fun j => ?_⟩⟩
    rw [NodeCache.put, hslots]
    split
    · refine iff_of_false List.not_mem_nil ?_
      rintro ⟨next, hnode⟩
      cases hnode
    · exact hall j
  | cons i is =>
    obtain ⟨hfirst, next, hnext, his⟩ := hfree
    obtain ⟨hni, hnodup⟩ := List.nodup_cons.1 hnodup
    have hlt : i < cache.slots.length := (List.getElem?_eq_some_iff.1 hnext).1
    have hslots : ∀ s j, (cache.slots.set i s)[j]? = if j = i then some s else cache.slots[j]? := by
      intro s j
      split
      · subst j
        rw [List.getElem?_set_self hlt]
      · rw [List.getElem?_set_ne (Ne.symm ‹_›)]
    rw [ipset_node_cache_alloc_node, hfirst]
    simp only [hnext]
    refine ⟨_, _, rfl, rfl, by simp [hnext], hslots, Nat.le_refl _, Nat.le_succ _,
      fun r k => ⟨is, ?_, hnodup, fun j => ?_⟩⟩
    · refine his.congr fun j hj => ?_
      rw [NodeCache.put, hslots, if_neg]
      rintro rfl
      exact hni hj
    · rw [NodeCache.put, hslots]
      split
      · subst j
        refine iff_of_false hni ?_
        rintro ⟨next, hnode⟩
        cases hnode
      · rw [← hall, List.mem_cons, or_iff_right ‹_›]

theorem Cached.node {i var : Nat} (h : Cached cache live [] (low :: high :: refs))
    (hlater : ∀ e ∈ live, low = .nonterminal e.2 ∨ high = .nonterminal e.2 → var < e.1.var)
    (hnew : cache.node_cache.get? ⟨var, low, high⟩ = none) (htable : cache'.node_cache = cache.node_cache)
    (hnone : ∀ r k, cache.slots[i]? ≠ some (.node r k))
    (hslots : ∀ s j, (cache'.put i s).slots[j]? = if j = i then some s else cache.slots[j]?)
    (hfree : FreeAll (cache'.put i (.node 1 ⟨var, low, high⟩)).slots cache'.free_list) :
    Cached { NodeCache.put cache' i (.node 1 ⟨var, low, high⟩) with
      node_cache := cache'.node_cache.set ⟨var, low, high⟩ (.nonterminal i) } ((⟨var, low, high⟩, i) :: live) []
      (.nonterminal i :: refs) := by
  have hfresh : ∀ k, (k, i) ∉ live := by
    intro k hk
    exact hnone _ k ((h.slot i _ k).2 ⟨List.mem_append_left _ hk, rfl⟩)
  have hzero : refCount live (low :: high :: refs) i = 0 := by
    by_contra hpos
    obtain ⟨k, hk⟩ := h.closed i (Nat.pos_of_ne_zero hpos)
    exact hfresh k hk
  have hcount : ∀ j, refCount ((⟨var, low, high⟩, i) :: live) (.nonterminal i :: refs) j =
      refCount live (low :: high :: refs) j + if i = j then 1 else 0 := by
    intro j
    simp only [refCount, edges_cons, List.count_append, List.count_cons, beq_iff_eq, NodeId.nonterminal.injEq]
    omega
  have hold : ∀ {j}, j ≠ i → refCount ((⟨var, low, high⟩, i) :: live) (.nonterminal i :: refs) j =
      refCount live (low :: high :: refs) j := fun hj => by rw [hcount, if_neg (Ne.symm hj), Nat.add_zero]
  have hone : refCount ((⟨var, low, high⟩, i) :: live) (.nonterminal i :: refs) i = 1 := by
    rw [hcount, hzero, if_pos rfl]
  refine ⟨?_, ?_, fun j r k => ?_, fun e he => ?_, fun j hj => ?_, fun e he e' he' hee => ?_, hfree⟩
  · have hset : cache'.node_cache.set ⟨var, low, high⟩ (.nonterminal i) |>.items.Perm
        ((⟨var, low, high⟩, .nonterminal i) :: cache.node_cache.items) := by
      rw [htable]
      rw [Dict.items_set_of_new hnew]
      exact List.perm_append_singleton ..
    rw [List.append_nil, List.map_cons]
    have htab := h.table
    rw [List.append_nil] at htab
    exact hset.trans (htab.cons _)
  · have hnodup := h.nodup
    rw [List.append_nil] at hnodup ⊢
    refine List.nodup_cons.2 ⟨fun hmem => ?_, hnodup⟩
    obtain ⟨⟨k, _⟩, hk, rfl⟩ := List.mem_map.1 hmem
    exact hfresh k hk
  · rw [List.append_nil]
    show (NodeCache.put cache' i _).slots[j]? = _ ↔ _
    rw [hslots]
    split
    · subst j
      rw [hone, Option.some.injEq, Slot.node.injEq, List.mem_cons, Prod.mk.injEq, or_iff_left (hfresh k)]
      constructor
      · rintro ⟨rfl, rfl⟩
        exact ⟨⟨rfl, rfl⟩, rfl⟩
      · rintro ⟨⟨rfl, -⟩, rfl⟩
        exact ⟨rfl, rfl⟩
    · rename_i hj
      rw [h.slot, hold hj, List.append_nil, List.mem_cons, Prod.mk.injEq, or_iff_right fun hk => hj hk.2]
  · rcases List.mem_cons.1 he with rfl | he
    · rw [hone]
      exact Nat.one_pos
    · rw [hcount]
      have hpos := h.held e he
      omega
  · rw [hcount] at hj
    split at hj
    · subst j
      exact ⟨_, List.mem_cons_self⟩
    · obtain ⟨k, hk⟩ := h.closed j hj
      exact ⟨k, List.mem_cons_of_mem _ hk⟩
  · rcases List.mem_cons.1 he with rfl | he <;> rcases List.mem_cons.1 he' with rfl | he'
    · exfalso
      have hmem : NodeId.nonterminal i ∈ edges live ++ low :: high :: refs := by
        refine List.mem_append_right _ ?_
        rcases hee with hl | hh
        · rw [← hl]
          exact List.mem_cons_self
        · rw [← hh]
          exact List.mem_cons_of_mem _ List.mem_cons_self
      have hpos : 0 < refCount live (low :: high :: refs) i := Cached.pos_of_mem hmem rfl
      omega
    · exact hlater e' he' hee
    · exfalso
      have hmem : NodeId.nonterminal i ∈ edges live ++ low :: high :: refs := by
        refine List.mem_append_left _ (List.mem_flatMap.2 ⟨e, he, ?_⟩)
        rcases hee with hl | hh
        · rw [← hl]
          exact List.mem_cons_self
        · rw [← hh]
          exact List.mem_cons_of_mem _ List.mem_cons_self
      have hpos : 0 < refCount live (low :: high :: refs) i := Cached.pos_of_mem hmem rfl
      omega
    · exact h.later e he e' he' hee

theorem Rep.le_var {m : Nat → Option Content} {i n : Nat} {k : Content} (h : Rep m (.nonterminal i) t)
    (hk : m i = some k) (hr : t.Robdd n) : n ≤ k.var := by
  cases h with
  | nonterminal content _ _ =>
    obtain rfl := Option.some.inj (content.symm.trans hk)
    cases hr
    assumption

theorem ipset_node_cache_nonterminal_spec {var : Nat} (h : Cached cache live [] (low :: high :: refs))
    (hlow : Rep cache.content low lo) (hhigh : Rep cache.content high hi) (rlow : lo.Robdd (var + 1))
    (rhigh : hi.Robdd (var + 1)) :
    ∃ x cache' live', ipset_node_cache_nonterminal cache var low high = .ok (x, cache') ∧
      Cached cache' live' [] (x :: refs) ∧ Rep cache'.content x (.mk var lo hi) ∧ Grows 1 cache cache' := by
  by_cases heq : low = high
  · subst high
    obtain rfl := hlow.unique hhigh
    obtain ⟨cache', hcall, h', hgrows⟩ := decrefLoop_keep h (List.mem_append_right _ List.mem_cons_self)
      cache.slots.length
    rw [Bdd.mk, if_pos rfl]
    refine ⟨low, cache', live, ?_, h', hgrows.rep hlow, hgrows.mono (Nat.le_succ 0)⟩
    rw [ipset_node_cache_nonterminal, if_pos rfl, ipset_node_decref, hcall]
    rfl
  have hne : lo ≠ hi := by
    rintro rfl
    exact heq (hlow.inj h.shared hhigh)
  rw [Bdd.mk, if_neg hne, ipset_node_cache_nonterminal, if_neg heq]
  cases hget : cache.node_cache.get? ⟨var, low, high⟩ with
  | some x =>
    -- the node that is there keeps its children when the caller's references to them go
    obtain ⟨⟨k, i⟩, hmem, hitem⟩ := List.mem_map.1 (h.table.mem_iff.1 (Dict.get?_eq_some.1 hget))
    cases hitem
    have hrep : Rep cache.content (.nonterminal i) (.node var lo hi) := .nonterminal (h.content_iff.2 hmem) hlow hhigh
    have hchild : ∀ z, z = low ∨ z = high → ∀ refs, z ∈ edges live ++ refs := by
      intro z hz refs
      rw [List.append_nil] at hmem
      refine List.mem_append_left _ (List.mem_flatMap.2 ⟨_, hmem, ?_⟩)
      simpa using hz
    obtain ⟨cache₁, hcall₁, h₁, hgrows₁⟩ := ipset_node_incref_spec h hrep
    obtain ⟨cache₂, hcall₂, h₂, hgrows₂⟩ := decrefLoop_keep (h₁.perm (.refl _) (List.Perm.swap ..))
      (hchild low (.inl rfl) _) cache₁.slots.length
    obtain ⟨cache₃, hcall₃, h₃, hgrows₃⟩ := decrefLoop_keep (h₂.perm (.refl _) (List.Perm.swap ..))
      (hchild high (.inr rfl) _) cache₂.slots.length
    have hgrows := (hgrows₁.trans hgrows₂).trans hgrows₃
    refine ⟨_, cache₃, live, ?_, h₃, hgrows.rep hrep, hgrows.mono (Nat.le_succ 0)⟩
    simp only [hcall₁, M.ok_bind, ipset_node_decref, hcall₂, hcall₃]
    rfl
  | none =>
    obtain ⟨i, cache₁, hcall, htable, hnone, hslots, hlen, hlen', hfree⟩ := ipset_node_cache_alloc_node_spec h.free
    have hlater : ∀ e ∈ live, low = .nonterminal e.2 ∨ high = .nonterminal e.2 → var < e.1.var := by
      intro e he hee
      have hk : cache.content e.2 = some e.1 := h.content_iff.2 (List.mem_append_left _ he)
      rcases hee with rfl | rfl
      · exact hlow.le_var hk rlow
      · exact hhigh.le_var hk rhigh
    have h' := h.node hlater hget htable hnone hslots (hfree _ _)
    have hgrows : Grows 1 cache { NodeCache.put cache₁ i (.node 1 ⟨var, low, high⟩) with
        node_cache := cache₁.node_cache.set ⟨var, low, high⟩ (.nonterminal i) } := by
      refine ⟨?_, ?_, fun j k hk => ?_⟩
      · exact Nat.le_trans hlen (cache₁.length_put i _).ge
      · exact Nat.le_trans (cache₁.length_put i _).le hlen'
      · rw [h.content_iff, List.append_nil] at hk
        exact h'.content_iff.2 (List.mem_append_left _ (List.mem_cons_of_mem _ hk))
    have hmem := h'.content_iff.2 (List.mem_append_left _ List.mem_cons_self)
    refine ⟨_, _, _, ?_, h', .nonterminal hmem (hgrows.rep hlow) (hgrows.rep hhigh), hgrows⟩
    simp only [hcall, M.ok_bind]
    rfl

/-! ### Insertion -/

/-- The result of a call that gives the tree `t` with at most `n` new nodes. -/
def Builds (cache : NodeCache) (refs : List NodeId) (t : Bdd Nat) (n : Nat) (r : M (NodeId × NodeCache)) : Prop :=
  ∃ x cache' live', r = .ok (x, cache') ∧ Cached cache' live' [] (x :: refs) ∧ Rep cache'.content x t ∧
    Grows n cache cache'

variable {f : FakeNode} {g : Nat}

theorem applyIteLoop_terminal0 (h : Cached cache live [] refs) (hx : Rep cache.content x t) (fuel : Nat) :
    Builds cache refs t 0 (applyIteLoop g (fuel + 1) cache f.terminal0 x) := by
  obtain ⟨cache', hcall, h', hgrows⟩ := ipset_node_incref_spec h hx
  refine ⟨x, cache', live, ?_, h', hgrows.rep hx, hgrows⟩
  simp only [applyIteLoop, FakeNode.terminal0, ↓reduceIte, hcall, M.ok_bind]
  rfl

/-- The recursive calls of the loop, when the rest of F has `k` variables. -/
def BuildsNext (a : Nat → Bool) (f : FakeNode) (g k : Nat)
    (ite : NodeCache → FakeNode → NodeId → M (NodeId × NodeCache)) : Prop :=
  (∀ cache live refs x t, Cached cache live [] refs → Rep cache.content x t → t.Robdd (f.current_var + 1) →
    Builds cache refs (t.insert a g k (f.current_var + 1)) k (ite cache f.next x)) ∧
  ∀ cache live refs x t, Cached cache live [] refs → Rep cache.content x t →
    Builds cache refs t 0 (ite cache f.terminal0 x)

theorem iteBranches_spec {a : Nat → Bool} {k : Nat}
    {ite : NodeCache → FakeNode → NodeId → M (NodeId × NodeCache)} (hite : BuildsNext a f g k ite)
    (hasg : f.assignment f.current_var = .ok (a f.current_var)) (h : Cached cache live [] refs)
    (hlow : Rep cache.content low lo) (hhigh : Rep cache.content high hi) (rlow : lo.Robdd (f.current_var + 1))
    (rhigh : hi.Robdd (f.current_var + 1)) :
    Builds cache refs (if a f.current_var then .mk f.current_var lo (hi.insert a g k (f.current_var + 1))
      else .mk f.current_var (lo.insert a g k (f.current_var + 1)) hi) (k + 1)
      (iteBranches ite cache f low high) := by
  rw [iteBranches, hasg, M.ok_bind]
  split
  · obtain ⟨rh, cache₁, live₁, hcall₁, h₁, hrep₁, hgrows₁⟩ := hite.1 cache live refs high hi h hhigh rhigh
    obtain ⟨rl, cache₂, live₂, hcall₂, h₂, hrep₂, hgrows₂⟩ := hite.2 cache₁ live₁ _ low lo h₁ (hgrows₁.rep hlow)
    obtain ⟨x, cache₃, live₃, hcall₃, h₃, hrep₃, hgrows₃⟩ :=
      ipset_node_cache_nonterminal_spec h₂ hrep₂ (hgrows₂.rep hrep₁) rlow (rhigh.insert a g k)
    refine ⟨x, cache₃, live₃, ?_, h₃, hrep₃, ((hgrows₁.trans hgrows₂).trans hgrows₃).mono (by omega)⟩
    simp only [hcall₁, hcall₂, M.ok_bind, hcall₃]
  · obtain ⟨rh, cache₁, live₁, hcall₁, h₁, hrep₁, hgrows₁⟩ := hite.2 cache live refs high hi h hhigh
    obtain ⟨rl, cache₂, live₂, hcall₂, h₂, hrep₂, hgrows₂⟩ :=
      hite.1 cache₁ live₁ _ low lo h₁ (hgrows₁.rep hlow) rlow
    obtain ⟨x, cache₃, live₃, hcall₃, h₃, hrep₃, hgrows₃⟩ :=
      ipset_node_cache_nonterminal_spec h₂ hrep₂ (hgrows₂.rep hrep₁) (rlow.insert a g k) rhigh
    refine ⟨x, cache₃, live₃, ?_, h₃, hrep₃, ((hgrows₁.trans hgrows₂).trans hgrows₃).mono (by omega)⟩
    simp only [hcall₁, hcall₂, M.ok_bind, hcall₃]

/-- The variables of H are not before the current one of F, and the recursion goes down F. -/
theorem applyIteLoop_spec {a : Nat → Bool} {k fuel : Nat} (hk : f.current_var + k = f.var_count) (hfuel : k < fuel)
    (hval : f.value ≠ 0) (hasg : ∀ v, f.current_var ≤ v → v < f.var_count → f.assignment v = .ok (a v))
    (h : Cached cache live [] refs) (hx : Rep cache.content x t) (hr : t.Robdd f.current_var) :
    Builds cache refs (t.insert a g k f.current_var) k (applyIteLoop g fuel cache f x) := by
  induction k generalizing f fuel cache live refs x t with
  | zero =>
    obtain ⟨fuel, rfl⟩ := Nat.exists_eq_add_one_of_ne_zero (Nat.ne_of_gt hfuel)
    refine ⟨.terminal g, cache, live, ?_, h.terminal g, .terminal g, .refl cache⟩
    rw [Nat.add_zero] at hk
    simp only [applyIteLoop, if_pos hk, if_neg hval]
  | succ k ih =>
    obtain ⟨fuel, rfl⟩ := Nat.exists_eq_add_one_of_ne_zero (Nat.ne_of_gt (Nat.zero_lt_of_lt hfuel))
    have hfuel' : k < fuel := Nat.lt_of_succ_lt_succ hfuel
    obtain ⟨fuel, rfl⟩ := Nat.exists_eq_add_one_of_ne_zero (Nat.ne_of_gt (Nat.zero_lt_of_lt hfuel'))
    have hlt : f.current_var < f.var_count := by omega
    have hite : BuildsNext a f g k (applyIteLoop g (fuel + 1)) := by
      refine ⟨fun cache live refs x t h hx hr => ?_, fun cache live refs x t h hx => applyIteLoop_terminal0 h hx fuel⟩
      exact ih (f := f.next) (by simp only [FakeNode.next]; omega) (Nat.lt_of_succ_lt_succ hfuel) hval
        (fun v hv => hasg v (Nat.le_of_succ_le hv)) h hx hr
    have hbranches : ∀ low high, Rep cache.content low (t.branches f.current_var).1 →
        Rep cache.content high (t.branches f.current_var).2 → x ≠ .terminal g →
        Builds cache refs (t.insert a g (k + 1) f.current_var) (k + 1)
          (iteBranches (applyIteLoop g (fuel + 1)) cache f low high) := by
      intro low high hlow hhigh hne
      have hleaf : t ≠ .leaf g := by
        rintro rfl
        exact hne (hx.inj h.shared (.terminal g))
      rw [Bdd.insert, if_neg hleaf]
      exact iteBranches_spec hite (hasg _ (Nat.le_refl _) hlt) h hlow hhigh hr.branches.1 hr.branches.2
    simp only [applyIteLoop, if_neg (Nat.ne_of_lt hlt)]
    by_cases hg : x = .terminal g
    · subst x
      cases hx
      rw [if_pos rfl, Bdd.insert_leaf]
      exact ⟨.terminal g, cache, live, rfl, h.terminal g, .terminal g, (Grows.refl cache).mono (Nat.zero_le _)⟩
    rw [if_neg hg]
    cases hx with
    | terminal v => exact hbranches _ _ (.terminal v) (.terminal v) hg
    | @nonterminal i n lo hi content hlow hhigh =>
      obtain ⟨r, hget⟩ := Cached.of_content content
      have hle : f.current_var ≤ n.var := by
        cases hr
        assumption
      simp only [hget, M.ok_bind, if_neg (Nat.not_lt.2 hle)]
      rw [Bdd.branches] at hbranches
      split
      · rename_i heq
        rw [if_pos heq] at hbranches
        exact hbranches _ _ hlow hhigh hg
      · rename_i heq
        rw [if_neg heq] at hbranches
        exact hbranches _ _ (.nonterminal content hlow hhigh) (.nonterminal content hlow hhigh) hg

theorem ipset_node_insert_spec {a : Nat → Bool} {asg : Nat → M Bool} {n : Nat} (value : Nat)
    (hasg : ∀ v < n, asg v = .ok (a v)) (h : Cached cache live [] refs) (hx : Rep cache.content x t) (hr : t.Robdd 0) :
    Builds cache refs (t.insert a value n 0) n (ipset_node_insert cache x asg n value) := by
  refine applyIteLoop_spec (f := ⟨0, n, asg, 1⟩) (Nat.zero_add n) ?_ Nat.one_ne_zero (fun v _ hv => hasg v hv) h hx hr
  simp only
  omega

/-! ### Evaluation and comparison -/

theorem evaluateLoop_spec {asg : Nat → M Bool} {b : Nat → Bool} {fuel : Nat} (hx : Rep cache.content x t)
    (hasg : ∀ v ∈ t.reads b, asg v = .ok (b v)) (hfuel : t.height < fuel) :
    evaluateLoop cache asg fuel x = .ok (t.eval b) := by
  induction hx generalizing fuel with
  | terminal v =>
    obtain ⟨fuel, rfl⟩ := Nat.exists_eq_add_one_of_ne_zero (Nat.ne_of_gt (Nat.zero_lt_of_lt hfuel))
    rfl
  | @nonterminal i k lo hi content _ _ ihl ihh =>
    obtain ⟨fuel, rfl⟩ := Nat.exists_eq_add_one_of_ne_zero (Nat.ne_of_gt (Nat.zero_lt_of_lt hfuel))
    obtain ⟨r, hget⟩ := Cached.of_content content
    rw [Bdd.height, Nat.add_lt_add_iff_right] at hfuel
    rw [Bdd.reads, List.forall_mem_cons] at hasg
    simp only [evaluateLoop, hget, M.ok_bind, hasg.1, Bdd.eval]
    split
    · rename_i hb
      rw [if_pos hb] at hasg
      exact ihh hasg.2 (Nat.lt_of_le_of_lt (Nat.le_max_right _ _) hfuel)
    · rename_i hb
      rw [if_neg hb] at hasg
      exact ihl hasg.2 (Nat.lt_of_le_of_lt (Nat.le_max_left _ _) hfuel)

theorem nodesEqualLoop_spec {cache₁ cache₂ : NodeCache} {t₁ t₂ : Bdd Nat} {fuel : Nat} (hx : Rep cache₁.content x t₁)
    (hy : Rep cache₂.content y t₂) (hfuel : t₁.height < fuel) :
    nodesEqualLoop cache₁ cache₂ fuel x y = .ok (decide (t₁ = t₂)) := by
  induction hx generalizing y t₂ fuel with
  | terminal v =>
    obtain ⟨fuel, rfl⟩ := Nat.exists_eq_add_one_of_ne_zero (Nat.ne_of_gt (Nat.zero_lt_of_lt hfuel))
    cases hy with
    | terminal w => simp [nodesEqualLoop]
    | nonterminal content _ _ => simp [nodesEqualLoop]
  | @nonterminal i k lo hi content _ _ ihl ihh =>
    obtain ⟨fuel, rfl⟩ := Nat.exists_eq_add_one_of_ne_zero (Nat.ne_of_gt (Nat.zero_lt_of_lt hfuel))
    cases hy with
    | terminal w => simp [nodesEqualLoop]
    | @nonterminal i' k' lo' hi' content' low' high' =>
      obtain ⟨r, hget⟩ := Cached.of_content content
      obtain ⟨r', hget'⟩ := Cached.of_content content'
      rw [Bdd.height, Nat.add_lt_add_iff_right] at hfuel
      simp only [nodesEqualLoop, hget, hget', M.ok_bind, Bdd.node.injEq,
        ihl low' (Nat.lt_of_le_of_lt (Nat.le_max_left _ _) hfuel)]
      by_cases hvar : k.var = k'.var
      · by_cases hlo : lo = lo'
        · simp [hvar, hlo, ihh high' (Nat.lt_of_le_of_lt (Nat.le_max_right _ _) hfuel)]
        · simp [hvar, hlo]
      · simp [hvar]

end

end OutlineServer.Ipset
