import OutlineServer.IpSetIterator
import OutlineServer.IpSetRuns
import Mathlib.Data.Nat.Find

/-!
# Iterating over a set

`At` says which paths of the diagram an `ipset_bdd_iterator` has left, `Expands` which values of the open variables, and
`SetAt` which networks the iterator of a set has: each `advance` drops the first of them.
-/

namespace OutlineServer.Ipset
open AclFile

/-! ### Assignments -/

@[simp] theorem get_set (a : Assignment) (var : Nat) (value : Tribool) (i : Nat) :
    ipset_assignment_get (ipset_assignment_set a var value) i =
      if i = var then value else ipset_assignment_get a i := by
  rw [ipset_assignment_get, ipset_assignment_set, List.getD_eq_getElem?_getD, List.getElem?_set]
  by_cases h : var = i
  · subst i
    rw [if_pos rfl, if_pos rfl, if_pos]
    · rfl
    · rw [List.length_append, List.length_replicate]
      omega
  · rw [if_neg h, if_neg (Ne.symm h), ipset_assignment_get, List.getD_eq_getElem?_getD]
    by_cases hi : i < a.length
    · rw [List.getElem?_append_left hi]
    · rw [List.getElem?_append_right (by omega), List.getElem?_replicate,
        List.getElem?_eq_none (by omega : a.length ≤ i)]
      split <;> rfl

theorem Tribool.ofBool_inj {a b : Bool} : Tribool.ofBool a = .ofBool b ↔ a = b := by
  cases a <;> cases b <;> simp [ofBool]

/-- An assignment has the values of a path, and leaves the other variables open. -/
structure Assigned (a : Assignment) (p : List (Nat × Bool)) : Prop where
  on : ∀ q ∈ p, ipset_assignment_get a q.1 = .ofBool q.2
  off : ∀ i, i ∉ p.map Prod.fst → ipset_assignment_get a i = .EITHER

namespace Assigned
variable {a : Assignment} {p : List (Nat × Bool)}

theorem congr (h : Assigned a p) {a' : Assignment} (ha : ∀ i, ipset_assignment_get a' i = ipset_assignment_get a i) :
    Assigned a' p :=
  ⟨fun q hq => (ha _).trans (h.on q hq), fun i hi => (ha i).trans (h.off i hi)⟩

theorem either_iff (h : Assigned a p) {i : Nat} : ipset_assignment_get a i = .EITHER ↔ i ∉ p.map Prod.fst := by
  refine ⟨fun hi hmem => ?_, h.off i⟩
  obtain ⟨q, hq, rfl⟩ := List.mem_map.1 hmem
  rw [h.on q hq] at hi
  cases hv : q.2 <;> simp [hv, Tribool.ofBool] at hi

theorem bool_iff (h : Assigned a p) {i : Nat} {b : Bool} : ipset_assignment_get a i = .ofBool b ↔ (i, b) ∈ p := by
  refine ⟨fun hi => ?_, fun hq => h.on _ hq⟩
  by_cases hmem : i ∈ p.map Prod.fst
  · obtain ⟨q, hq, rfl⟩ := List.mem_map.1 hmem
    rw [h.on q hq, Tribool.ofBool_inj] at hi
    rw [← hi]
    exact hq
  · rw [h.off i hmem] at hi
    cases b <;> simp [Tribool.ofBool] at hi

theorem perm (h : Assigned a p) {p' : List (Nat × Bool)} (hp : p.Perm p') : Assigned a p' :=
  ⟨fun q hq => h.on q (hp.mem_iff.2 hq), fun i hi => h.off i fun hmem => hi ((hp.map Prod.fst).mem_iff.1 hmem)⟩

theorem set (h : Assigned a p) {var : Nat} (hvar : var ∉ p.map Prod.fst) (b : Bool) :
    Assigned (ipset_assignment_set a var (.ofBool b)) (p ++ [(var, b)]) := by
  refine ⟨fun q hq => ?_, fun i hi => ?_⟩
  · rw [get_set]
    rcases List.mem_append.1 hq with hmem | hmem
    · rw [if_neg, h.on q hmem]
      rintro rfl
      exact hvar (List.mem_map_of_mem hmem)
    · obtain rfl := List.mem_singleton.1 hmem
      exact if_pos rfl
  · rw [List.map_append, List.mem_append, not_or] at hi
    rw [get_set, if_neg fun heq => hi.2 (by simp [heq]), h.off i hi.1]

theorem clear {var : Nat} {b : Bool} (h : Assigned a (p ++ [(var, b)])) (hvar : var ∉ p.map Prod.fst) :
    Assigned (ipset_assignment_set a var .EITHER) p := by
  refine ⟨fun q hq => ?_, fun i hi => ?_⟩
  · rw [get_set, if_neg, h.on q (List.mem_append_left _ hq)]
    rintro rfl
    exact hvar (List.mem_map_of_mem hq)
  · rw [get_set]
    split
    · rfl
    · exact h.off i (by simp_all)

end Assigned

/-! ### Paths -/

section
variable {cache : NodeCache} {iterator : BddIterator} {stack : List Nat} {above p : List (Nat × Bool)}
  {rest ps : List (List (Nat × Bool) × Nat)}

/-- A node of the stack has its paths to `high` left if the assignment makes its variable false. -/
inductive Frames (cache : NodeCache) : List Nat → List (Nat × Bool) → List (List (Nat × Bool) × Nat) → Prop
  | nil : Frames cache [] [] []
  | cons {i : Nat} {k : Content} {hi : Bdd Nat} {stack : List Nat} {above : List (Nat × Bool)}
      {rest : List (List (Nat × Bool) × Nat)} (content : cache.content i = some k)
      (high : Rep cache.content k.high hi) (robdd : hi.Robdd (k.var + 1)) (lt : ∀ q ∈ above, q.1 < k.var)
      (frames : Frames cache stack above rest) (b : Bool) :
      Frames cache (i :: stack) (above ++ [(k.var, b)])
        ((if b then [] else hi.paths.map fun p => (above ++ (k.var, true) :: p.1, p.2)) ++ rest)

/-- The paths and leaves that an iterator has left, from the one it is at. -/
inductive At (cache : NodeCache) (iterator : BddIterator) : List (List (Nat × Bool) × Nat) → Prop
  | finished (finished : iterator.finished = true) : At cache iterator []
  | path {p : List (Nat × Bool)} {rest : List (List (Nat × Bool) × Nat)} (finished : iterator.finished = false)
      (assigned : Assigned iterator.assignment p) (frames : Frames cache iterator.stack p rest) :
      At cache iterator ((p, iterator.value) :: rest)

theorem not_mem_of_lt {n : Nat} (h : ∀ q ∈ above, q.1 < n) : n ∉ above.map Prod.fst := by
  intro hmem
  obtain ⟨q, hq, hqn⟩ := List.mem_map.1 hmem
  have hlt := h q hq
  omega

theorem forall_lt_append {n : Nat} (h : ∀ q ∈ above, q.1 < n) (b : Bool) : ∀ q ∈ above ++ [(n, b)], q.1 < n + 1 := by
  intro q hq
  rcases List.mem_append.1 hq with hmem | hmem
  · exact Nat.lt_succ_of_lt (h q hmem)
  · obtain rfl := List.mem_singleton.1 hmem
    exact Nat.lt_succ_self _

theorem addNodeLoop_spec (iterator : BddIterator) {x : NodeId} {t : Bdd Nat} (h : Rep cache.content x t)
    {n : Nat} (hr : t.Robdd n)
    (hframes : Frames cache iterator.stack above rest) (hlt : ∀ q ∈ above, q.1 < n)
    (hfinished : iterator.finished = false) (hassigned : Assigned iterator.assignment above) {fuel : Nat}
    (hfuel : t.height < fuel) :
    ∃ it, addNodeLoop cache fuel iterator x = .ok it ∧
      At cache it (t.paths.map (fun p => (above ++ p.1, p.2)) ++ rest) := by
  induction h generalizing iterator above rest n fuel with
  | terminal v =>
    obtain ⟨fuel, rfl⟩ := Nat.exists_eq_succ_of_ne_zero (Nat.ne_of_gt hfuel)
    refine ⟨_, rfl, ?_⟩
    rw [Bdd.paths, List.map_singleton, List.append_nil]
    exact @At.path cache { iterator with value := v } _ _ hfinished hassigned hframes
  | @nonterminal i k lo hi content low high ihl _ =>
    obtain ⟨fuel, rfl⟩ := Nat.exists_eq_succ_of_ne_zero (Nat.ne_zero_of_lt hfuel)
    obtain ⟨r, hget⟩ := Cached.of_content content
    cases hr with
    | node le hlow hhigh ne =>
      have habove : ∀ q ∈ above, q.1 < k.var := fun q hq => Nat.lt_of_lt_of_le (hlt q hq) le
      have hnotin := not_mem_of_lt habove
      have hlow_fuel : lo.height < fuel := by
        rw [Bdd.height] at hfuel
        omega
      obtain ⟨it, hcall, hat⟩ := ihl ({ iterator with
          stack := i :: iterator.stack
          assignment := ipset_assignment_set iterator.assignment k.var .FALSE }) hlow
        (.cons content high hhigh habove hframes false)
        (forall_lt_append habove false) hfinished (hassigned.set hnotin false) hlow_fuel
      refine ⟨it, ?_, ?_⟩
      · rw [addNodeLoop, hget, M.ok_bind]
        exact hcall
      · simpa [Bdd.paths, Function.comp_def] using hat

theorem add_node_spec (iterator : BddIterator) {x : NodeId} {t : Bdd Nat} (h : Rep cache.content x t)
    {n : Nat} (hr : t.Robdd n)
    (hframes : Frames cache iterator.stack above rest) (hlt : ∀ q ∈ above, q.1 < n)
    (hfinished : iterator.finished = false) (hassigned : Assigned iterator.assignment above) :
    ∃ it, add_node cache iterator x = .ok it ∧ At cache it (t.paths.map (fun p => (above ++ p.1, p.2)) ++ rest) :=
  addNodeLoop_spec iterator h hr hframes hlt hfinished hassigned (Nat.lt_succ_of_le (h.height_le hr))

theorem ipset_node_iterate_spec {x : NodeId} {t : Bdd Nat} (h : Rep cache.content x t) (hr : t.Robdd 0) :
    ∃ it, ipset_node_iterate cache x = .ok it ∧ At cache it t.paths := by
  obtain ⟨it, hcall, hat⟩ := add_node_spec ⟨false, [], [], 0⟩ h hr .nil (by simp) rfl
    ⟨by simp, fun i _ => rfl⟩
  exact ⟨it, hcall, by simpa using hat⟩

theorem bddAdvanceLoop_spec {a : Assignment} (hframes : Frames cache stack p rest)
    (hfinished : iterator.finished = false) (hassigned : Assigned a p) :
    ∃ it, bddAdvanceLoop cache iterator stack a = .ok it ∧ At cache it rest := by
  induction hframes generalizing a with
  | nil => exact ⟨_, rfl, .finished rfl⟩
  | @cons i k hi stack above rest content high robdd lt frames b ih =>
    obtain ⟨r, hget⟩ := Cached.of_content content
    have hnotin := not_mem_of_lt lt
    have hvar : ipset_assignment_get a k.var = .ofBool b := hassigned.on _ (List.mem_append_right _ List.mem_cons_self)
    rw [bddAdvanceLoop, hget, M.ok_bind]
    simp only [hvar]
    cases b
    · -- The value of the variable becomes true, and the paths to `high` follow.
      obtain ⟨it, hcall, hat⟩ := add_node_spec ({ iterator with
          stack := i :: stack
          assignment := ipset_assignment_set a k.var .TRUE }) high robdd (.cons content high robdd lt frames true)
        (forall_lt_append lt true) hfinished (((hassigned.clear hnotin).set hnotin true).congr fun j => by
          rw [get_set, get_set, get_set]
          split <;> rfl)
      exact ⟨it, hcall, by simpa using hat⟩
    · exact ih (hassigned.clear hnotin)

theorem At.advance {q : List (Nat × Bool) × Nat} (h : At cache iterator (q :: ps)) :
    ∃ it, ipset_bdd_iterator_advance cache iterator = .ok it ∧ At cache it ps := by
  cases h with
  | path hfinished hassigned hframes =>
    rw [ipset_bdd_iterator_advance, hfinished]
    exact bddAdvanceLoop_spec hframes hfinished hassigned

theorem At.assign (h : At cache iterator ps) {a : Assignment}
    (ha : ∀ i, ipset_assignment_get a i = ipset_assignment_get iterator.assignment i) :
    At cache { iterator with assignment := a } ps := by
  cases h with
  | finished hfinished => exact .finished hfinished
  | path hfinished hassigned hframes =>
    exact @At.path cache { iterator with assignment := a } _ _ hfinished (hassigned.congr ha) hframes

end

/-! ### Open variables -/

/-- The values that an `ipset_expanded_assignment` has left, from the ones it is at. -/
inductive Expands (exp : ExpandedAssignment) : List (Nat → Bool) → Prop
  | finished (finished : exp.finished = true) : Expands exp []
  | values (finished : exp.finished = false) (nodup : exp.eithers.Nodup) :
      Expands exp (exp.values :: Bdd.later exp.eithers exp.values)

theorem expandedAdvanceLoop_append (f : Nat → Bool) (l : List Nat) (e : Nat) :
    expandedAdvanceLoop f (l ++ [e]) =
      if (expandedAdvanceLoop f l).1 then
        if (expandedAdvanceLoop f l).2 e then (true, Function.update (expandedAdvanceLoop f l).2 e false)
        else (false, Function.update (expandedAdvanceLoop f l).2 e true)
      else expandedAdvanceLoop f l := by
  induction l generalizing f with
  | nil => rfl
  | cons i l ih =>
    rw [List.cons_append, expandedAdvanceLoop, expandedAdvanceLoop]
    split
    · exact ih _
    · rfl

theorem expandedAdvanceLoop_spec {es : List Nat} (h : es.Nodup) (f : Nat → Bool) :
    match Bdd.later es f with
    | [] => expandedAdvanceLoop f es.reverse = (true, Bdd.clear es f)
    | g :: gs => expandedAdvanceLoop f es.reverse = (false, g) ∧ gs = Bdd.later es g := by
  induction es with
  | nil => exact congrArg (Prod.mk true) (Bdd.clear_nil f).symm
  | cons e es ih =>
    obtain ⟨he, hes⟩ := List.nodup_cons.1 h
    have hloop := ih hes
    rw [List.reverse_cons, expandedAdvanceLoop_append]
    cases hlater : Bdd.later es f with
    | nil =>
      rw [hlater] at hloop
      have hfe : Bdd.clear es f e = f e := by simp [Bdd.clear, he]
      simp only [hloop, if_true, hfe]
      cases hv : f e
      · have hlist : Bdd.later (e :: es) f = Function.update (Bdd.clear es f) e true ::
            Bdd.later es (Function.update (Bdd.clear es f) e true) := by
          rw [Bdd.later, hlater, hv, if_neg Bool.false_ne_true, List.nil_append, Bdd.expansions_eq hes,
            Bdd.clear_update he]
        rw [hlist]
        refine ⟨rfl, ?_⟩
        rw [Bdd.later, Function.update_self, if_pos rfl, List.append_nil]
      · have hlist : Bdd.later (e :: es) f = [] := by rw [Bdd.later, hlater, hv, if_pos rfl, List.nil_append]
        rw [hlist, if_pos rfl, Bdd.clear_cons]
    | cons g gs =>
      rw [hlater] at hloop
      have hsame : ∀ i, i ∉ es → g i = f i := Bdd.eq_of_mem_later (hlater ▸ List.mem_cons_self)
      have hlist : Bdd.later (e :: es) f = g :: Bdd.later (e :: es) g := by
        have hexp : Bdd.expansions es (Function.update f e true) = Bdd.expansions es (Function.update g e true) := by
          refine Bdd.expansions_congr fun i hi => ?_
          rw [Function.update_apply, Function.update_apply, hsame i hi]
        rw [Bdd.later, Bdd.later, hlater, hloop.2, hsame e he, hexp]
        rfl
      rw [hlist]
      exact ⟨by rw [hloop.1]; rfl, rfl⟩

theorem Expands.advance {exp : ExpandedAssignment} {f : Nat → Bool} {fs : List (Nat → Bool)}
    (h : Expands exp (f :: fs)) : Expands (ipset_expanded_assignment_advance exp) fs := by
  cases h with
  | values hfinished hnodup =>
    have hloop := expandedAdvanceLoop_spec hnodup exp.values
    rw [ipset_expanded_assignment_advance, hfinished]
    split at hloop
    · rename_i hlater
      rw [hlater, hloop]
      exact .finished rfl
    · rename_i g gs hlater
      rw [hlater, hloop.1, hloop.2]
      exact @Expands.values { exp with finished := false, values := g } rfl hnodup

/-! ### Networks -/

/-- The path with a value for the variable 0, which says the family. -/
def families (p : List (Nat × Bool)) : List (Family × List (Nat × Bool)) :=
  if (0, false) ∈ p then [(ipv6, p)]
  else if (0, true) ∈ p then [(ipv4, p)]
  else [(ipv4, (0, true) :: p), (ipv6, (0, false) :: p)]

/-- The last variable that a network fixes. -/
def lastBit (summarize : Bool) (F : Family) (p : List (Nat × Bool)) : Nat :=
  if summarize then Nat.findGreatest (· ∈ p.map Prod.fst) F.IP_BIT_SIZE else F.IP_BIT_SIZE

/-- The network with the values `f` for the variables up to `last`. -/
def networkOf (last : Nat) (f : Nat → Bool) : AclFile.CorkIp × Nat :=
  (if f 0 then .v4 (addressBits 32 last f) else .v6 (addressBits 128 last f), last)

/-- The variables up to `last` that a path leaves open, and its values for the others. -/
def openBits (last : Nat) (p : List (Nat × Bool)) : List Nat := (List.range (last + 1)).filter (· ∉ p.map Prod.fst)

def pathBits (last : Nat) (p : List (Nat × Bool)) (i : Nat) : Bool := decide (i < last + 1 ∧ (i, true) ∈ p)

def networksOf (summarize : Bool) (e : Family × List (Nat × Bool)) : List (AclFile.CorkIp × Nat) :=
  let last := lastBit summarize e.1 e.2
  (Bdd.expansions (openBits last e.2) (pathBits last e.2)).map (networkOf last)

def pathNetworks (desired_value : Nat) (summarize : Bool) (p : List (Nat × Bool) × Nat) : List (AclFile.CorkIp × Nat) :=
  if p.2 = desired_value then (families p.1).flatMap (networksOf summarize) else []

/-! ### Calls -/

section
variable {cache : NodeCache} {iterator it : IpsetIterator} {outs : List (AclFile.CorkIp × Nat)}
  {p : List (Nat × Bool)} {q : List (Nat × Bool) × Nat} {ps : List (List (Nat × Bool) × Nat)} {call call' : Call}

/-- With enough fuel the call returns `it`. -/
def Returns (cache : NodeCache) (call : Call) (iterator it : IpsetIterator) : Prop :=
  ∃ n, ∀ fuel ≥ n, iteratorCalls cache fuel call iterator = .ok it

theorem Returns.of_eq (h : ∀ fuel, iteratorCalls cache (fuel + 1) call iterator = .ok it) :
    Returns cache call iterator it := by
  refine ⟨1, fun fuel hfuel => ?_⟩
  obtain ⟨fuel, rfl⟩ := Nat.exists_eq_add_of_le' hfuel
  exact h fuel

theorem Returns.step {iterator' : IpsetIterator} (h : Returns cache call' iterator' it)
    (hstep : ∀ fuel, iteratorCalls cache (fuel + 1) call iterator = iteratorCalls cache fuel call' iterator') :
    Returns cache call iterator it := by
  obtain ⟨n, hn⟩ := h
  refine ⟨n + 1, fun fuel hfuel => ?_⟩
  obtain ⟨fuel, rfl⟩ := Nat.exists_eq_add_of_le' (Nat.le_trans (Nat.le_add_left 1 n) hfuel)
  exact (hstep fuel).trans (hn fuel (Nat.le_of_succ_le_succ hfuel))

/-- The networks of paths, as the iterator wants them. -/
def IpsetIterator.networks (iterator : IpsetIterator) (ps : List (List (Nat × Bool) × Nat)) :
    List (AclFile.CorkIp × Nat) :=
  ps.flatMap (pathNetworks iterator.desired_value iterator.summarize)

/-- The networks behind those of the current family. -/
inductive Later (cache : NodeCache) (iterator : IpsetIterator) : List (AclFile.CorkIp × Nat) → Prop
  | normal {q : List (Nat × Bool) × Nat} {ps : List (List (Nat × Bool) × Nat)}
      (state : iterator.multiple_expansion_state = .NORMAL) (paths : At cache iterator.bdd_iterator (q :: ps)) :
      Later cache iterator (iterator.networks ps)
  | ipv4 {p : List (Nat × Bool)} {v : Nat} {ps : List (List (Nat × Bool) × Nat)}
      (state : iterator.multiple_expansion_state = .MULTIPLE_IPV4)
      (paths : At cache (iterator.assign .EITHER).bdd_iterator ((p, v) :: ps)) (either : 0 ∉ p.map Prod.fst) :
      Later cache iterator (networksOf iterator.summarize (ipv6, (0, false) :: p) ++ iterator.networks ps)
  | ipv6 {q : List (Nat × Bool) × Nat} {ps : List (List (Nat × Bool) × Nat)}
      (state : iterator.multiple_expansion_state = .MULTIPLE_IPV6)
      (paths : At cache (iterator.assign .EITHER).bdd_iterator (q :: ps)) :
      Later cache iterator (iterator.networks ps)

theorem Later.congr (h : Later cache iterator outs)
    (hstate : it.multiple_expansion_state = iterator.multiple_expansion_state)
    (hpaths : it.bdd_iterator = iterator.bdd_iterator) (hdesired : it.desired_value = iterator.desired_value)
    (hsummarize : it.summarize = iterator.summarize) : Later cache it outs := by
  have hnetworks : ∀ ps, iterator.networks ps = it.networks ps := by
    intro ps
    rw [IpsetIterator.networks, IpsetIterator.networks, hdesired, hsummarize]
  have hassign : (it.assign .EITHER).bdd_iterator = (iterator.assign .EITHER).bdd_iterator := by
    rw [IpsetIterator.assign, IpsetIterator.assign, hpaths]
  cases h with
  | normal state paths => exact hnetworks _ ▸ .normal (hstate.trans state) (hpaths ▸ paths)
  | ipv4 state paths either =>
    rw [hnetworks, ← hsummarize]
    exact .ipv4 (hstate.trans state) (hassign ▸ paths) either
  | ipv6 state paths => exact hnetworks _ ▸ .ipv6 (hstate.trans state) (hassign ▸ paths)

/-- The networks that an iterator has left, from the one it is at. -/
inductive SetAt (cache : NodeCache) (iterator : IpsetIterator) : List (AclFile.CorkIp × Nat) → Prop
  | finished (finished : iterator.finished = true) : SetAt cache iterator []
  | network {exp : ExpandedAssignment} {g : Nat → Bool} {gs : List (Nat → Bool)} {outs : List (AclFile.CorkIp × Nat)}
      (finished : iterator.finished = false) (assignment : iterator.assignment_iterator = some exp)
      (expands : Expands exp (g :: gs)) (addr : (iterator.addr, iterator.cidr) = networkOf iterator.cidr g)
      (later : Later cache iterator outs) :
      SetAt cache iterator ((g :: gs).map (networkOf iterator.cidr) ++ outs)

theorem find_last_non_either_bit_eq {a : Assignment} (h : Assigned a p) (n : Nat) :
    find_last_non_either_bit a n = Nat.findGreatest (· ∈ p.map Prod.fst) n := by
  induction n with
  | zero => rfl
  | succ n ih =>
    rw [find_last_non_either_bit, Nat.findGreatest_succ, ih]
    exact if_congr ((not_congr h.either_iff).trans not_not) rfl rfl

theorem ipset_assignment_expand_spec {a : Assignment} (h : Assigned a p) (last : Nat) :
    Expands (ipset_assignment_expand a (last + 1)) (Bdd.expansions (openBits last p) (pathBits last p)) := by
  have heithers : (ipset_assignment_expand a (last + 1)).eithers = openBits last p := by
    refine List.filter_congr fun i _ => ?_
    exact decide_eq_decide.2 h.either_iff
  have hvalues : (ipset_assignment_expand a (last + 1)).values = pathBits last p := by
    funext i
    exact decide_eq_decide.2 (and_congr_right fun _ => h.bool_iff (b := true))
  have hnodup : (openBits last p).Nodup := List.nodup_range.filter _
  have hclear : Bdd.clear (openBits last p) (pathBits last p) = pathBits last p := by
    funext i
    by_cases hi : (i, true) ∈ p
    · have hopen : i ∉ openBits last p := by
        intro hmem
        have hnotin := (List.mem_filter.1 hmem).2
        exact of_decide_eq_true hnotin (List.mem_map_of_mem hi)
      simp [Bdd.clear, hopen]
    · simp [Bdd.clear, pathBits, hi]
  have hexp := @Expands.values (ipset_assignment_expand a (last + 1)) rfl (heithers ▸ hnodup)
  rw [heithers, hvalues] at hexp
  rw [Bdd.expansions_eq hnodup, hclear]
  exact hexp

theorem process_expanded_spec (iterator : IpsetIterator) {exp : ExpandedAssignment} {gs : List (Nat →
    Bool)} (hexp : Expands exp gs) (hgs : gs ≠ [])
    (hassignment : iterator.assignment_iterator = some exp) (hfinished : iterator.finished = false)
    (hlater : Later cache iterator outs) :
    ∃ it, Returns cache .process_expanded_assignment iterator it ∧
      SetAt cache it (gs.map (networkOf iterator.cidr) ++ outs) := by
  cases hexp with
  | finished => exact absurd rfl hgs
  | values hexp hnodup =>
    refine ⟨create_ip_address iterator exp, .of_eq fun fuel => ?_, ?_⟩
    · rw [iteratorCalls, hassignment]
      simp only [hexp, if_neg Bool.false_ne_true]
    · exact @SetAt.network cache (create_ip_address iterator exp) _ _ _ _ hfinished hassignment
        (.values hexp hnodup) rfl (hlater.congr rfl rfl rfl rfl)

theorem expand_spec (iterator : IpsetIterator) (F : Family) (hassigned : Assigned iterator.bdd_iterator.assignment p)
    (hfinished : iterator.finished = false) (hlater : Later cache iterator outs) :
    ∃ it, Returns cache (.expand F) iterator it ∧ SetAt cache it (networksOf iterator.summarize (F, p) ++ outs) := by
  have hlast : (if iterator.summarize then
      find_last_non_either_bit iterator.bdd_iterator.assignment F.IP_BIT_SIZE else F.IP_BIT_SIZE) =
      lastBit iterator.summarize F p := by
    rw [lastBit, find_last_non_either_bit_eq hassigned]
  obtain ⟨it, hreturns, hat⟩ := process_expanded_spec
    ({ iterator with
      assignment_iterator := some (ipset_assignment_expand iterator.bdd_iterator.assignment
        (lastBit iterator.summarize F p + 1))
      cidr := lastBit iterator.summarize F p })
    (ipset_assignment_expand_spec hassigned _) (Bdd.expansions_ne_nil _ _) rfl hfinished (hlater.congr rfl rfl rfl rfl)
  refine ⟨it, hreturns.step fun fuel => ?_, hat⟩
  rw [iteratorCalls]
  simp only [hlast]

theorem networks_cons (iterator : IpsetIterator) :
    iterator.networks (q :: ps) = pathNetworks iterator.desired_value iterator.summarize q ++ iterator.networks ps :=
  List.flatMap_cons

theorem process_assignment_spec (iterator : IpsetIterator) (hat : At cache iterator.bdd_iterator ps)
    (hfinished : iterator.finished = false) :
    ∃ it, Returns cache .process_assignment iterator it ∧ SetAt cache it (iterator.networks ps) := by
  induction ps generalizing iterator with
  | nil =>
    cases hat with
    | finished hend =>
      refine ⟨_, .of_eq fun fuel => ?_, @SetAt.finished cache { iterator with
        assignment_iterator := none
        finished := true } rfl⟩
      rw [iteratorCalls, if_pos hend]
  | cons q ps ih =>
    obtain ⟨bdd, hadvance, hbdd⟩ := hat.advance
    cases hat with
    | @path p _ hpath hassigned hframes =>
      have hat : At cache iterator.bdd_iterator ((p, iterator.bdd_iterator.value) :: ps) :=
        .path hpath hassigned hframes
      rw [networks_cons, pathNetworks]
      by_cases hv : iterator.bdd_iterator.value = iterator.desired_value
      · rw [if_pos hv, families]
        cases hget : ipset_assignment_get iterator.bdd_iterator.assignment 0 with
        | FALSE =>
          rw [if_pos ((hassigned.bool_iff (b := false)).1 hget), List.flatMap_singleton]
          obtain ⟨it, hreturns, hset⟩ := expand_spec { iterator with multiple_expansion_state := .NORMAL }
            ipv6 hassigned hfinished (.normal rfl hat)
          refine ⟨it, hreturns.step fun fuel => ?_, hset⟩
          rw [iteratorCalls, hpath, if_neg Bool.false_ne_true, if_pos hv]
          simp only [hget]
        | TRUE =>
          rw [if_neg fun hmem => ?_, if_pos ((hassigned.bool_iff (b := true)).1 hget), List.flatMap_singleton]
          · obtain ⟨it, hreturns, hset⟩ := expand_spec { iterator with multiple_expansion_state := .NORMAL }
              ipv4 hassigned hfinished (.normal rfl hat)
            refine ⟨it, hreturns.step fun fuel => ?_, hset⟩
            rw [iteratorCalls, hpath, if_neg Bool.false_ne_true, if_pos hv]
            simp only [hget]
          · cases hget.symm.trans (hassigned.on _ hmem)
        | EITHER =>
          have hany := hassigned.either_iff.1 hget
          rw [if_neg fun hmem => hany (List.mem_map_of_mem hmem), if_neg fun hmem => hany (List.mem_map_of_mem hmem)]
          rw [List.flatMap_cons, List.flatMap_singleton, List.append_assoc]
          have hpaths : ∀ i, ipset_assignment_get (ipset_assignment_set
              (ipset_assignment_set iterator.bdd_iterator.assignment 0 .TRUE) 0 .EITHER) i =
              ipset_assignment_get iterator.bdd_iterator.assignment i := by
            intro i
            rw [get_set, get_set]
            split
            · subst i
              exact hget.symm
            · rfl
          obtain ⟨it, hreturns, hset⟩ := expand_spec
            ({ iterator.assign .TRUE with multiple_expansion_state := .MULTIPLE_IPV4 }) ipv4
            ((hassigned.set hany true).perm List.perm_append_comm) hfinished (.ipv4 rfl (hat.assign hpaths) hany)
          refine ⟨it, hreturns.step fun fuel => ?_, hset⟩
          rw [iteratorCalls, hpath, if_neg Bool.false_ne_true, if_pos hv]
          simp only [hget]
      · rw [if_neg hv, List.nil_append]
        obtain ⟨it, hreturns, hset⟩ := ih { iterator with bdd_iterator := bdd } hbdd hfinished
        refine ⟨it, hreturns.step fun fuel => ?_, hset⟩
        rw [iteratorCalls, hpath, if_neg Bool.false_ne_true, if_neg hv, hadvance]
        rfl

theorem advance_assignment_spec (iterator : IpsetIterator) (hlater : Later cache iterator outs)
    (hfinished : iterator.finished = false) :
    ∃ it, Returns cache .advance_assignment iterator it ∧ SetAt cache it outs := by
  cases hlater with
  | @normal q ps state paths =>
    obtain ⟨bdd, hadvance, hbdd⟩ := paths.advance
    obtain ⟨it, hreturns, hset⟩ := process_assignment_spec { iterator with bdd_iterator := bdd }
      hbdd hfinished
    refine ⟨it, hreturns.step fun fuel => ?_, hset⟩
    rw [iteratorCalls, state]
    simp only [hadvance]
    rfl
  | @ipv4 p v ps state paths either =>
    have hassigned : Assigned (ipset_assignment_set iterator.bdd_iterator.assignment 0 .FALSE) ((0, false) :: p) := by
      cases paths with
      | path _ hassigned _ =>
        refine ((hassigned.set either false).perm List.perm_append_comm).congr fun i => ?_
        rw [get_set, get_set]
        split
        · rfl
        · exact (by rw [IpsetIterator.assign, get_set, if_neg ‹_›])
    have hpaths : At cache (({ iterator.assign .FALSE with
        multiple_expansion_state := .MULTIPLE_IPV6 } : IpsetIterator).assign .EITHER).bdd_iterator ((p, v) :: ps) := by
      refine paths.assign fun i => ?_
      show ipset_assignment_get (ipset_assignment_set
        (ipset_assignment_set iterator.bdd_iterator.assignment 0 .FALSE) 0 .EITHER) i =
          ipset_assignment_get (ipset_assignment_set iterator.bdd_iterator.assignment 0 .EITHER) i
      rw [get_set, get_set, get_set]
      split <;> rfl
    obtain ⟨it, hreturns, hset⟩ := expand_spec
      ({ iterator.assign .FALSE with multiple_expansion_state := .MULTIPLE_IPV6 }) ipv6 hassigned hfinished
      (.ipv6 rfl hpaths)
    refine ⟨it, hreturns.step fun fuel => ?_, hset⟩
    rw [iteratorCalls, state]
  | @ipv6 q ps state paths =>
    obtain ⟨bdd, hadvance, hbdd⟩ := paths.advance
    obtain ⟨it, hreturns, hset⟩ := process_assignment_spec
      { iterator.assign .EITHER with bdd_iterator := bdd } hbdd hfinished
    refine ⟨it, hreturns.step fun fuel => ?_, hset⟩
    rw [iteratorCalls, state]
    simp only [hadvance]
    rfl

/-- An `advance` drops the first network. -/
theorem ipset_iterator_advance_spec {o : AclFile.CorkIp × Nat} (h : SetAt cache iterator (o :: outs)) :
    o = (iterator.addr, iterator.cidr) ∧ iterator.finished = false ∧
      ∃ it, (∃ n, ∀ fuel ≥ n, ipset_iterator_advance fuel cache iterator = .ok it) ∧ SetAt cache it outs := by
  generalize hlist : o :: outs = l at h
  cases h with
  | finished => cases hlist
  | @network exp g gs outs' hfinished hassignment hexp haddr hlater =>
    rw [List.map_cons, List.cons_append] at hlist
    obtain ⟨rfl, rfl⟩ := List.cons.inj hlist
    refine ⟨haddr.symm, hfinished, ?_⟩
    have hrest : ∃ it, Returns cache .process_expanded_assignment { iterator with
          assignment_iterator := some (ipset_expanded_assignment_advance exp) } it ∧
        SetAt cache it (gs.map (networkOf iterator.cidr) ++ outs') := by
      cases gs with
      | nil =>
        have hend : (ipset_expanded_assignment_advance exp).finished = true := by
          cases hexp.advance with
          | finished hend => exact hend
        obtain ⟨it, hreturns, hset⟩ := advance_assignment_spec { iterator with assignment_iterator := none }
          (hlater.congr rfl rfl rfl rfl) hfinished
        refine ⟨it, hreturns.step fun fuel => ?_, hset⟩
        rw [iteratorCalls]
        simp only [hend, if_true]
      | cons g' gs =>
        exact process_expanded_spec ({ iterator with
          assignment_iterator := some (ipset_expanded_assignment_advance exp) }) hexp.advance (List.cons_ne_nil _ _) rfl
          hfinished (hlater.congr rfl rfl rfl rfl)
    obtain ⟨it, ⟨n, hn⟩, hset⟩ := hrest
    refine ⟨it, ⟨n, fun fuel hfuel => ?_⟩, hset⟩
    rw [ipset_iterator_advance, if_neg (Bool.not_eq_true _ ▸ hfinished), hassignment]
    exact hn fuel hfuel

theorem readAll_spec (h : SetAt cache iterator outs) :
    ∃ n, ∀ fuel ≥ n, ∀ m ≥ n, readAll fuel cache m iterator = .ok outs := by
  induction outs generalizing iterator with
  | nil =>
    refine ⟨1, fun fuel _ m hm => ?_⟩
    obtain ⟨m, rfl⟩ := Nat.exists_eq_add_of_le' hm
    have hend : iterator.finished = true := by
      generalize hlist : ([] : List (AclFile.CorkIp × Nat)) = l at h
      cases h with
      | finished hend => exact hend
      | network => cases hlist
    rw [readAll, if_pos hend]
  | cons o outs ih =>
    obtain ⟨rfl, hfinished, it, ⟨n₁, hadvance⟩, hset⟩ := ipset_iterator_advance_spec h
    obtain ⟨n₂, hrest⟩ := ih hset
    refine ⟨max n₁ n₂ + 1, fun fuel hfuel m hm => ?_⟩
    obtain ⟨m, rfl⟩ := Nat.exists_eq_add_of_le' (Nat.le_trans (Nat.le_add_left 1 _) hm)
    rw [readAll, hfinished, if_neg Bool.false_ne_true, hadvance fuel (by omega), M.ok_bind,
      hrest fuel (by omega) m (by omega)]
    rfl

theorem iterateAll_spec {s : IpSet} {t : Bdd Nat} (h : Diagram s t) (desired_value summarize : Bool)
    (junk : AclFile.CorkIp × Nat × ExpansionState) :
    ∃ n, ∀ fuel ≥ n, iterateAll fuel s desired_value summarize junk =
      .ok (t.paths.flatMap (pathNetworks desired_value.toNat summarize)) := by
  obtain ⟨bdd, hiterate, hbdd⟩ := ipset_node_iterate_spec h.rep h.isSet.robdd
  obtain ⟨it, ⟨n₁, hreturns⟩, hset⟩ := process_assignment_spec
    (⟨junk.1, junk.2.1, junk.2.2, bdd, none, false, desired_value.toNat, summarize⟩) hbdd rfl
  obtain ⟨n₂, hread⟩ := readAll_spec hset
  refine ⟨max n₁ n₂, fun fuel hfuel => ?_⟩
  rw [iterateAll, create_iterator, hiterate, M.ok_bind, hreturns fuel (by omega), M.ok_bind]
  exact hread fuel (by omega) fuel (by omega)

end

/-! ### What the networks contain -/

theorem addressBits_getMsbD {w n i : Nat} (f : Nat → Bool) (hi : i < w) :
    (addressBits w n f).getMsbD i = (decide (i < n) && f (i + 1)) := by
  rw [addressBits, BitVec.getMsbD_cast, BitVec.getMsbD_ofBoolListBE]
  simp [hi]

theorem bitsOf_networkOf {last : Nat} {f : Nat → Bool} (h : last ≤ (family (networkOf last f).1).IP_BIT_SIZE) {i : Nat}
    (hi : i < last + 1) : bitsOf (networkOf last f).1 i = f i := by
  have hbits : ∀ {w : Nat}, last ≤ w → i ≠ 0 → (addressBits w last f).getMsbD (i - 1) = f i := by
    intro w hw h0
    rw [addressBits_getMsbD f (by omega), Nat.sub_add_cancel (by omega), decide_eq_true (by omega), Bool.true_and]
  rw [networkOf] at h ⊢
  cases hf : f 0 <;> simp only [hf, if_true, if_neg Bool.false_ne_true] at h ⊢
  · show (if i = 0 then false else (addressBits 128 last f).getMsbD (i - 1)) = f i
    split
    · subst i
      exact hf.symm
    · exact hbits h ‹_›
  · show (if i = 0 then true else (addressBits 32 last f).getMsbD (i - 1)) = f i
    split
    · subst i
      exact hf.symm
    · exact hbits h ‹_›

theorem bitsOf_networkOf_of_lt {last i : Nat} (f : Nat →
    Bool) (hi : last < i) : bitsOf (networkOf last f).1 i = false := by
  have hbits : ∀ w, (addressBits w last f).getMsbD (i - 1) = false := by
    intro w
    by_cases hw : i - 1 < w
    · rw [addressBits_getMsbD f hw, decide_eq_false (by omega), Bool.false_and]
    · exact BitVec.getMsbD_of_ge _ _ (Nat.not_lt.1 hw)
  have h0 : i ≠ 0 := Nat.ne_zero_of_lt hi
  rw [networkOf]
  cases f 0
  · exact (if_neg h0).trans (hbits 128)
  · exact (if_neg h0).trans (hbits 32)

/-- A network has the addresses with the values that it was made of. -/
theorem mem_networkOf {last : Nat} {f : Nat → Bool} (h : last ≤ (family (networkOf last f).1).IP_BIT_SIZE)
    (ip : AclFile.CorkIp) :
    ip ∈ network (networkOf last f).1 (networkOf last f).2 ↔ ∀ i < last + 1, bitsOf ip i = f i := by
  have hlast : (networkOf last f).2 = last := rfl
  rw [hlast, ← bits_agree_network _ _ h]
  exact forall₂_congr fun i hi => by rw [bitsOf_networkOf h hi]

/-- A path with the family that its networks have. -/
structure OfFamily (e : Family × List (Nat × Bool)) : Prop where
  size : e.1 = ipv4 ∨ e.1 = ipv6
  discriminator : (0, e.1.IP_DISCRIMINATOR_VALUE) ∈ e.2
  nodup : (e.2.map Prod.fst).Nodup
  le : ∀ q ∈ e.2, q.1 ≤ e.1.IP_BIT_SIZE

namespace OfFamily
variable {e : Family × List (Nat × Bool)} {summarize : Bool} {f : Nat → Bool}

theorem lastBit_le (summarize : Bool) (F : Family) (p : List (Nat × Bool)) : lastBit summarize F p ≤ F.IP_BIT_SIZE := by
  rw [lastBit]
  split
  · exact Nat.findGreatest_le _
  · exact Nat.le_refl _

theorem le_lastBit (h : OfFamily e) (summarize : Bool) {q : Nat × Bool} (hq : q ∈ e.2) :
    q.1 ≤ lastBit summarize e.1 e.2 := by
  rw [lastBit]
  split
  · exact Nat.le_findGreatest (h.le q hq) (List.mem_map_of_mem hq)
  · exact h.le q hq

theorem pathBits_eq (h : OfFamily e) {last : Nat} {q : Nat × Bool} (hq : q ∈ e.2) (hlast : q.1 ≤ last) :
    pathBits last e.2 q.1 = q.2 := by
  obtain ⟨i, b⟩ := q
  rw [pathBits]
  cases b
  · refine decide_eq_false fun hmem => ?_
    have heq := List.inj_on_of_nodup_map h.nodup hq hmem.2 rfl
    exact Bool.false_ne_true (congrArg Prod.snd heq)
  · exact decide_eq_true ⟨Nat.lt_succ_of_le hlast, hq⟩

theorem value_zero (h : OfFamily e) (summarize : Bool)
    (hf : f ∈ Bdd.expansions (openBits (lastBit summarize e.1 e.2) e.2) (pathBits (lastBit summarize e.1 e.2) e.2)) :
    f 0 = e.1.IP_DISCRIMINATOR_VALUE := by
  rw [Bdd.mem_expansions.1 hf 0]
  · exact h.pathBits_eq h.discriminator (Nat.zero_le _)
  · intro hmem
    exact of_decide_eq_true (List.mem_filter.1 hmem).2 (List.mem_map_of_mem h.discriminator)

theorem family_eq (h : OfFamily e) (summarize : Bool)
    (hf : f ∈ Bdd.expansions (openBits (lastBit summarize e.1 e.2) e.2) (pathBits (lastBit summarize e.1 e.2) e.2)) :
    family (networkOf (lastBit summarize e.1 e.2) f).1 = e.1 := by
  have hzero := h.value_zero summarize hf
  rw [networkOf]
  rcases h.size with hF | hF <;> simp only [hF, ipv4, ipv6] at hzero ⊢ <;> rw [hzero] <;> rfl

/-- The networks of a path have the addresses with its values. -/
theorem mem_networksOf (h : OfFamily e) (summarize : Bool) (ip : AclFile.CorkIp) :
    (∃ o ∈ networksOf summarize e, ip ∈ network o.1 o.2) ↔ Bdd.Agrees (bitsOf ip) e.2 := by
  have hmem :
      ∀ f ∈ Bdd.expansions (openBits (lastBit summarize e.1 e.2) e.2) (pathBits (lastBit summarize e.1 e.2) e.2),
      ip ∈ network (networkOf (lastBit summarize e.1 e.2) f).1 (networkOf (lastBit summarize e.1 e.2) f).2 ↔
        ∀ i < lastBit summarize e.1 e.2 + 1, bitsOf ip i = f i := fun f hf =>
    mem_networkOf (by rw [h.family_eq summarize hf]; exact lastBit_le _ _ _) ip
  constructor
  · rintro ⟨o, ho, hip⟩ q hq
    obtain ⟨f, hf, rfl⟩ := List.mem_map.1 ho
    have hle := h.le_lastBit summarize hq
    have hopen : q.1 ∉ openBits (lastBit summarize e.1 e.2) e.2 := by
      intro hmem
      exact of_decide_eq_true (List.mem_filter.1 hmem).2 (List.mem_map_of_mem hq)
    rw [(hmem f hf).1 hip q.1 (Nat.lt_succ_of_le hle), Bdd.mem_expansions.1 hf _ hopen, h.pathBits_eq hq hle]
  · intro hagrees
    refine ⟨_, List.mem_map_of_mem (a := fun i => if i ∈ openBits (lastBit summarize e.1 e.2) e.2 then bitsOf ip i
      else pathBits (lastBit summarize e.1 e.2) e.2 i) ?_, ?_⟩
    · exact Bdd.mem_expansions.2 fun i hi => if_neg hi
    · refine (hmem _ (Bdd.mem_expansions.2 fun i hi => if_neg hi)).2 fun i hi => ?_
      by_cases hopen : i ∈ openBits (lastBit summarize e.1 e.2) e.2
      · exact (if_pos hopen).symm
      · rw [if_neg hopen]
        have hkey : i ∈ e.2.map Prod.fst := by
          by_contra hnot
          exact hopen (List.mem_filter.2 ⟨List.mem_range.2 hi, decide_eq_true hnot⟩)
        obtain ⟨q, hq, rfl⟩ := List.mem_map.1 hkey
        rw [hagrees q hq, h.pathBits_eq hq (Nat.le_of_lt_succ hi)]

theorem networksOf_pairwise (h : OfFamily e) (summarize : Bool) (ip : AclFile.CorkIp) :
    (networksOf summarize e).Pairwise fun o o' => ¬ (ip ∈ network o.1 o.2 ∧ ip ∈ network o'.1 o'.2) := by
  have hnodup : (openBits (lastBit summarize e.1 e.2) e.2).Nodup := List.nodup_range.filter _
  refine List.pairwise_map.2 ((Bdd.expansions_pairwise hnodup _).imp_of_mem ?_)
  rintro f f' hf hf' ⟨i, hi, hne⟩ ⟨hip, hip'⟩
  have hle : i < lastBit summarize e.1 e.2 + 1 := List.mem_range.1 (List.mem_filter.1 hi).1
  rw [mem_networkOf (by rw [h.family_eq summarize hf]; exact lastBit_le _ _ _)] at hip
  rw [mem_networkOf (by rw [h.family_eq summarize hf']; exact lastBit_le _ _ _)] at hip'
  exact hne ((hip i hle).symm.trans (hip' i hle))

end OfFamily

section
variable {p : List (Nat × Bool)} {v : Nat} {t : Bdd Nat}

theorem agrees_families (b : Nat → Bool) (p : List (Nat × Bool)) :
    (∃ e ∈ families p, Bdd.Agrees b e.2) ↔ Bdd.Agrees b p := by
  rw [families]
  split
  · simp
  · split
    · simp
    · cases hb : b 0 <;> simp [Bdd.agrees_cons, hb]

/-- No address is in two families. -/
theorem families_pairwise (b : Nat → Bool) (p : List (Nat × Bool)) :
    (families p).Pairwise fun e e' => ¬ (Bdd.Agrees b e.2 ∧ Bdd.Agrees b e'.2) := by
  rw [families]
  split
  · exact List.pairwise_singleton _ _
  · split
    · exact List.pairwise_singleton _ _
    · refine List.pairwise_pair.2 fun h => ?_
      exact Bool.false_ne_true ((Bdd.agrees_cons.1 h.2).1.symm.trans (Bdd.agrees_cons.1 h.1).1)

/-- The variables of a path are those of the addresses on it. -/
theorem IsSet.le_of_path (h : IsSet t) (hp : (p, v) ∈ t.paths) {b : Bool} (hb : (0, b) ∈ p ∨ 0 ∉ p.map Prod.fst)
    {q : Nat × Bool} (hq : q ∈ p) : q.1 ≤ if b then 32 else 128 := by
  have hnodup := (h.robdd.le_of_mem_path hp).1
  rcases Bdd.mem_path_branches h.robdd hp with ⟨v', q', hq', heq⟩ | ⟨hsame, -⟩
  · obtain ⟨rfl, rfl⟩ := Prod.mk.inj heq
    obtain rfl : b = v' := by
      rcases hb with hmem | hnot
      · exact congrArg Prod.snd (List.inj_on_of_nodup_map hnodup hmem List.mem_cons_self rfl)
      · exact absurd (List.mem_map_of_mem (f := Prod.fst) List.mem_cons_self) hnot
    rcases List.mem_cons.1 hq with rfl | hmem
    · exact Nat.zero_le _
    · cases b
      · exact Nat.le_of_lt_succ (h.v6.lt_of_mem_path hq' hmem)
      · exact Nat.le_of_lt_succ (h.v4.lt_of_mem_path hq' hmem)
  · have hv4 := h.v4
    rw [hsame] at hv4
    have hlt := hv4.lt_of_mem_path hp hq
    split <;> omega

theorem IsSet.ofFamily (h : IsSet t) (hp : (p, v) ∈ t.paths) {e : Family × List (Nat × Bool)} (he : e ∈ families p) :
    OfFamily e := by
  have hnodup := (h.robdd.le_of_mem_path hp).1
  have hcons : ∀ b, 0 ∉ p.map Prod.fst → (((0, b) :: p).map Prod.fst).Nodup := fun b hany =>
    List.nodup_cons.2 ⟨hany, hnodup⟩
  rw [families] at he
  split at he
  · obtain rfl := List.mem_singleton.1 he
    exact ⟨.inr rfl, ‹_›, hnodup, fun q hq => h.le_of_path hp (b := false) (.inl ‹_›) hq⟩
  · split at he
    · obtain rfl := List.mem_singleton.1 he
      exact ⟨.inl rfl, ‹_›, hnodup, fun q hq => h.le_of_path hp (b := true) (.inl ‹_›) hq⟩
    · have hany : 0 ∉ p.map Prod.fst := by
        intro hmem
        obtain ⟨⟨i, b⟩, hq, rfl⟩ := List.mem_map.1 hmem
        cases b <;> contradiction
      rcases List.mem_cons.1 he with rfl | he
      · refine ⟨.inl rfl, List.mem_cons_self, hcons true hany, List.forall_mem_cons.2 ⟨Nat.zero_le _, fun q hq => ?_⟩⟩
        exact h.le_of_path hp (b := true) (.inr hany) hq
      · obtain rfl := List.mem_singleton.1 he
        refine ⟨.inr rfl, List.mem_cons_self, hcons false hany, List.forall_mem_cons.2 ⟨Nat.zero_le _, fun q hq => ?_⟩⟩
        exact h.le_of_path hp (b := false) (.inr hany) hq

variable {desired_value : Nat} {summarize : Bool}

theorem mem_pathNetworks (h : IsSet t) (hp : (p, v) ∈ t.paths) (ip : AclFile.CorkIp) :
    (∃ o ∈ pathNetworks desired_value summarize (p, v), ip ∈ network o.1 o.2) ↔
      v = desired_value ∧ Bdd.Agrees (bitsOf ip) p := by
  rw [pathNetworks]
  split
  · rw [and_iff_right ‹_›, ← agrees_families]
    constructor
    · rintro ⟨o, ho, hip⟩
      obtain ⟨e, he, ho⟩ := List.mem_flatMap.1 ho
      exact ⟨e, he, ((h.ofFamily hp he).mem_networksOf summarize ip).1 ⟨o, ho, hip⟩⟩
    · rintro ⟨e, he, hagrees⟩
      obtain ⟨o, ho, hip⟩ := ((h.ofFamily hp he).mem_networksOf summarize ip).2 hagrees
      exact ⟨o, List.mem_flatMap.2 ⟨e, he, ho⟩, hip⟩
  · exact iff_of_false (by simp) fun hv => absurd hv.1 ‹_›

theorem mem_networks (h : IsSet t) (ip : AclFile.CorkIp) :
    (∃ o ∈ t.paths.flatMap (pathNetworks desired_value summarize), ip ∈ network o.1 o.2) ↔
      t.eval (bitsOf ip) = desired_value := by
  constructor
  · rintro ⟨o, ho, hip⟩
    obtain ⟨⟨p, v⟩, hp, ho⟩ := List.mem_flatMap.1 ho
    obtain ⟨hv, hagrees⟩ := (mem_pathNetworks h hp ip).1 ⟨o, ho, hip⟩
    exact (Bdd.eval_of_path hp hagrees).trans hv
  · intro heval
    obtain ⟨⟨p, v⟩, hp, hagrees, hv⟩ := Bdd.exists_path t (bitsOf ip)
    obtain ⟨o, ho, hip⟩ := (mem_pathNetworks h hp ip).2 ⟨hv.trans heval, hagrees⟩
    exact ⟨o, List.mem_flatMap.2 ⟨_, hp, ho⟩, hip⟩

theorem pathNetworks_pairwise (h : IsSet t) (hp : (p, v) ∈ t.paths) (ip : AclFile.CorkIp) :
    (pathNetworks desired_value summarize (p, v)).Pairwise fun o o' =>
      ¬ (ip ∈ network o.1 o.2 ∧ ip ∈ network o'.1 o'.2) := by
  rw [pathNetworks]
  split
  · refine List.pairwise_flatMap.2 ⟨fun e he => (h.ofFamily hp he).networksOf_pairwise summarize ip, ?_⟩
    refine (families_pairwise (bitsOf ip) p).imp_of_mem fun he he' hne o ho o' ho' hip => hne ⟨?_, ?_⟩
    · exact ((h.ofFamily hp he).mem_networksOf summarize ip).1 ⟨o, ho, hip.1⟩
    · exact ((h.ofFamily hp he').mem_networksOf summarize ip).1 ⟨o', ho', hip.2⟩
  · exact .nil

theorem networks_pairwise (h : IsSet t) (ip : AclFile.CorkIp) :
    (t.paths.flatMap (pathNetworks desired_value summarize)).Pairwise fun o o' =>
      ¬ (ip ∈ network o.1 o.2 ∧ ip ∈ network o'.1 o'.2) := by
  refine List.pairwise_flatMap.2 ⟨fun q hq => pathNetworks_pairwise h hq ip, ?_⟩
  refine (Bdd.paths_pairwise t (bitsOf ip)).imp_of_mem fun hq hq' hne o ho o' ho' hip => hne ⟨?_, ?_⟩
  · exact ((mem_pathNetworks h hq ip).1 ⟨o, ho, hip.1⟩).2
  · exact ((mem_pathNetworks h hq' ip).1 ⟨o', ho', hip.2⟩).2

/-- Networks of paths are written with zeros behind their prefix, and have it full if nothing is summarized. -/
theorem prefix_of_mem (h : IsSet t) {o : AclFile.CorkIp × Nat}
    (ho : o ∈ t.paths.flatMap (pathNetworks desired_value summarize)) :
    o.2 ≤ (family o.1).IP_BIT_SIZE ∧ (∀ i, o.2 < i → bitsOf o.1 i = false) ∧
      (summarize = false → o.2 = (family o.1).IP_BIT_SIZE) := by
  obtain ⟨⟨p, v⟩, hp, ho⟩ := List.mem_flatMap.1 ho
  rw [pathNetworks] at ho
  split at ho
  · obtain ⟨e, he, ho⟩ := List.mem_flatMap.1 ho
    obtain ⟨f, hf, rfl⟩ := List.mem_map.1 ho
    have hfamily := (h.ofFamily hp he).family_eq summarize hf
    refine ⟨?_, fun i hi => ?_, fun hsummarize => ?_⟩
    · rw [hfamily]
      exact OfFamily.lastBit_le _ _ _
    · exact bitsOf_networkOf_of_lt f hi
    · rw [hfamily]
      show lastBit summarize e.1 e.2 = _
      rw [lastBit, hsummarize, if_neg Bool.false_ne_true]
  · cases ho

end

/-- An iterator over a set ends. Its networks are disjoint and have the addresses that are in the set, or those that are
not, and without `summarize` a network is one address. -/
theorem ipset_iterate (ops : List IpOp) (desired_value summarize : Bool)
    (junk : AclFile.CorkIp × Nat × ExpansionState) :
    ∃ s outs n, updates ops = .ok s ∧ (∀ fuel ≥ n, iterateAll fuel s desired_value summarize junk = .ok outs) ∧
      outs.Pairwise (fun o o' => ∀ ip ∈ network o.1 o.2, ip ∉ network o'.1 o'.2) ∧
      (∀ ip, (∃ o ∈ outs, ip ∈ network o.1 o.2) ↔ (ip ∈ addresses ops ↔ desired_value = true)) ∧
      ∀ o ∈ outs, o.2 ≤ (family o.1).IP_BIT_SIZE ∧ (∀ i, o.2 < i → bitsOf o.1 i = false) ∧
        (summarize = false → o.2 = (family o.1).IP_BIT_SIZE) := by
  obtain ⟨s, hcall, ⟨t, ht, hA⟩, -⟩ := updates_spec ops
  obtain ⟨n, hn⟩ := iterateAll_spec ht desired_value summarize junk
  refine ⟨s, _, n, hcall, hn, ?_, fun ip => ?_, fun o ho => prefix_of_mem ht.isSet ho⟩
  · rw [List.pairwise_iff_getElem]
    intro i j hi hj hij ip hip hip'
    exact List.pairwise_iff_getElem.1 (networks_pairwise ht.isSet ip) i j hi hj hij ⟨hip, hip'⟩
  · rw [mem_networks ht.isSet ip, hA]
    have hvalue := ht.isSet.value (bitsOf ip)
    cases desired_value <;> simp only [Bool.toNat_false, Bool.toNat_true] <;> rcases hvalue with hv | hv <;> simp [hv]

end OutlineServer.Ipset
