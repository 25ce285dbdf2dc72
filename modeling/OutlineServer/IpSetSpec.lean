import OutlineServer.IpSetNodes
import Mathlib.Data.Set.Insert

/-!
# What a set contains

A set is a decision diagram over the variable 0, which is true for IPv4, and the bits of an address. `Holds s A` says
that the set `s` represents the addresses `A`: its updates are insertions and removals in `A` (`IpOp.run_spec`), and two
sets are equal if and only if they represent the same addresses, as their diagrams are reduced.
-/

namespace OutlineServer.Ipset
open AclFile

/-! ### Addresses as assignments -/

theorem inNetwork_iff {w : Nat} (addr : BitVec w) (n : Nat) (elem : BitVec w) :
    InNetwork addr n elem ↔ n ≤ w ∧ ∀ i < n, addr.getMsbD i = elem.getMsbD i := by
  refine and_congr_right fun hn => ⟨fun h i hi => ?_, fun h => ?_⟩
  · have hbit := congrArg (fun x : BitVec w => x.getMsbD (i + (w - n))) h
    simp only [BitVec.getMsbD_ushiftRight] at hbit
    have h1 : i + (w - n) < w := by omega
    have h2 : ¬ i + (w - n) < w - n := by omega
    simpa [h1, h2] using hbit
  · refine BitVec.eq_of_getMsbD_eq fun i hi => ?_
    rw [BitVec.getMsbD_ushiftRight, BitVec.getMsbD_ushiftRight]
    by_cases hlt : i < w - n
    · simp [hlt]
    · rw [h (i - (w - n)) (by omega)]

/-- The variables of an address: its family, and its bits. -/
def Family.bits (F : Family) (addr : BitVec F.IP_BIT_SIZE) (var : Nat) : Bool :=
  if var = 0 then F.IP_DISCRIMINATOR_VALUE else addr.getMsbD (var - 1)

theorem Family.assignment_eq (F : Family) (addr : BitVec F.IP_BIT_SIZE) {var : Nat} (h : var ≤ F.IP_BIT_SIZE) :
    F.assignment addr var = .ok (F.bits addr var) := by
  rw [assignment, bits]
  split
  · rfl
  · exact if_pos (by omega)

theorem Family.bits_agree_iff (F : Family) (addr elem : BitVec F.IP_BIT_SIZE) {n : Nat} (h : n ≤ F.IP_BIT_SIZE) :
    (∀ i < n + 1, F.bits elem i = F.bits addr i) ↔ InNetwork addr n elem := by
  rw [inNetwork_iff]
  constructor
  · refine fun hall => ⟨h, fun i hi => ?_⟩
    have hbit := hall (i + 1) (by omega)
    simpa [bits] using hbit.symm
  · rintro ⟨-, hall⟩ i hi
    rw [bits, bits]
    split
    · rfl
    · exact (hall (i - 1) (by omega)).symm

def family : AclFile.CorkIp → Family
  | .v4 _ => ipv4
  | .v6 _ => ipv6

def bitsOf : AclFile.CorkIp → Nat → Bool
  | .v4 addr => ipv4.bits addr
  | .v6 addr => ipv6.bits addr

/-- The addresses of the network `addr/n`. -/
def network : AclFile.CorkIp → Nat → Set AclFile.CorkIp
  | .v4 addr, n => {ip | ∃ elem, ip = .v4 elem ∧ InNetwork addr n elem}
  | .v6 addr, n => {ip | ∃ elem, ip = .v6 elem ∧ InNetwork addr n elem}

theorem bits_agree_network (addr ip : AclFile.CorkIp) {n : Nat} (h : n ≤ (family addr).IP_BIT_SIZE) :
    (∀ i < n + 1, bitsOf ip i = bitsOf addr i) ↔ ip ∈ network addr n := by
  cases addr with
  | v4 addr =>
    cases ip with
    | v4 elem =>
      have hnet : AclFile.CorkIp.v4 elem ∈ network (.v4 addr) n ↔ InNetwork addr n elem := by simp [network]
      exact (ipv4.bits_agree_iff addr elem h).trans hnet.symm
    | v6 elem =>
      refine iff_of_false (fun hall => ?_) (by simp [network])
      exact Bool.false_ne_true (hall 0 (Nat.succ_pos n))
  | v6 addr =>
    cases ip with
    | v4 elem =>
      refine iff_of_false (fun hall => ?_) (by simp [network])
      exact Bool.false_ne_true (hall 0 (Nat.succ_pos n)).symm
    | v6 elem =>
      have hnet : AclFile.CorkIp.v6 elem ∈ network (.v6 addr) n ↔ InNetwork addr n elem := by simp [network]
      exact (ipv6.bits_agree_iff addr elem h).trans hnet.symm

theorem network_self (addr : AclFile.CorkIp) : network addr (family addr).IP_BIT_SIZE = {addr} := by
  cases addr <;> ext ip <;> simp [network, family, ipv4, ipv6, InNetwork]

/-! ### The diagrams of sets -/

/-- A diagram of a set: with the variable 0 true it has the variables of an IPv4 address, otherwise
of an IPv6 address. -/
structure IsSet (t : Bdd Nat) : Prop where
  robdd : t.Robdd 0
  values : t.Leaves (· < 2)
  v4 : (t.branches 0).2.Below 33
  v6 : (t.branches 0).1.Below 129

theorem IsSet.below {t : Bdd Nat} (h : IsSet t) (ip : AclFile.CorkIp) :
    (if bitsOf ip 0 then (t.branches 0).2 else (t.branches 0).1).Below ((family ip).IP_BIT_SIZE + 1) := by
  cases ip with
  | v4 addr => exact h.v4
  | v6 addr => exact h.v6

theorem IsSet.leaf {v : Nat} (h : v < 2) : IsSet (.leaf v) := ⟨.leaf v, h, trivial, trivial⟩

theorem IsSet.insert {t : Bdd Nat} (h : IsSet t) (addr : AclFile.CorkIp) {n value : Nat}
    (hn : n ≤ (family addr).IP_BIT_SIZE) (hvalue : value < 2) : IsSet (t.insert (bitsOf addr) value (n + 1) 0) := by
  have hvalues := Bdd.Leaves.insert (P := (· < 2)) (bitsOf addr) hvalue (n + 1) 0 h.values
  refine ⟨h.robdd.insert .., hvalues, ?_, ?_⟩ <;> rw [Bdd.insert] <;> split
  · exact h.v4
  · have hrobdd := h.robdd.branches
    split
    · rename_i hv4
      cases addr with
      | v4 addr =>
        rw [Bdd.branches_mk hrobdd.1]
        exact h.v4.insert _ _ (by simp only [family, ipv4] at hn; omega)
      | v6 addr => exact absurd hv4 (by simp [bitsOf, Family.bits, ipv6])
    · rw [Bdd.branches_mk (hrobdd.1.insert ..)]
      exact h.v4
  · exact h.v6
  · have hrobdd := h.robdd.branches
    split
    · rw [Bdd.branches_mk hrobdd.1]
      exact h.v6
    · rename_i hv6
      cases addr with
      | v4 addr => exact absurd rfl hv6
      | v6 addr =>
        rw [Bdd.branches_mk (hrobdd.1.insert ..)]
        exact h.v6.insert _ _ (by simp only [family, ipv6] at hn; omega)

theorem exists_getMsbD (w : Nat) (c : Nat → Bool) : ∃ addr : BitVec w, ∀ i < w, addr.getMsbD i = c i := by
  have hlen : ((List.range w).map c).length = w := by simp
  refine ⟨(BitVec.ofBoolListBE ((List.range w).map c)).cast hlen, fun i hi => ?_⟩
  rw [BitVec.getMsbD_cast, BitVec.getMsbD_ofBoolListBE]
  simp [hi]

/-- An address has any values for the variables that matter to its family. -/
theorem exists_bitsOf (b : Nat → Bool) :
    ∃ ip : AclFile.CorkIp, bitsOf ip 0 = b 0 ∧ ∀ i ≤ (family ip).IP_BIT_SIZE, bitsOf ip i = b i := by
  have hbits : ∀ F : Family, F.IP_DISCRIMINATOR_VALUE = b 0 →
      ∃ addr : BitVec F.IP_BIT_SIZE, ∀ i ≤ F.IP_BIT_SIZE, F.bits addr i = b i := by
    intro F hF
    obtain ⟨addr, haddr⟩ := exists_getMsbD F.IP_BIT_SIZE fun i => b (i + 1)
    refine ⟨addr, fun i hi => ?_⟩
    rw [Family.bits]
    split
    · subst i
      exact hF
    · rw [haddr (i - 1) (by omega), Nat.sub_add_cancel (by omega)]
  cases hb : b 0
  · obtain ⟨addr, haddr⟩ := hbits ipv6 hb.symm
    exact ⟨.v6 addr, rfl, haddr⟩
  · obtain ⟨addr, haddr⟩ := hbits ipv4 hb.symm
    exact ⟨.v4 addr, rfl, haddr⟩

section
variable {t t' : Bdd Nat}

/-- Only the variables of the address matter. -/
theorem IsSet.eval_congr (h : IsSet t) (ip : AclFile.CorkIp) {b b' : Nat → Bool} (h0 : b 0 = bitsOf ip 0)
    (hb : ∀ i ≤ (family ip).IP_BIT_SIZE, b i = b' i) : t.eval b = t.eval b' := by
  have hbelow := h.below ip
  rw [Bdd.eval_branches 0 t b, Bdd.eval_branches 0 t b', ← hb 0 (Nat.zero_le _), h0]
  split at hbelow
  · rw [if_pos ‹_›, if_pos ‹_›]
    exact Bdd.eval_congr_below hbelow fun i hi => hb i (Nat.le_of_lt_succ hi)
  · rw [if_neg ‹_›, if_neg ‹_›]
    exact Bdd.eval_congr_below hbelow fun i hi => hb i (Nat.le_of_lt_succ hi)

theorem IsSet.value (h : IsSet t) (b : Nat → Bool) : t.eval b = 0 ∨ t.eval b = 1 := by
  have hlt := h.values.eval b
  omega

/-- Sets with the same addresses have the same diagram. -/
theorem IsSet.ext (h : IsSet t) (h' : IsSet t') (hmem : ∀ ip, t.eval (bitsOf ip) ≠ 0 ↔ t'.eval (bitsOf ip) ≠ 0) :
    t = t' := by
  refine h.robdd.ext h'.robdd (funext fun b => ?_)
  obtain ⟨ip, h0, hbits⟩ := exists_bitsOf b
  rw [← h.eval_congr ip rfl hbits, ← h'.eval_congr ip rfl hbits]
  have hiff := hmem ip
  rcases h.value (bitsOf ip) with hv | hv <;> rcases h'.value (bitsOf ip) with hv' | hv' <;> simp_all

open Classical in
theorem eval_insert_network (t : Bdd Nat) (addr ip : AclFile.CorkIp) {n : Nat} (hn : n ≤ (family addr).IP_BIT_SIZE)
    (value : Nat) :
    (t.insert (bitsOf addr) value (n + 1) 0).eval (bitsOf ip) =
      if ip ∈ network addr n then value else t.eval (bitsOf ip) := by
  rw [Bdd.eval_insert]
  simp only [Nat.zero_add]
  refine if_congr (bits_agree_network addr ip hn) rfl rfl

end

/-! ### Sets -/

/-- The set `s` has the diagram `t`, and its root holds the only reference from outside. -/
structure Diagram (s : IpSet) (t : Bdd Nat) : Prop where
  cached : ∃ live, Cached s.cache live [] [s.set_bdd]
  rep : Rep s.cache.content s.set_bdd t
  isSet : IsSet t

/-- The set `s` represents the addresses `A`. -/
def Holds (s : IpSet) (A : Set AclFile.CorkIp) : Prop := ∃ t, Diagram s t ∧ ∀ ip, ip ∈ A ↔ t.eval (bitsOf ip) ≠ 0

theorem ipset_init_holds : Holds ipset_init ∅ := by
  refine ⟨.leaf 0, ⟨⟨[], ?_⟩, .terminal 0, .leaf Nat.two_pos⟩, by simp [Bdd.eval]⟩
  refine ⟨.refl _, List.nodup_nil, ?_, ?_, ?_, ?_, ?_⟩
  all_goals simp [ipset_init, ipset_node_cache_new, refCount, edges, FreeAll]
  exact ⟨[], rfl, by simp⟩

section
variable {s s' : IpSet} {A A' : Set AclFile.CorkIp} {t : Bdd Nat}

theorem Diagram.contains (h : Diagram s t) (ip : AclFile.CorkIp) :
    ipset_contains_ip s ip = .ok (decide (t.eval (bitsOf ip) ≠ 0)) := by
  have hreads : ∀ v ∈ t.reads (bitsOf ip), v ≤ (family ip).IP_BIT_SIZE := by
    intro v hv
    rcases Bdd.reads_branches (n := 0) hv with rfl | hv
    · exact Nat.zero_le _
    · exact Nat.le_of_lt_succ ((h.isSet.below ip).lt_of_mem_reads hv)
  have hrun : ∀ asg, (∀ v ∈ t.reads (bitsOf ip), asg v = .ok (bitsOf ip v)) →
      ipset_node_evaluate s.cache s.set_bdd asg = .ok (t.eval (bitsOf ip)) := fun asg hasg =>
    evaluateLoop_spec h.rep hasg (Nat.lt_succ_of_le (h.rep.height_le h.isSet.robdd))
  cases ip with
  | v4 addr =>
    simp only [ipset_contains_ip, Family.contains, hrun _ fun v hv => ipv4.assignment_eq addr (hreads v hv), M.ok_bind]
    rfl
  | v6 addr =>
    simp only [ipset_contains_ip, Family.contains, hrun _ fun v hv => ipv6.assignment_eq addr (hreads v hv), M.ok_bind]
    rfl

theorem Holds.contains (h : Holds s A) (ip : AclFile.CorkIp) :
    ∃ b, ipset_contains_ip s ip = .ok b ∧ (b = true ↔ ip ∈ A) := by
  obtain ⟨t, ht, hA⟩ := h
  exact ⟨_, ht.contains ip, by rw [hA, decide_eq_true_eq]⟩

/-- The new diagram replaces the old one, whose nodes are given back. -/
theorem Diagram.insertWith (h : Diagram s t) {asg : Nat → M Bool} {a : Nat → Bool} {n value : Nat}
    (hasg : ∀ v < n, asg v = .ok (a v)) (hset : IsSet (t.insert a value n 0)) :
    ∃ s', Ipset.insertWith s asg n value = .ok (decide (t.insert a value n 0 = t), s') ∧
      Diagram s' (t.insert a value n 0) ∧ s'.cache.slots.length ≤ s.cache.slots.length + n := by
  obtain ⟨live, hcached⟩ := h.cached
  obtain ⟨x, cache₁, live₁, hcall₁, h₁, hrep₁, hgrows₁⟩ := ipset_node_insert_spec value hasg hcached h.rep h.isSet.robdd
  have hold := hgrows₁.rep h.rep
  obtain ⟨cache₂, live₂, hcall₂, h₂, hsub₂, hlen₂⟩ :=
    ipset_node_decref_spec hold h.isSet.robdd (h₁.perm (.refl _) (List.Perm.swap ..))
  have hsame : decide (x = s.set_bdd) = decide (t.insert a value n 0 = t) := by
    refine decide_eq_decide.2 ⟨?_, fun heq => ?_⟩
    · rintro rfl
      exact hrep₁.unique hold
    · rw [heq] at hrep₁
      exact hrep₁.inj h₁.shared hold
  refine ⟨⟨cache₂, x⟩, ?_, ⟨⟨_, h₂⟩, ?_, hset⟩, Nat.le_trans hlen₂.le hgrows₁.le_length_add⟩
  · simp only [Ipset.insertWith, hcall₁, M.ok_bind, hcall₂, hsame]
    rfl
  · exact h₁.rep_of_subset h₂ hsub₂ (List.mem_append_right _ List.mem_cons_self) hrep₁

end

/-- The updates of a set. -/
inductive IpOp
  | add (addr : AclFile.CorkIp)
  | remove (addr : AclFile.CorkIp)
  | add_network (addr : AclFile.CorkIp) (cidr : Nat)
  | remove_network (addr : AclFile.CorkIp) (cidr : Nat)

def IpOp.run (s : IpSet) : IpOp → M (Bool × IpSet)
  | .add addr => ipset_ip_add s addr
  | .remove addr => ipset_ip_remove s addr
  | .add_network addr n => ipset_ip_add_network s addr n
  | .remove_network addr n => ipset_ip_remove_network s addr n

def IpOp.spec (A : Set AclFile.CorkIp) : IpOp → Set AclFile.CorkIp
  | .add addr => insert addr A
  | .remove addr => A \ {addr}
  | .add_network addr n => A ∪ network addr n
  | .remove_network addr n => A \ network addr n

namespace IpOp

def addr : IpOp → AclFile.CorkIp
  | .add addr | .remove addr | .add_network addr _ | .remove_network addr _ => addr

/-- An address is a network of all its bits. -/
def cidr : IpOp → Nat
  | .add addr | .remove addr => (family addr).IP_BIT_SIZE
  | .add_network _ n | .remove_network _ n => n

def value : IpOp → Nat
  | .add _ | .add_network _ _ => 1
  | .remove _ | .remove_network _ _ => 0

/-- The prefix of a network is not longer than its address. -/
def InRange (op : IpOp) : Prop := op.cidr ≤ (family op.addr).IP_BIT_SIZE

instance (op : IpOp) : Decidable op.InRange := inferInstanceAs (Decidable (_ ≤ _))

end IpOp

def assignmentOf : AclFile.CorkIp → Nat → M Bool
  | .v4 addr => ipv4.assignment addr
  | .v6 addr => ipv6.assignment addr

theorem assignmentOf_eq (ip : AclFile.CorkIp) {v : Nat} (h : v ≤ (family ip).IP_BIT_SIZE) :
    assignmentOf ip v = .ok (bitsOf ip v) := by
  cases ip with
  | v4 addr => exact ipv4.assignment_eq addr h
  | v6 addr => exact ipv6.assignment_eq addr h

theorem IpOp.run_eq (s : IpSet) (op : IpOp) :
    op.run s = if op.InRange then insertWith s (assignmentOf op.addr) (op.cidr + 1) op.value
      else .ok (false, s) := by
  have hrange : ∀ {n w : Nat} {x y : M (Bool × IpSet)}, (if w < n then x else y) = if n ≤ w then y else x := by
    intro n w x y
    rw [← ite_not]
    exact if_congr Nat.not_lt rfl rfl
  rcases op with (addr | addr) | (addr | addr) | ⟨addr | addr, n⟩ | ⟨addr | addr, n⟩
  · exact (if_pos (Nat.le_refl _)).symm
  · exact (if_pos (Nat.le_refl _)).symm
  · exact (if_pos (Nat.le_refl _)).symm
  · exact (if_pos (Nat.le_refl _)).symm
  · exact hrange
  · exact hrange
  · exact hrange
  · exact hrange

open Classical in
theorem IpOp.spec_eq (A : Set AclFile.CorkIp) (op : IpOp) (ip : AclFile.CorkIp) :
    ip ∈ op.spec A ↔ if ip ∈ network op.addr op.cidr then op.value ≠ 0 else ip ∈ A := by
  cases op with
  | add addr =>
    rw [IpOp.addr, IpOp.cidr, network_self, Set.mem_singleton_iff, spec, Set.mem_insert_iff, value]
    by_cases h : ip = addr <;> simp [h]
  | remove addr =>
    rw [IpOp.addr, IpOp.cidr, network_self, Set.mem_singleton_iff, spec, Set.mem_sdiff, value]
    by_cases h : ip = addr <;> simp [h]
  | add_network addr n =>
    rw [IpOp.addr, IpOp.cidr, spec, Set.mem_union, value]
    by_cases h : ip ∈ network addr n <;> simp [h]
  | remove_network addr n =>
    rw [IpOp.addr, IpOp.cidr, spec, Set.mem_sdiff, value]
    by_cases h : ip ∈ network addr n <;> simp [h]

/-- There is no network with a longer prefix. -/
theorem network_eq_empty {addr : AclFile.CorkIp} {n : Nat} (h : (family addr).IP_BIT_SIZE < n) :
    network addr n = ∅ := by
  cases addr with
  | v4 addr => exact Set.eq_empty_iff_forall_notMem.2 fun ip ⟨_, _, hle, _⟩ => absurd h (Nat.not_lt.2 hle)
  | v6 addr => exact Set.eq_empty_iff_forall_notMem.2 fun ip ⟨_, _, hle, _⟩ => absurd h (Nat.not_lt.2 hle)

theorem IpOp.spec_of_not_inRange {op : IpOp} (h : ¬ op.InRange) (A : Set AclFile.CorkIp) : op.spec A = A := by
  classical
  ext ip
  rw [IpOp.spec_eq, network_eq_empty (Nat.not_le.1 h), if_neg (Set.notMem_empty ip)]

section
variable {s s' : IpSet} {A A' : Set AclFile.CorkIp} {t t' : Bdd Nat}

theorem Holds.unique (h : Holds s A) (h' : Holds s A') : A = A' := by
  obtain ⟨t, ht, hA⟩ := h
  obtain ⟨t', ht', hA'⟩ := h'
  obtain rfl := ht.rep.unique ht'.rep
  ext ip
  rw [hA, hA']

/-- An update says whether the set is the same as before, except that it says no to a prefix that is too long. -/
theorem IpOp.run_spec (h : Holds s A) (op : IpOp) :
    ∃ b s', op.run s = .ok (b, s') ∧ Holds s' (op.spec A) ∧ (b = true ↔ op.InRange ∧ op.spec A = A) ∧
      s'.cache.slots.length ≤ s.cache.slots.length + 129 := by
  classical
  rw [IpOp.run_eq]
  by_cases hrange : op.InRange
  · rw [if_pos hrange]
    obtain ⟨t, ht, hA⟩ := h
    have hvalue : op.value < 2 := by cases op <;> simp [value]
    have hset := ht.isSet.insert op.addr hrange hvalue
    have hasg : ∀ v < op.cidr + 1, assignmentOf op.addr v = .ok (bitsOf op.addr v) := fun v hv =>
      assignmentOf_eq op.addr (Nat.le_trans (Nat.le_of_lt_succ hv) hrange)
    obtain ⟨s', hcall, h', hlen⟩ := ht.insertWith hasg hset
    have hspec : ∀ ip, ip ∈ op.spec A ↔
        (t.insert (bitsOf op.addr) op.value (op.cidr + 1) 0).eval (bitsOf ip) ≠ 0 := by
      intro ip
      rw [IpOp.spec_eq, eval_insert_network t op.addr ip hrange, hA]
      split <;> rfl
    have hbits : (family op.addr).IP_BIT_SIZE ≤ 128 := by
      cases op.addr
      · exact Nat.le_of_ble_eq_true rfl
      · exact Nat.le_refl 128
    refine ⟨_, s', hcall, ⟨_, h', hspec⟩, ?_, Nat.le_trans hlen (Nat.add_le_add_left ?_ _)⟩
    swap
    · exact Nat.succ_le_succ (Nat.le_trans hrange hbits)
    rw [decide_eq_true_eq, and_iff_right hrange]
    refine ⟨fun heq => ?_, fun heq => hset.ext ht.isSet fun ip => ?_⟩
    · ext ip
      rw [hspec, heq, hA]
    · rw [← hspec, heq, hA]
  · rw [if_neg hrange, IpOp.spec_of_not_inRange hrange]
    exact ⟨false, s, rfl, h, iff_of_false Bool.false_ne_true fun hr => hrange hr.1, Nat.le_add_right _ _⟩

theorem Holds.isEmpty (h : Holds s A) : ipset_is_empty s = true ↔ A = ∅ := by
  obtain ⟨t, ht, hA⟩ := h
  rw [ipset_is_empty, decide_eq_true_eq]
  constructor
  · intro hroot
    have hrep := ht.rep
    rw [hroot] at hrep
    cases hrep
    exact Set.eq_empty_iff_forall_notMem.2 fun ip hip => (hA ip).1 hip rfl
  · rintro rfl
    obtain rfl : t = .leaf 0 := by
      refine ht.isSet.ext (.leaf Nat.two_pos) fun ip => ?_
      rw [← hA]
      simp [Bdd.eval]
    obtain ⟨live, hcached⟩ := ht.cached
    exact ht.rep.inj hcached.shared (.terminal 0)

theorem Holds.isEqual (h : Holds s A) (h' : Holds s' A') :
    ∃ b, ipset_is_equal s s' = .ok b ∧ (b = true ↔ A = A') := by
  obtain ⟨t, ht, hA⟩ := h
  obtain ⟨t', ht', hA'⟩ := h'
  refine ⟨_, nodesEqualLoop_spec ht.rep ht'.rep (Nat.lt_succ_of_le (ht.rep.height_le ht.isSet.robdd)), ?_⟩
  rw [decide_eq_true_eq]
  constructor
  · rintro rfl
    ext ip
    rw [hA, hA']
  · rintro rfl
    exact ht.isSet.ext ht'.isSet fun ip => (hA ip).symm.trans (hA' ip)

end

end OutlineServer.Ipset
