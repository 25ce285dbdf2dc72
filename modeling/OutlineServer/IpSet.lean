import OutlineServer.AclFile
import OutlineServer.Lib.Dict

/-!
# Sets of IP addresses

libcorkipset (`libipset/src/libipset`) keeps a set as a binary decision diagram in a node cache. A node has a reference
count, a hash table finds the node with given contents, and a node whose count drops to 0 goes to the free list. Its
slot is `Slot.free` then: the code must not take it for a node any more. A `NodeId` is what the low bit and the other
bits of an `ipset_node_id` say.
-/

namespace OutlineServer.Ipset
open AclFile

/-- Undefined behaviour. -/
inductive Fault
  | freed
  | underflow
  | bounds
  | diverges
deriving DecidableEq

abbrev M := Except Fault

@[simp] theorem M.ok_bind {α β : Type} (a : α) (f : α → M β) : ((.ok a : M α) >>= f) = f a := rfl

@[simp] theorem M.pure_eq {α : Type} (a : α) : (pure a : M α) = .ok a := rfl

/-! ### The node cache (`bdd/basics.c`) -/

inductive NodeId
  | terminal (value : Nat)
  | nonterminal (index : Nat)
deriving DecidableEq

/-- The fields of a nonterminal node but its reference count. -/
@[ext] structure Content where
  var : Nat
  low : NodeId
  high : NodeId
deriving DecidableEq

/-- A node, or an index that is free and has the next one in place of its reference count. -/
inductive Slot
  | node (refcount : Nat) (content : Content)
  | free (next : Option Nat)
deriving DecidableEq

structure NodeCache where
  slots : List Slot
  free_list : Option Nat
  node_cache : Dict Content NodeId

def ipset_node_cache_new : NodeCache := ⟨[], none, .empty⟩

def NodeCache.put (cache : NodeCache) (index : Nat) (slot : Slot) : NodeCache :=
  { cache with slots := cache.slots.set index slot }

/-- The node at an index: its reference count and its contents. -/
def ipset_node_cache_get_nonterminal (cache : NodeCache) (index : Nat) : M (Nat × Content) :=
  match cache.slots[index]? with
  | some (.node refcount content) => .ok (refcount, content)
  | _ => .error .freed

/-- What `cork_calloc` gives. -/
def zeroNode : Slot := .node 0 ⟨0, .nonterminal 0, .nonterminal 0⟩

def ipset_node_cache_alloc_node (cache : NodeCache) : M (Nat × NodeCache) :=
  match cache.free_list with
  | none => .ok (cache.slots.length, { cache with slots := cache.slots ++ [zeroNode] })
  | some index =>
    match cache.slots[index]? with
    | some (.free next) => .ok (index, { cache with free_list := next })
    | _ => .error .freed

def ipset_node_incref (cache : NodeCache) : NodeId → M NodeCache
  | .terminal _ => .ok cache
  | .nonterminal i => do
    let (refcount, node) ← ipset_node_cache_get_nonterminal cache i
    return cache.put i (.node (refcount + 1) node)

def decrefLoop : Nat → NodeCache → NodeId → M NodeCache
  | 0, _, _ => .error .diverges
  | _ + 1, cache, .terminal _ => .ok cache
  | fuel + 1, cache, .nonterminal i => do
    let (refcount, node) ← ipset_node_cache_get_nonterminal cache i
    if refcount = 0 then .error .underflow
    let cache := cache.put i (.node (refcount - 1) node)
    if refcount - 1 = 0 then
      let cache ← decrefLoop fuel cache node.low
      let cache ← decrefLoop fuel cache node.high
      let cache := { cache with node_cache := cache.node_cache.erase node }
      return { cache.put i (.free cache.free_list) with free_list := some i }
    else return cache

/-- The recursion goes down a path of different nodes. -/
def ipset_node_decref (cache : NodeCache) (node_id : NodeId) : M NodeCache :=
  decrefLoop (cache.slots.length + 1) cache node_id

def nodesEqualLoop (cache1 cache2 : NodeCache) : Nat → NodeId → NodeId → M Bool
  | 0, _, _ => .error .diverges
  | _ + 1, .terminal v1, .terminal v2 => .ok (v1 = v2)
  | fuel + 1, .nonterminal i1, .nonterminal i2 => do
    let (_, node1) ← ipset_node_cache_get_nonterminal cache1 i1
    let (_, node2) ← ipset_node_cache_get_nonterminal cache2 i2
    if node1.var = node2.var then
      if ← nodesEqualLoop cache1 cache2 fuel node1.low node2.low then
        nodesEqualLoop cache1 cache2 fuel node1.high node2.high
      else return false
    else return false
  | _ + 1, _, _ => .ok false

def ipset_node_cache_nodes_equal (cache1 : NodeCache) (node_id1 : NodeId) (cache2 : NodeCache) (node_id2 : NodeId) :
    M Bool :=
  nodesEqualLoop cache1 cache2 (cache1.slots.length + 1) node_id1 node_id2

def ipset_node_cache_nonterminal (cache : NodeCache) (var : Nat) (low high : NodeId) : M (NodeId × NodeCache) :=
  if low = high then do
    let cache ← ipset_node_decref cache high
    return (low, cache)
  else
    match cache.node_cache.get? ⟨var, low, high⟩ with
    | some node_id => do
      let cache ← ipset_node_incref cache node_id
      let cache ← ipset_node_decref cache low
      let cache ← ipset_node_decref cache high
      return (node_id, cache)
    | none => do
      let (new_index, cache) ← ipset_node_cache_alloc_node cache
      let cache := cache.put new_index (.node 1 ⟨var, low, high⟩)
      return (.nonterminal new_index,
        { cache with node_cache := cache.node_cache.set ⟨var, low, high⟩ (.nonterminal new_index) })

def evaluateLoop (cache : NodeCache) (assignment : Nat → M Bool) : Nat → NodeId → M Nat
  | 0, _ => .error .diverges
  | _ + 1, .terminal v => .ok v
  | fuel + 1, .nonterminal i => do
    let (_, node) ← ipset_node_cache_get_nonterminal cache i
    let this_value ← assignment node.var
    evaluateLoop cache assignment fuel (if this_value then node.high else node.low)

def ipset_node_evaluate (cache : NodeCache) (node_id : NodeId) (assignment : Nat → M Bool) : M Nat :=
  evaluateLoop cache assignment (cache.slots.length + 1) node_id

/-- `cork_array_append` of a nonterminal node. -/
def pushNode (queue : List Nat) : NodeId → List Nat
  | .terminal _ => queue
  | .nonterminal i => i :: queue

/-- The nodes that have been visited, and those to visit with the last one first. -/
def reachableLoop (cache : NodeCache) : Nat → List Nat → List Nat → Nat → M Nat
  | 0, _, _, _ => .error .diverges
  | _ + 1, _, [], node_count => .ok node_count
  | fuel + 1, visited, curr :: queue, node_count =>
    if curr ∈ visited then reachableLoop cache fuel visited queue node_count
    else do
      let (_, node) ← ipset_node_cache_get_nonterminal cache curr
      reachableLoop cache fuel (curr :: visited) (pushNode (pushNode queue node.low) node.high) (node_count + 1)

/-- A round takes a node off the queue, and every node adds two at most (`bdd/reachable.c`). -/
def ipset_node_reachable_count (cache : NodeCache) (node : NodeId) : M Nat :=
  reachableLoop cache (2 * cache.slots.length + 2) [] (pushNode [] node) 0

/-- A “fake” BDD node given by an assignment. -/
structure FakeNode where
  current_var : Nat
  var_count : Nat
  assignment : Nat → M Bool
  value : Nat

/-- `fake_terminal_0`, with the variables of `f`. -/
def FakeNode.terminal0 (f : FakeNode) : FakeNode := { f with current_var := f.var_count, value := 0 }

def FakeNode.next (f : FakeNode) : FakeNode := { f with current_var := f.current_var + 1 }

/-- The calls down both branches of F, by the function `ite`. -/
def iteBranches (ite : NodeCache → FakeNode → NodeId → M (NodeId × NodeCache)) (cache : NodeCache) (f : FakeNode)
    (h_low h_high : NodeId) : M (NodeId × NodeCache) := do
  if ← f.assignment f.current_var then
    let (result_high, cache) ← ite cache f.next h_high
    let (result_low, cache) ← ite cache f.terminal0 h_low
    ipset_node_cache_nonterminal cache f.current_var result_low result_high
  else
    let (result_high, cache) ← ite cache f.terminal0 h_high
    let (result_low, cache) ← ite cache f.next h_low
    ipset_node_cache_nonterminal cache f.current_var result_low result_high

def applyIteLoop (g : Nat) : Nat → NodeCache → FakeNode → NodeId → M (NodeId × NodeCache)
  | 0, _, _, _ => .error .diverges
  | fuel + 1, cache, f, h =>
    if f.current_var = f.var_count then
      if f.value = 0 then do
        let cache ← ipset_node_incref cache h
        return (h, cache)
      else .ok (.terminal g, cache)
    else if h = .terminal g then .ok (h, cache)
    else
      match h with
      | .nonterminal i => do
        let (_, h_node) ← ipset_node_cache_get_nonterminal cache i
        if h_node.var < f.current_var then
          let (result_high, cache) ← applyIteLoop g fuel cache f h_node.high
          let (result_low, cache) ← applyIteLoop g fuel cache f h_node.low
          ipset_node_cache_nonterminal cache h_node.var result_low result_high
        else if h_node.var = f.current_var then
          iteBranches (applyIteLoop g fuel) cache f h_node.low h_node.high
        else iteBranches (applyIteLoop g fuel) cache f h h
      | .terminal _ => iteBranches (applyIteLoop g fuel) cache f h h

/-- A call either goes to the next variable of F or to a child of H. -/
def ipset_apply_ite (cache : NodeCache) (f : FakeNode) (g : Nat) (h : NodeId) : M (NodeId × NodeCache) :=
  applyIteLoop g (f.var_count + cache.slots.length + 1) cache f h

def ipset_node_insert (cache : NodeCache) (node : NodeId) (assignment : Nat → M Bool) (var_count value : Nat) :
    M (NodeId × NodeCache) :=
  ipset_apply_ite cache ⟨0, var_count, assignment, 1⟩ value node

/-! ### Sets (`set`) -/

/-- `struct ip_set` -/
structure IpSet where
  cache : NodeCache
  set_bdd : NodeId

def ipset_init : IpSet := ⟨ipset_node_cache_new, .terminal 0⟩

/-- What the templates are given for IPv4 and for IPv6. -/
structure Family where
  IP_BIT_SIZE : Nat
  IP_DISCRIMINATOR_VALUE : Bool

def ipv4 : Family := ⟨32, true⟩
def ipv6 : Family := ⟨128, false⟩

variable {F : Family}

/-- A bit of an address in network order; the array ends behind it. -/
def IPSET_BIT_GET {w : Nat} (addr : BitVec w) (i : Nat) : M Bool :=
  if i < w then .ok (addr.getMsbD i) else .error .bounds

def Family.assignment (F : Family) (addr : BitVec F.IP_BIT_SIZE) (var : Nat) : M Bool :=
  if var = 0 then .ok F.IP_DISCRIMINATOR_VALUE else IPSET_BIT_GET addr (var - 1)

def Family.contains (F : Family) (set : IpSet) (elem : BitVec F.IP_BIT_SIZE) : M Bool := do
  let value ← ipset_node_evaluate set.cache set.set_bdd (F.assignment elem)
  return value ≠ 0

/-- The set with `value` inserted, and whether it is the same as before. -/
def insertWith (set : IpSet) (assignment : Nat → M Bool) (var_count value : Nat) : M (Bool × IpSet) := do
  let (new_bdd, cache) ← ipset_node_insert set.cache set.set_bdd assignment var_count value
  let result := new_bdd = set.set_bdd
  let cache ← ipset_node_decref cache set.set_bdd
  return (result, ⟨cache, new_bdd⟩)

def Family.add (F : Family) (set : IpSet) (elem : BitVec F.IP_BIT_SIZE) : M (Bool × IpSet) :=
  insertWith set (F.assignment elem) (F.IP_BIT_SIZE + 1) 1

def Family.remove (F : Family) (set : IpSet) (elem : BitVec F.IP_BIT_SIZE) : M (Bool × IpSet) :=
  insertWith set (F.assignment elem) (F.IP_BIT_SIZE + 1) 0

def Family.add_network (F : Family) (set : IpSet) (elem : BitVec F.IP_BIT_SIZE) (cidr : Nat) : M (Bool × IpSet) :=
  if F.IP_BIT_SIZE < cidr then .ok (false, set)
  else insertWith set (F.assignment elem) (cidr + 1) 1

def Family.remove_network (F : Family) (set : IpSet) (elem : BitVec F.IP_BIT_SIZE) (cidr : Nat) :
    M (Bool × IpSet) :=
  if F.IP_BIT_SIZE < cidr then .ok (false, set)
  else insertWith set (F.assignment elem) (cidr + 1) 0

def ipset_ip_add (set : IpSet) : AclFile.CorkIp → M (Bool × IpSet)
  | .v4 addr => ipv4.add set addr
  | .v6 addr => ipv6.add set addr

def ipset_ip_add_network (set : IpSet) (addr : AclFile.CorkIp) (cidr : Nat) : M (Bool × IpSet) :=
  match addr with
  | .v4 addr => ipv4.add_network set addr cidr
  | .v6 addr => ipv6.add_network set addr cidr

def ipset_ip_remove (set : IpSet) : AclFile.CorkIp → M (Bool × IpSet)
  | .v4 addr => ipv4.remove set addr
  | .v6 addr => ipv6.remove set addr

def ipset_ip_remove_network (set : IpSet) (addr : AclFile.CorkIp) (cidr : Nat) : M (Bool × IpSet) :=
  match addr with
  | .v4 addr => ipv4.remove_network set addr cidr
  | .v6 addr => ipv6.remove_network set addr cidr

def ipset_contains_ip (set : IpSet) : AclFile.CorkIp → M Bool
  | .v4 addr => ipv4.contains set addr
  | .v6 addr => ipv6.contains set addr

def ipset_is_empty (set : IpSet) : Bool := set.set_bdd = .terminal 0

def ipset_is_equal (set1 set2 : IpSet) : M Bool :=
  ipset_node_cache_nodes_equal set1.cache set1.set_bdd set2.cache set2.set_bdd

def ipset_done (set : IpSet) : M NodeCache := ipset_node_decref set.cache set.set_bdd

end OutlineServer.Ipset
