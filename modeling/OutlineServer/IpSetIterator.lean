import OutlineServer.IpSet

/-!
# The iterators of a set

An `ipset_iterator` has an iterator over the paths of the diagram, whose assignment leaves variables open, and one over
the values of those (`bdd/bdd-iterator.c`, `bdd/assignments.c`, `bdd/expanded.c`, `set/iterator.c`). The functions of
the set iterator call each other: `Call` says which one `iteratorCalls` runs.
-/

namespace OutlineServer.Ipset
open AclFile

/-! ### Assignments -/

inductive Tribool
  | FALSE
  | TRUE
  | EITHER
deriving DecidableEq

def Tribool.ofBool (b : Bool) : Tribool := if b then .TRUE else .FALSE

abbrev Assignment := List Tribool

def ipset_assignment_get (assignment : Assignment) (var : Nat) : Tribool := assignment.getD var .EITHER

def ipset_assignment_set (assignment : Assignment) (var : Nat) (value : Tribool) : Assignment :=
  (assignment ++ List.replicate (var + 1 - assignment.length) Tribool.EITHER).set var value

/-! ### Paths -/

/-- The last node of the stack is the first of the list. -/
structure BddIterator where
  finished : Bool
  stack : List Nat
  assignment : Assignment
  value : Nat

def addNodeLoop (cache : NodeCache) : Nat → BddIterator → NodeId → M BddIterator
  | 0, _, _ => .error .diverges
  | _ + 1, iterator, .terminal v => .ok { iterator with value := v }
  | fuel + 1, iterator, .nonterminal i => do
    let (_, node) ← ipset_node_cache_get_nonterminal cache i
    addNodeLoop cache fuel
      { iterator with
        stack := i :: iterator.stack
        assignment := ipset_assignment_set iterator.assignment node.var .FALSE }
      node.low

def add_node (cache : NodeCache) (iterator : BddIterator) (node_id : NodeId) : M BddIterator :=
  addNodeLoop cache (cache.slots.length + 1) iterator node_id

def ipset_node_iterate (cache : NodeCache) (root : NodeId) : M BddIterator := add_node cache ⟨false, [], [], 0⟩ root

def bddAdvanceLoop (cache : NodeCache) (iterator : BddIterator) : List Nat → Assignment → M BddIterator
  | [], assignment => .ok { iterator with finished := true, stack := [], assignment }
  | i :: stack, assignment => do
    let (_, last_node) ← ipset_node_cache_get_nonterminal cache i
    if ipset_assignment_get assignment last_node.var = .TRUE then
      bddAdvanceLoop cache iterator stack (ipset_assignment_set assignment last_node.var .EITHER)
    else
      add_node cache
        { iterator with
          stack := i :: stack
          assignment := ipset_assignment_set assignment last_node.var .TRUE }
        last_node.high

def ipset_bdd_iterator_advance (cache : NodeCache) (iterator : BddIterator) : M BddIterator :=
  if iterator.finished then .ok iterator else bddAdvanceLoop cache iterator iterator.stack iterator.assignment

/-! ### Expanded assignments -/

/-- The buffer `values` as its bits. -/
structure ExpandedAssignment where
  finished : Bool
  values : Nat → Bool
  eithers : List Nat

/-- A variable behind the end of the assignment is open too. -/
def ipset_assignment_expand (assignment : Assignment) (var_count : Nat) : ExpandedAssignment where
  finished := false
  values var := decide (var < var_count ∧ ipset_assignment_get assignment var = .TRUE)
  eithers := (List.range var_count).filter fun var => ipset_assignment_get assignment var = .EITHER

/-- The variables from the last one on, up to one that is false. -/
def expandedAdvanceLoop (values : Nat → Bool) : List Nat → Bool × (Nat → Bool)
  | [] => (true, values)
  | either_var :: eithers =>
    if values either_var then expandedAdvanceLoop (Function.update values either_var false) eithers
    else (false, Function.update values either_var true)

def ipset_expanded_assignment_advance (exp : ExpandedAssignment) : ExpandedAssignment :=
  if exp.finished then exp
  else
    let (finished, values) := expandedAdvanceLoop exp.values exp.eithers.reverse
    { exp with finished, values }

/-! ### Addresses -/

inductive ExpansionState
  | NORMAL
  | MULTIPLE_IPV4
  | MULTIPLE_IPV6
deriving DecidableEq

structure IpsetIterator where
  addr : AclFile.CorkIp
  cidr : Nat
  multiple_expansion_state : ExpansionState
  bdd_iterator : BddIterator
  assignment_iterator : Option ExpandedAssignment
  finished : Bool
  desired_value : Nat
  summarize : Bool

/-- The highest variable from `starting_bit` down to 1 that is not open, or 0. -/
def find_last_non_either_bit (assignment : Assignment) : Nat → Nat
  | 0 => 0
  | i + 1 =>
    if ipset_assignment_get assignment (i + 1) ≠ .EITHER then i + 1 else find_last_non_either_bit assignment i

/-- The first `n` bits are those of the variables from 1 on, and the others are 0. -/
def addressBits (w n : Nat) (values : Nat → Bool) : BitVec w :=
  (BitVec.ofBoolListBE ((List.range w).map fun i => decide (i < n) && values (i + 1))).cast (by simp)

def create_ip_address (iterator : IpsetIterator) (exp : ExpandedAssignment) : IpsetIterator :=
  { iterator with
    addr := if exp.values 0 then .v4 (addressBits 32 iterator.cidr exp.values)
      else .v6 (addressBits 128 iterator.cidr exp.values) }

def IpsetIterator.assign (iterator : IpsetIterator) (value : Tribool) : IpsetIterator :=
  { iterator with bdd_iterator := { iterator.bdd_iterator with
      assignment := ipset_assignment_set iterator.bdd_iterator.assignment 0 value } }

inductive Call
  | advance_assignment
  | process_expanded_assignment
  | expand (F : Family)
  | process_assignment

/-- `advance_assignment`, `process_expanded_assignment`, `expand_ipv4`, `expand_ipv6` and `process_assignment`. A pass
of the loop of `process_assignment` is a call too. -/
def iteratorCalls (cache : NodeCache) : Nat → Call → IpsetIterator → M IpsetIterator
  | 0, _, _ => .error .diverges
  | fuel + 1, .advance_assignment, iterator =>
    match iterator.multiple_expansion_state with
    | .NORMAL => do
      let bdd_iterator ← ipset_bdd_iterator_advance cache iterator.bdd_iterator
      iteratorCalls cache fuel .process_assignment { iterator with bdd_iterator }
    | .MULTIPLE_IPV4 =>
      iteratorCalls cache fuel (.expand ipv6) { iterator.assign .FALSE with multiple_expansion_state := .MULTIPLE_IPV6 }
    | .MULTIPLE_IPV6 => do
      let iterator := iterator.assign .EITHER
      let bdd_iterator ← ipset_bdd_iterator_advance cache iterator.bdd_iterator
      iteratorCalls cache fuel .process_assignment { iterator with bdd_iterator }
  | fuel + 1, .process_expanded_assignment, iterator =>
    match iterator.assignment_iterator with
    | none => .error .freed
    | some exp =>
      if exp.finished then iteratorCalls cache fuel .advance_assignment { iterator with assignment_iterator := none }
      else .ok (create_ip_address iterator exp)
  | fuel + 1, .expand F, iterator =>
    let last_bit := if iterator.summarize then
        find_last_non_either_bit iterator.bdd_iterator.assignment F.IP_BIT_SIZE
      else F.IP_BIT_SIZE
    iteratorCalls cache fuel .process_expanded_assignment
      { iterator with
        assignment_iterator := some (ipset_assignment_expand iterator.bdd_iterator.assignment (last_bit + 1))
        cidr := last_bit }
  | fuel + 1, .process_assignment, iterator =>
    if iterator.bdd_iterator.finished then .ok { iterator with assignment_iterator := none, finished := true }
    else if iterator.bdd_iterator.value = iterator.desired_value then
      match ipset_assignment_get iterator.bdd_iterator.assignment 0 with
      | .FALSE => iteratorCalls cache fuel (.expand ipv6) { iterator with multiple_expansion_state := .NORMAL }
      | .TRUE => iteratorCalls cache fuel (.expand ipv4) { iterator with multiple_expansion_state := .NORMAL }
      | .EITHER =>
        iteratorCalls cache fuel (.expand ipv4)
          { iterator.assign .TRUE with multiple_expansion_state := .MULTIPLE_IPV4 }
    else do
      let bdd_iterator ← ipset_bdd_iterator_advance cache iterator.bdd_iterator
      iteratorCalls cache fuel .process_assignment { iterator with bdd_iterator }

/-- The fields that are not set yet hold anything. -/
def create_iterator (fuel : Nat) (set : IpSet) (desired_value summarize : Bool)
    (junk : AclFile.CorkIp × Nat × ExpansionState) :
    M IpsetIterator := do
  let bdd_iterator ← ipset_node_iterate set.cache set.set_bdd
  iteratorCalls set.cache fuel .process_assignment
    ⟨junk.1, junk.2.1, junk.2.2, bdd_iterator, none, false, desired_value.toNat, summarize⟩

def ipset_iterator_advance (fuel : Nat) (cache : NodeCache) (iterator : IpsetIterator) : M IpsetIterator :=
  if iterator.finished then .ok iterator
  else
    iteratorCalls cache fuel .process_expanded_assignment
      { iterator with assignment_iterator := iterator.assignment_iterator.map ipset_expanded_assignment_advance }

/-- What a caller reads until the iterator is finished. -/
def readAll (fuel : Nat) (cache : NodeCache) : Nat → IpsetIterator → M (List (AclFile.CorkIp × Nat))
  | 0, _ => .error .diverges
  | n + 1, iterator =>
    if iterator.finished then .ok []
    else do
      let next ← ipset_iterator_advance fuel cache iterator
      let rest ← readAll fuel cache n next
      return (iterator.addr, iterator.cidr) :: rest

/-- `ipset_iterate` and `ipset_iterate_networks`, read to the end. -/
def iterateAll (fuel : Nat) (set : IpSet) (desired_value summarize : Bool)
    (junk : AclFile.CorkIp × Nat × ExpansionState) :
    M (List (AclFile.CorkIp × Nat)) := do
  let iterator ← create_iterator fuel set desired_value summarize junk
  readAll fuel set.cache fuel iterator

end OutlineServer.Ipset
