import OutlineServer.Lib.Heap
import OutlineServer.Request

/-!
# Looking up host names (`resolv.c`)

`resolv_start` asks c-ares for the A and the AAAA records of a name; once both answers are in, the client is called
back with the address chosen, then its data and the query are freed. The client is a parameter, and so is what its
system calls return (`ω`).

`asked` is what c-ares has been asked and has not answered. It answers each request once, perhaps inside
`ares_gethostbyname`, and is not destroyed while the loop runs.
-/

namespace OutlineServer

/-- The addresses of a `struct hostent`; `none` if the status is not `ARES_SUCCESS`. -/
abbrev Answer := Option (List Bytes)

inductive ResolvMode
  | MODE_IPV4_FIRST
  | MODE_IPV6_FIRST
deriving DecidableEq

/-- `struct resolv_query`; `request4` and `request6` say whether `requests[0]` and `requests[1]` are not 0. -/
structure ResolvQuery where
  request4 : Bool
  request6 : Bool
  responses : List SockAddr
  port : Bytes
  data : Nat
deriving DecidableEq

def ResolvQuery.request (query : ResolvQuery) : Family → Bool
  | .AF_INET => query.request4
  | .AF_INET6 => query.request6

def ResolvQuery.complete (query : ResolvQuery) : Family → ResolvQuery
  | .AF_INET => { query with request4 := false }
  | .AF_INET6 => { query with request6 := false }

def ResolvQuery.addResponses (query : ResolvQuery) (f : Family) (addrs : List Bytes) : ResolvQuery :=
  { query with responses := query.responses ++ addrs.map fun addr => ⟨.ofBytes f addr, query.port⟩ }

/-- An answer: its addresses are appended, the request is completed. -/
def ResolvQuery.answered (query : ResolvQuery) (f : Family) : Answer → ResolvQuery
  | some addrs => (query.addResponses f addrs).complete f
  | none => query.complete f

def all_requests_are_null (query : ResolvQuery) : Bool := !query.request4 && !query.request6

def choose_any (query : ResolvQuery) : Option SockAddr := query.responses.head?

def choose_first (f : Family) (query : ResolvQuery) : Option SockAddr :=
  match query.responses.find? (·.ip.family = f) with
  | some addr => some addr
  | none => choose_any query

def choose_ipv4_first : ResolvQuery → Option SockAddr := choose_first .AF_INET

def choose_ipv6_first : ResolvQuery → Option SockAddr := choose_first .AF_INET6

/-- `client_cb` and `free_cb`. -/
structure ResolvClient (ω W : Type) where
  client_cb : ω → Option SockAddr → Nat → W → Mem Fault W
  free_cb : Nat → W → Mem Fault W

structure Resolver (W : Type) where
  lookups : Heap ResolvQuery
  asked : List (Nat × Family)
  app : W

section
variable {ω W : Type} (R : ResolvClient ω W) (resolv_mode : ResolvMode) (x : ω)

def process_client_callback (r : Resolver W) (q : Nat) : Mem Fault (Resolver W) := do
  let query ← Mem.deref (r.lookups.get q)
  let best_address :=
    match resolv_mode with
    | .MODE_IPV4_FIRST => choose_ipv4_first query
    | .MODE_IPV6_FIRST => choose_ipv6_first query
  let app ← R.client_cb x best_address query.data r.app
  let app ← R.free_cb query.data app
  return { r with app, lookups := r.lookups.free q }

def dns_query_cb (f : Family) (r : Resolver W) (q : Nat) (he : Answer) : Mem Fault (Resolver W) := do
  let query ← Mem.deref (r.lookups.get q)
  let query := query.answered f he
  let r := { r with lookups := r.lookups.put q query }
  if all_requests_are_null query then
    process_client_callback R resolv_mode x r q
  else
    return r

def dns_query_v4_cb : Resolver W → Nat → Answer → Mem Fault (Resolver W) :=
  dns_query_cb R resolv_mode x .AF_INET

def dns_query_v6_cb : Resolver W → Nat → Answer → Mem Fault (Resolver W) :=
  dns_query_cb R resolv_mode x .AF_INET6

/-- The callback that `resolv_start` gives to c-ares for a family. -/
def queryCallback : Family → Resolver W → Nat → Answer → Mem Fault (Resolver W)
  | .AF_INET => dns_query_v4_cb R resolv_mode x
  | .AF_INET6 => dns_query_v6_cb R resolv_mode x

/-- c-ares answers at once, or later. -/
def ares_gethostbyname (f : Family) (r : Resolver W) (q : Nat) : Option Answer → Mem Fault (Resolver W)
  | some he => queryCallback R resolv_mode x f r q he
  | none => return { r with asked := (q, f) :: r.asked }

def resolv_start (r : Resolver W) (port : Bytes) (data : Nat) (now4 now6 : Option Answer) :
    Mem Fault (Resolver W) := do
  let q := r.lookups.next
  let query : ResolvQuery := { request4 := true, request6 := true, responses := [], port, data }
  let r := { r with lookups := r.lookups.alloc query }
  let r ← ares_gethostbyname R resolv_mode x .AF_INET r q now4
  ares_gethostbyname R resolv_mode x .AF_INET6 r q now6

/-- c-ares answers a request. -/
def Resolver.answer (f : Family) (r : Resolver W) (q : Nat) (he : Answer) : Mem Fault (Resolver W) :=
  queryCallback R resolv_mode x f { r with asked := r.asked.erase (q, f) } q he

end

end OutlineServer
