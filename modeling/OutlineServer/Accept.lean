import OutlineServer.IpLock

/-!
# Accepting and closing connections (`server.c`)

`SsServer` is what the accept path of one `ss-server` process reads and writes: the variables of
`ip_lock.c` and the list `connections`, each entry with the `peer_ip` copied at accept. The socket
side of a connection is in `Relay.lean`.
-/

namespace OutlineServer

structure ServerConn where
  peer_ip : Text
deriving DecidableEq

structure SsServer where
  ip_lock : IpLock
  connections : List ServerConn
deriving DecidableEq

inductive AcceptResult
  /-- closed, `acl_match_host` -/
  | denied
  /-- closed, `check_ip_lock_allowed` -/
  | blocked
  | admitted
deriving DecidableEq

def count_connections_for_ip (connections : List ServerConn) (ip : Text) : Nat :=
  if ip = [] then 0 else connections.countP fun c => c.peer_ip ≠ [] ∧ c.peer_ip = ip

/-- The loop of `update_ip_lock_status`: `unique_ips` and `total`. -/
def uniqueIps : List ServerConn → List Text → Nat → List Text × Nat
  | [], unique_ips, total => (unique_ips, total)
  | c :: cs, unique_ips, total =>
    if c.peer_ip = [] then uniqueIps cs unique_ips total
    else if c.peer_ip ∉ unique_ips ∧ unique_ips.length < IP_LOCK_MAX_TRACK_IPS then
      uniqueIps cs (unique_ips ++ [c.peer_ip]) (total + 1)
    else uniqueIps cs unique_ips (total + 1)

def update_ip_lock_status (s : SsServer) : FsProg SsServer := do
  let r := uniqueIps s.connections [] 0
  let ip_lock ← ip_lock_write_status s.ip_lock r.2 r.1
  return { s with ip_lock }

/-- The decision of `check_ip_lock_allowed`, once the lock file is reloaded. -/
def decideLock (s : SsServer) (peer_ip : Text) : FsProg (Bool × SsServer) := do
  let locked := s.ip_lock.locked_ip
  if locked = [] then
    let ip_lock ← ip_lock_set s.ip_lock peer_ip
    return (true, { s with ip_lock })
  if peer_ip = locked then
    return (true, s)
  if 0 < count_connections_for_ip s.connections locked then
    return (false, s)
  let ip_lock ← ip_lock_set s.ip_lock peer_ip
  return (true, { s with ip_lock })

def check_ip_lock_allowed (s : SsServer) (peer_ip : Text) : FsProg (Bool × SsServer) := do
  if !s.ip_lock.ip_lock_enabled then
    return (true, s)
  if peer_ip = [] then
    return (true, s)
  let ip_lock ← ip_lock_reload s.ip_lock
  decideLock { s with ip_lock } peer_ip

/-- The end of `accept_cb`: `new_server` appends to `connections`, the status is written. -/
def acceptServer (s : SsServer) (peer_name : Option Text) : FsProg (AcceptResult × SsServer) := do
  let peer_ip := strncpyz INET6_ADDRSTRLEN (peer_name.getD [])
  let s ← update_ip_lock_status { s with connections := s.connections ++ [⟨peer_ip⟩] }
  return (.admitted, s)

/-- `accept_cb` for a socket that `accept` returned: `peer_name` is what `get_peer_name` gives and
`aclDenies` whether the ACL refuses that name. -/
def accept_cb (s : SsServer) (peer_name : Option Text) (aclDenies : Bool) :
    FsProg (AcceptResult × SsServer) := do
  match peer_name with
  | none => acceptServer s none
  | some peer =>
    if aclDenies then
      return (.denied, s)
    let (allowed, s) ← check_ip_lock_allowed s peer
    if !allowed then
      if s.ip_lock.ip_lock_enabled then
        let ip_lock ← ip_lock_record_blocked s.ip_lock peer
        let s ← update_ip_lock_status { s with ip_lock }
        return (.blocked, s)
      return (.blocked, s)
    if s.ip_lock.ip_lock_enabled then
      let ip_lock ← ip_lock_record_incoming s.ip_lock peer
      acceptServer { s with ip_lock } (some peer)
    else acceptServer s (some peer)

/-- `close_and_free_server` of the `i`-th connection: `free_server` unlinks it, the status is
written. -/
def close_and_free_server (s : SsServer) (i : Nat) : FsProg SsServer :=
  update_ip_lock_status { s with connections := s.connections.eraseIdx i }

/-- The last lines of `stat_update_cb`. -/
def stat_update_cb (s : SsServer) : FsProg SsServer := do
  if s.ip_lock.ip_lock_enabled then
    update_ip_lock_status s
  else return s

/-- The part of `main` that sets the lock up for `remote_port`. -/
def startLocked (remote_port : Text) : FsProg SsServer := do
  let ip_lock ← ip_lock_init (ip_lock_sidecar_path remote_port "iplock".toList)
    (ip_lock_sidecar_path remote_port "ipstatus".toList)
  return ⟨ip_lock, []⟩

end OutlineServer
