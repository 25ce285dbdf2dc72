import OutlineServer.LockShared
import OutlineServer.Lib.Writers
import OutlineServer.Servers

/-!
# The sidecar files of a port between the manager and its child

A port has two sidecar files, `.iplock` and `.ipstatus`. The child, one `ss-server`, writes both; it is
`SsServer` with the shutdown that follows SIGTERM (`free_connections`). The manager writes and removes the
lock file, reads both for `ip_status` (`read_port_status`) and removes both with the port
(`remove_server`). `sidecarSystem` interleaves the two, one file operation at a time.
-/

namespace OutlineServer
open Prog Files

/-! ### The manager -/

def isLineEnd (c : Char) : Bool := c = '\n' ∨ c = '\r'

/-- What `read_port_status` makes of a lock file's text. -/
def lockLine (content : Text) : Text :=
  match fgets INET6_ADDRSTRLEN content with
  | none => []
  | some line => line.rdropWhile isLineEnd

def readLockLine (lock_path : Text) : FsProg Text := do
  match ← Sys.fopenR lock_path with
  | none => return []
  | some f => return lockLine (← Sys.fread f)

/-- `fread` into `status_body` and its terminating NUL, as a C string. -/
def statusBody (content : Text) : Text :=
  (content.take (IP_LOCK_STATUS_JSON_MAX + 64 - 1)).takeWhile (· ≠ '\x00')

def statusFallback (locked_ip : Text) : Text :=
  "\x7b\"locked_ip\":\"".toList ++ locked_ip ++
    "\",\"connections\":0,\"active_ips\":[],\"recent_incoming\":[],\"blocked_ips\":[]\x7d".toList

def read_port_status (port : Text) (out_size : Nat) : FsProg Text := do
  let locked_ip ← readLockLine (ip_lock_sidecar_path port "iplock".toList)
  match ← Sys.fopenR (ip_lock_sidecar_path port "ipstatus".toList) with
  | none => return snprintf [] out_size 0 (statusFallback locked_ip)
  | some f =>
    let status_body := statusBody (← Sys.fread f)
    if status_body ≠ [] then
      return snprintf [] out_size 0 status_body
    return snprintf [] out_size 0 (statusFallback locked_ip)

/-- The command `ip_status`, parsed to `port`. -/
def manager_ip_status (port : Text) : FsProg Text :=
  read_port_status port (IP_LOCK_STATUS_JSON_MAX + 128)

/-- Whether `kill` is called: the pid file opens and `fscanf` does not meet its end. -/
def stop_server (working_dir port : Text) : FsProg Bool := do
  match ← Sys.fopenR (working_dir ++ "/.shadowsocks_".toList ++ port ++ ".pid".toList) with
  | none => return false
  | some f => return !(← Sys.fread f).all Decimal.isSpace

def remove_server (working_dir port : Text) : FsProg Bool := do
  Sys.unlink (ip_lock_sidecar_path port "iplock".toList)
  Sys.unlink (ip_lock_sidecar_path port "ipstatus".toList)
  stop_server working_dir port

inductive SidecarCmd
  | lock (c : ManagerCmd)
  | ip_status
  | remove

/-- A command of the manager; `sigterm` is whether the child has been sent SIGTERM. -/
def SidecarCmd.body (working_dir port : Text) (c : SidecarCmd) (sigterm : Bool) : FsProg (Text × Bool) := do
  match c with
  | .lock c =>
    let r ← c.body port ()
    return (r.1, sigterm)
  | .ip_status => return (← manager_ip_status port, sigterm)
  | .remove => return ("ok".toList, (← remove_server working_dir port) || sigterm)

/-- The calls of the manager's `remove`, of which only the files and the signal count here: `scan` is the number that
`fscanf` reads, `other` what any other call does. -/
def removeCalls (scan : Text → Int) (other : (o : Servers.ServerOp) → Bool → FsProg (o.Res × Bool)) :
    (o : Servers.ServerOp) → Bool → FsProg (o.Res × Bool)
  | .table_delete _, sigterm => return ((), sigterm)
  | .unlink path, sigterm => do
    Sys.unlink path
    return ((), sigterm)
  | .read_pid path, sigterm => do
    match ← Sys.fopenR path with
    | none => return (none, sigterm)
    | some f =>
      let text ← Sys.fread f
      return (some (if text.all Decimal.isSpace then none else some (scan text)), sigterm)
  | .kill _, _ => return ((), true)
  | o, sigterm => other o sigterm

/-- The command is the manager's. -/
theorem remove_translated (manager : Servers.ManagerCtx) (port : Text) (sigterm : Bool) (scan : Text → Int)
    (other : (o : Servers.ServerOp) → Bool → FsProg (o.Res × Bool)) :
    (Servers.manager_remove manager port).translate (removeCalls scan other) sigterm =
      SidecarCmd.remove.body manager.working_dir port sigterm := by
  refine congrArg (Prog.call _) (funext fun _ => congrArg (Prog.call _) (funext fun _ => ?_))
  -- `stop_server`: the pid file is not there, or it holds nothing, or a number
  refine congrArg (Prog.call _) (funext fun file => ?_)
  cases file with
  | none => rfl
  | some f =>
    refine congrArg (Prog.call _) (funext fun (text : Text) => ?_)
    simp only [Prog.bind]
    cases text.all Decimal.isSpace with
    | true => rfl
    | false => rfl

/-! ### The child -/

/-- `free_connections`: the head of the list is closed as long as there is one. -/
def freeConnections : Nat → SsServer → FsProg SsServer
  | 0, s => return s
  | n + 1, s => do freeConnections n (← close_and_free_server s 0)

def free_connections (s : SsServer) : FsProg SsServer := freeConnections s.connections.length s

structure Child where
  server : SsServer
  exited : Bool

inductive ChildCall
  | serve (c : ServerCall)
  /-- the end of `main` after SIGTERM -/
  | shutdown

def ChildCall.body (c : ChildCall) (s : Child) : FsProg (Option AcceptResult × Child) := do
  match c with
  | .serve c =>
    let r ← c.body s.server
    return (r.1, { s with server := r.2 })
  | .shutdown => return (none, ⟨← free_connections s.server, true⟩)

/-! ### Both -/

abbrev Sidecars := Duo (FileOp Text) FileOp.Res ChildCall Child (Option AcceptResult) SidecarCmd Bool Text
  (Files Text)

abbrev SidecarEvent := ProcEvent (FileOp Text) ChildCall ⊕ ProcEvent (FileOp Text) SidecarCmd

/-- The child runs callbacks until it exits, and `main` ends only after SIGTERM. -/
def ChildAlive (x : Sidecars) : SidecarEvent → Prop
  | .inl (.start c) => x.left.last.exited = false ∧ (c = .shutdown → x.right.last = true)
  | _ => True

/-- The lock of a server of the port: its paths, and a `locked_ip` that fits its array. -/
structure IpLock.Serves (port : Port) (s : IpLock) : Prop where
  lock_path : s.lock_file_path = port.lockPath
  status_path : s.status_file_path = port.statusPath
  locked_len : s.locked_ip.length < INET6_ADDRSTRLEN
  locked_nul : '\x00' ∉ s.locked_ip

/-- A status file as `ip_lock_write_status` writes it for a server locked to `L`. -/
def StatusOf (L content : Text) : Prop :=
  ∃ total active incoming blocked,
    content = statusLine (ip_lock_json_escape (INET6_ADDRSTRLEN * 2) L 0) total active incoming blocked

def StatusText (content : Text) : Prop :=
  ∃ L, L.length < INET6_ADDRSTRLEN ∧ '\x00' ∉ L ∧ StatusOf L content

/-- The child and the manager, from a running child and any files of which the status file is empty or one
that a server has written. -/
def sidecarSystem (working_dir : Text) (port : Port) (allow : Files Text → FileOp Text → Bool → Prop) :
    Lts Sidecars SidecarEvent :=
  (Duo.system (Files.Step allow) ChildCall.body (SidecarCmd.body working_dir port.text) fun s sigterm fs =>
    s.exited = false ∧ sigterm = false ∧ s.server.ip_lock.Serves port ∧
      fs.Holds port.statusPath fun c => c = [] ∨ StatusText c).guarded ChildAlive

end OutlineServer
