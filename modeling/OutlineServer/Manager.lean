import OutlineServer.IpLock

/-!
# The manager's side of the IP lock (`manager.c`)

The `set_ip` and `clear_ip` branches of `manager_recv_cb`, after `parse_port_ip`, as programs over the
file operations; the value is the reply that `sendto` sends. The manager's copy of the address in
`server_table` is written and never read, and is left out.
-/

namespace OutlineServer

def write_port_lock_ip (port ip : Text) : FsProg Int := do
  if port = [] ∨ ip = [] then
    return -1
  match ← Sys.fopenW (ip_lock_sidecar_path port "iplock".toList) with
  | none => return -1
  | some f =>
    Sys.fputs f (ip ++ ['\n'])
    return 0

def clear_port_lock_ip (port : Text) : FsProg Int := do
  if port = [] then
    return -1
  Sys.unlink (ip_lock_sidecar_path port "iplock".toList)
  return 0

/-- The command `set_ip`, parsed to `port` and `ip`. -/
def manager_set_ip (port ip : Text) : FsProg Text := do
  if ip = [] then
    return "err".toList
  let r ← write_port_lock_ip port ip
  if r = -1 then
    return "err".toList
  return "ok".toList

def manager_clear_ip (port : Text) : FsProg Text := do
  let _ ← clear_port_lock_ip port
  return "ok".toList

inductive ManagerCmd
  | set_ip (ip : Text)
  | clear_ip
deriving DecidableEq

def ManagerCmd.body (port : Text) (c : ManagerCmd) (_ : Unit) : FsProg (Text × Unit) := do
  match c with
  | .set_ip ip => return (← manager_set_ip port ip, ())
  | .clear_ip => return (← manager_clear_ip port, ())

end OutlineServer
