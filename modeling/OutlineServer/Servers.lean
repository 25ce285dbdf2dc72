import OutlineServer.IpLock
import OutlineServer.Lib.Decimal
import OutlineServer.Lib.Dict
import OutlineServer.Lib.Prog

/-!
# The manager's servers (`manager.c`)

A `struct server` as `get_server` makes it from a command, the config file and the command line that the manager
makes from it for its child, and the commands `add` and `remove` as programs over the calls of the manager: on
its table, on files, `kill`, the trial `bind`s and `system`. A JSON value is what `json_parse_ex` returns; a
string of it is the bytes of a C string.
-/

namespace OutlineServer.Servers
open Prog Decimal

/-! ### Records -/

inductive Mode
  | TCP_ONLY
  | TCP_AND_UDP
  | UDP_ONLY
deriving DecidableEq

structure Server where
  port : Text
  password : Text
  method : Option Text
  plugin : Option Text
  plugin_opts : Option Text
  mode : Option Text
  fast_open : Text
  no_delay : Text
  traffic : Nat
deriving DecidableEq

/-- `memset(server, 0, sizeof(struct server))` -/
def Server.zero : Server := ⟨[], [], none, none, none, none, [], [], 0⟩

structure ManagerCtx where
  hosts : List Text
  /-- `main` puts `0.0.0.0` in an empty list. -/
  hosts_ne : hosts ≠ []
  mode : Mode
  method : Option Text
  fast_open : Bool
  no_delay : Bool
  reuse_port : Bool
  verbose : Bool
  ipv6first : Bool
  manager_address : Text
  acl : Option Text
  timeout : Option Text
  nofile : Int
  user : Option Text
  iface : Option Text
  mtu : Int
  plugin : Option Text
  plugin_opts : Option Text
  nameservers : Option Text
  /-- the globals of that name -/
  executable : Text
  working_dir : Text

/-- The manager without options. -/
def plainManager : ManagerCtx where
  hosts := ["0.0.0.0".toList]
  hosts_ne := by decide
  mode := .TCP_ONLY
  method := some "table".toList
  fast_open := false
  no_delay := false
  reuse_port := false
  verbose := false
  ipv6first := false
  manager_address := "127.0.0.1:6001".toList
  acl := none
  timeout := some "60".toList
  nofile := 0
  user := none
  iface := none
  mtu := 0
  plugin := none
  plugin_opts := none
  nameservers := none
  executable := "ss-server".toList
  working_dir := "/root/.shadowsocks".toList

def BUF_SIZE : Nat := 65535

/-! ### Parsing a command -/

/-- The characters of a C string. -/
def cstr (s : Text) : Text := s.takeWhile (· ≠ '\x00')

/-- `strncpy(dst, s, n)` into a zeroed array longer than `n`. -/
def strncpy (s : Text) (n : Nat) : Text := (cstr s).take n

/-- The value of a number of type `json_integer`. The reader is the JSON grammar here: json.c gives up a text with an
integer beyond 64 bits, so such a lexeme reaches no member of a command. -/
def jsonInteger (lexeme : Text) : Option Int :=
  if lexeme.all fun c => c.isDigit ∨ c = '-' then some (atoi lexeme) else none

/-- `snprintf(dst, 8, "%" PRIu64, n)` -/
def snprintfPort (n : Int) : Text := (ofInt (n % 2 ^ 64)).take 7

/-- What a member does to the record; `none` ends the loop. -/
def Server.setMember (server : Server) (name : Text) (value : Json) : Option Server :=
  if name = "server_port".toList then
    match value with
    | .str s => some { server with port := strncpy s 7 }
    | .num lexeme =>
      match jsonInteger lexeme with
      | some n => some { server with port := snprintfPort n }
      | none => some server
    | _ => some server
  else if name = "password".toList then
    match value with
    | .str s => some { server with password := strncpy s 127 }
    | _ => some server
  else if name = "method".toList then
    match value with
    | .str s => some { server with method := some (cstr s) }
    | _ => some server
  else if name = "fast_open".toList then
    match value with
    | .bool b => some { server with fast_open := (if b then "true" else "false").toList }
    | _ => some server
  else if name = "no_delay".toList then
    match value with
    | .bool b => some { server with no_delay := (if b then "true" else "false").toList }
    | _ => some server
  else if name = "plugin".toList then
    match value with
    | .str s => some { server with plugin := some (cstr s) }
    | _ => some server
  else if name = "plugin_opts".toList then
    match value with
    | .str s => some { server with plugin_opts := some (cstr s) }
    | _ => some server
  else if name = "mode".toList then
    match value with
    | .str s => some { server with mode := some (cstr s) }
    | _ => some server
  else none

def Server.setMembers (server : Server) : List (Text × Json) → Server
  | [] => server
  | (name, value) :: members =>
    match server.setMember (cstr name) value with
    | some server => server.setMembers members
    | none => server

/-- `get_server`, from the value that its data has been parsed to. -/
def get_server : Option Json → Option Server
  | none => none
  | some (.obj members) => some (Server.zero.setMembers members)
  | some _ => some Server.zero

/-- An `add` that is not refused as invalid. -/
def accepted (obj : Option Json) (server : Server) : Prop :=
  get_server obj = some server ∧ server.port ≠ [] ∧ server.password ≠ []

/-! ### The config file -/

def quoted (s : Text) : Text := '"' :: s ++ ['"']

/-- `fprintf(f, ",\n\"name\":\"%s\"", s)` -/
def configString (name s : Text) : Text := ",\n".toList ++ quoted name ++ ':' :: quoted s

/-- `fprintf(f, ",\n\"name\": %s", s)` -/
def configFlag (name s : Text) : Text := ",\n".toList ++ quoted name ++ ": ".toList ++ s

/-- What is printed for a field of the record, else for the manager's. -/
def configOption (print : Text → Text) : Option Text → Text
  | some s => print s
  | none => []

/-- A flag that is set in the record, else in the manager. -/
def flagText (s : Text) (manager : Bool) : Option Text :=
  if s ≠ [] then some s else if manager then some "true".toList else none

/-- The text that `build_config` writes. -/
def configText (manager : ManagerCtx) (server : Server) : Text :=
  "\x7b\n".toList ++ "\"server_port\":".toList ++ ofInt (atoi server.port) ++ ",\n".toList ++
    "\"password\":".toList ++ quoted server.password ++
    configOption (configString "method".toList) (server.method.or manager.method) ++
    configOption (configFlag "fast_open".toList) (flagText server.fast_open manager.fast_open) ++
    configOption (configFlag "no_delay".toList) (flagText server.no_delay manager.no_delay) ++
    configOption (configFlag "reuse_port".toList) (flagText [] manager.reuse_port) ++
    configOption (configString "mode".toList) server.mode ++
    configOption (configString "plugin".toList) server.plugin ++
    configOption (configString "plugin_opts".toList) server.plugin_opts ++
    "\n\x7d\n".toList

/-! ### Paths and the command line -/

/-- `"%s/.shadowsocks_%s.ext"` -/
def workPath (manager : ManagerCtx) (port ext : Text) : Text :=
  manager.working_dir ++ "/.shadowsocks_".toList ++ port ++ '.' :: ext

/-- The arguments of the child: its files, and the rest of the command line. -/
structure CommandLine where
  pid_file : Text
  conf_file : Text
  options : Text
deriving DecidableEq

def switch (b : Bool) (s : String) : Text := if b then s.toList else []

def optionArg (before after : String) : Option Text → Text
  | some s => before.toList ++ s ++ after.toList
  | none => []

/-- `construct_command_line`, after `build_config`. -/
def construct_command_line (manager : ManagerCtx) (server : Server) : CommandLine :=
  let port := ofInt (atoi server.port)
  { pid_file := workPath manager port "pid".toList
    conf_file := workPath manager port "conf".toList
    options :=
      optionArg " --acl " "" manager.acl ++ optionArg " -t " "" manager.timeout ++
      (if manager.nofile ≠ 0 then " -n ".toList ++ ofInt manager.nofile else []) ++
      optionArg " -a " "" manager.user ++ switch manager.verbose " -v" ++
      switch (server.mode = none ∧ manager.mode = .UDP_ONLY) " -U" ++
      switch (server.mode = none ∧ manager.mode = .TCP_AND_UDP) " -u" ++
      optionArg " -i \"" "\"" manager.iface ++
      switch (server.fast_open = [] ∧ manager.fast_open) " --fast-open" ++
      switch (server.no_delay = [] ∧ manager.no_delay) " --no-delay" ++ switch manager.ipv6first " -6" ++
      (if manager.mtu ≠ 0 then " --mtu ".toList ++ ofInt manager.mtu else []) ++
      (if server.plugin = none then optionArg " --plugin \"" "\"" manager.plugin else []) ++
      (if server.plugin_opts = none then optionArg " --plugin-opts \"" "\"" manager.plugin_opts else []) ++
      optionArg " -d \"" "\"" manager.nameservers ++ (manager.hosts.map fun host => " -s ".toList ++ host).flatten }

/-- The command line as `system` gets it. -/
def CommandLine.text (manager : ManagerCtx) (cmd : CommandLine) : Text :=
  (manager.executable ++ " --manager-address ".toList ++ manager.manager_address ++ " -f ".toList ++ cmd.pid_file ++
    " -c ".toList ++ cmd.conf_file ++ cmd.options).take (BUF_SIZE - 1)

/-! ### Commands -/

inductive ServerOp
  /-- `cork_hash_table_delete` and `cork_hash_table_put` of `server_table` -/
  | table_delete (port : Text)
  | table_put (port : Text) (server : Server)
  | unlink (path : Text)
  /-- `fopen` and `fscanf("%d")` -/
  | read_pid (path : Text)
  /-- `kill(pid, SIGTERM)` -/
  | kill (pid : Int)
  | create_and_bind (host port : Text) (tcp : Bool)
  /-- `fopen(path, "w+")` and the `fprintf`s -/
  | write_config (path text : Text)
  | system (cmd : CommandLine)

/-- What a call answers: `read_pid` what `fscanf` makes of the file if it can be opened, `none` at its end;
`create_and_bind` and `system` whether they do not answer -1. -/
@[reducible] def ServerOp.Res : ServerOp → Type
  | .read_pid _ => Option (Option Int)
  | .create_and_bind _ _ _ | .write_config _ _ | .system _ => Bool
  | _ => Unit

abbrev ServerProg := Prog ServerOp ServerOp.Res

def serverOp (o : ServerOp) : ServerProg o.Res := Prog.op o

def stop_server (manager : ManagerCtx) (port : Text) : ServerProg Unit := do
  match ← serverOp (.read_pid (workPath manager port "pid".toList)) with
  | some (some pid) => serverOp (.kill pid)
  | _ => return

def remove_server (manager : ManagerCtx) (port : Text) : ServerProg Unit := do
  serverOp (.table_delete port)
  serverOp (.unlink (ip_lock_sidecar_path port "iplock".toList))
  serverOp (.unlink (ip_lock_sidecar_path port "ipstatus".toList))
  stop_server manager port

/-- The trial binds of one host. -/
def check_host (manager : ManagerCtx) (server : Server) (host : Text) : ServerProg Bool := do
  let sock ← serverOp (.create_and_bind host server.port (manager.mode ≠ .UDP_ONLY))
  if manager.mode = .TCP_AND_UDP then
    let udp ← serverOp (.create_and_bind host server.port false)
    return sock && udp
  else
    return sock

def check_hosts (manager : ManagerCtx) (server : Server) : List Text → ServerProg Bool
  | [] => return true
  | host :: hosts => do
    if ← check_host manager server host then check_hosts manager server hosts else return false

def check_port (manager : ManagerCtx) (server : Server) : ServerProg Bool :=
  check_hosts manager server manager.hosts

def build_config (manager : ManagerCtx) (server : Server) : ServerProg Unit := do
  let _ ← serverOp (.write_config (workPath manager server.port "conf".toList) (configText manager server))
  return

def add_server (manager : ManagerCtx) (server : Server) : ServerProg Int := do
  if ← check_port manager server then
    serverOp (.table_put server.port server)
    build_config manager server
    if ← serverOp (.system (construct_command_line manager server)) then return 0 else return -1
  else
    return -1

/-- The command `add` of an accepted record; the value is the reply. -/
def manager_add (manager : ManagerCtx) (server : Server) : ServerProg Text := do
  remove_server manager server.port
  let ret ← add_server manager server
  return if ret = -1 then "port is not available".toList else "ok".toList

def manager_remove (manager : ManagerCtx) (port : Text) : ServerProg Text := do
  remove_server manager port
  return "ok".toList

/-! ### The machine -/

/-- A process; a child has read a config. -/
structure OsProcess where
  id : Nat
  config : Option Text
deriving DecidableEq

structure Os where
  table : Dict Text Server
  /-- the pid files, with the number in them if there is one -/
  pids : Text → Option (Option Int)
  configs : Text → Option Text
  /-- the process that has a pid -/
  procs : Int → Option OsProcess
  /-- the `id` of the next process -/
  next : Nat
  fresh : ∀ pid q, procs pid = some q → q.id < next
  /-- the processes that have been signalled, the last one first -/
  signals : List Nat

namespace Os

def kill (w : Os) (pid : Int) : Os :=
  match w.procs pid with
  | some q => { w with signals := q.id :: w.signals }
  | none => w

def write_config (w : Os) (path text : Text) : Os :=
  { w with configs := fun p => if p = path then some text else w.configs p }

/-- A new process takes a pid. -/
def spawn (w : Os) (pid : Int) (config : Option Text) : Os :=
  { w with
    procs := fun p => if p = pid then some ⟨w.next, config⟩ else w.procs p
    next := w.next + 1
    fresh := by
      intro p q h
      split at h
      · cases h
        exact Nat.lt_succ_self _
      · exact Nat.lt_succ_of_lt (w.fresh p q h) }

/-- `daemonize`: the pid of the child is written to its pid file. -/
def start (w : Os) (cmd : CommandLine) (pid : Int) : Os :=
  { w.spawn pid (w.configs cmd.conf_file) with
    pids := fun p => if p = cmd.pid_file then some (some pid) else w.pids p }

/-- The process that has the pid is gone. -/
def exit (w : Os) (pid : Int) : Os :=
  { w with
    procs := fun p => if p = pid then none else w.procs p
    fresh := by
      intro p q h
      split at h
      · cases h
      · exact w.fresh p q h }

end Os

/-- One call of the manager. A trial `bind` may go either way, and so may opening the config; `system` cannot
fork, or no child comes of it, or one that takes a free pid. -/
inductive ServerStep : Os → (o : ServerOp) → o.Res → Os → Prop
  | table_delete (w : Os) (port : Text) : ServerStep w (.table_delete port) () { w with table := w.table.erase port }
  | table_put (w : Os) (port : Text) (server : Server) :
      ServerStep w (.table_put port server) () { w with table := w.table.set port server }
  | unlink (w : Os) (path : Text) : ServerStep w (.unlink path) () w
  | read_pid (w : Os) (path : Text) : ServerStep w (.read_pid path) (w.pids path) w
  | kill (w : Os) (pid : Int) : ServerStep w (.kill pid) () (w.kill pid)
  | create_and_bind (w : Os) (host port : Text) (tcp b : Bool) : ServerStep w (.create_and_bind host port tcp) b w
  | write_config (w : Os) (path text : Text) : ServerStep w (.write_config path text) true (w.write_config path text)
  | not_opened (w : Os) (path text : Text) : ServerStep w (.write_config path text) false w
  | no_fork (w : Os) (cmd : CommandLine) : ServerStep w (.system cmd) false w
  | no_child (w : Os) (cmd : CommandLine) : ServerStep w (.system cmd) true w
  | started (w : Os) (cmd : CommandLine) (pid : Int) (h : w.procs pid = none) :
      ServerStep w (.system cmd) true (w.start cmd pid)

end OutlineServer.Servers
