import Mathlib.Data.List.Sort
import OutlineServer.KeyStoreSpec
import OutlineServer.ManagerList
import OutlineServer.ServerNames

/-!
# Loading the keys into the manager (`sync_to_manager`)

`sync_to_manager` asks the manager for its list, reads the first datagram and adds the stored ports that it does not
find there. `ports.json` is what `_load_ports` has made of it, so its keys and entries are any values. `SyncStep` is
the manager's side; every `add` is logged with the table that it meets.
-/

namespace OutlineServer
open Prog

/-! ### Decoded values -/

namespace Value

def elementsOf : (vs : List Json) → Json.WellFormedItems vs → List Value
  | [], _ => []
  | v :: vs, h => ⟨v, h.1⟩ :: elementsOf vs h.2

def membersOf : (ms : List (Text × Json)) → Json.WellFormedMembers ms → List (Text × Value)
  | [], _ => []
  | (k, v) :: ms, h => (k, ⟨v, h.1⟩) :: membersOf ms h.2

/-- A dictionary, for `get`, `keys` and `[]`. -/
def asDict : Value → Except Exc (Dict Text Value)
  | ⟨.obj ms, h⟩ => .ok (Dict.ofList (membersOf ms h))
  | _ => .error .attributeError

/-- What a `for` that calls `get` on each element gets to see: of a list its elements; of anything else none
that has a `get`. -/
def elements : Value → List Value
  | ⟨.arr vs, h⟩ => elementsOf vs h
  | _ => []

end Value

/-- `json.loads` -/
def loads (s : Text) : Except Exc Value :=
  match h : Json.parse s with
  | some v => .ok ⟨v, Json.parse_wellFormed h⟩
  | none => .error .jsonDecodeError

/-- `(d.get(k) or "").strip()` -/
def strippedField (d : Dict Text Value) (k : Text) : Except Exc Text :=
  match d.get? k with
  | some v => if v.truthy then (asStr v).map strip else .ok []
  | none => .ok []

/-! ### The ports of the manager (`key_store.py`) -/

/-- `item.get("server_port") or item.get("port")`, as an `int` unless it is `None`. -/
def itemPort (py : Python) (item : Value) : Except Exc (Option Int) := do
  let d ← item.asDict
  let port_val :=
    match d.get? "server_port".toList with
    | some v => if v.truthy then some v else d.get? "port".toList
    | none => d.get? "port".toList
  match port_val with
  | none => return none
  | some v =>
    if v.isNone then return none
    else
      match py.int v with
      | some n => return some n
      | none => .error .valueError

/-- The ports that are collected; an exception ends the loop and is passed over. -/
def collectPorts (py : Python) : List Value → List Int
  | [] => []
  | item :: items =>
    match itemPort py item with
    | .error _ => []
    | .ok none => collectPorts py items
    | .ok (some port) => port :: collectPorts py items

def list_ports : KeyMethod Value := do
  let resp ← _command .list
  if resp = [] then return ⟨.arr [], trivial⟩ else Method.ofExcept (loads resp)

/-- `manager_ports` after the first `try` -/
def managerPorts (py : Python) : KeyMethod (List Int) :=
  Method.except
    (do
      let items ← list_ports
      return collectPorts py items.elements)
    fun _ => return []

/-! ### `sync_to_manager` -/

/-- A stored key as the loop reads it. -/
structure SyncItem where
  port : Int
  name : Option Value
  password : Value
  method : Value
  locked_ip : Text

def syncItem (ports : Dict Text Value) (key : Int × Text) : Except Exc SyncItem := do
  let entry ← (ports.getD key.2 .null).asDict
  let method := entry.getD "method".toList DEFAULT_METHOD
  match entry.get? "password".toList with
  | none => .error .keyError
  | some password =>
    let locked_ip ← strippedField entry "locked_ip".toList
    return ⟨key.1, entry.get? "name".toList, password, method, locked_ip⟩

structure SyncError where
  port : Int
  name : Option Value
  /-- it is reported with `lock_ip: ` before it -/
  lock : Bool
  exc : Exc

structure SyncReport where
  total : Nat
  already_active : Nat
  added : Nat
  errors : List SyncError

def SyncReport.addError (report : SyncReport) (item : SyncItem) (lock : Bool) (exc : Exc) : SyncReport :=
  { report with errors := report.errors ++ [⟨item.port, item.name, lock, exc⟩] }

def defaultStatus : Value :=
  ⟨.obj [("locked_ip".toList, .str []), ("connections".toList, .num ['0']), ("active_ips".toList, .arr []),
    ("recent_incoming".toList, .arr []), ("blocked_ips".toList, .arr [])],
    trivial, ⟨by decide, List.forall_mem_singleton.2 (by decide)⟩, trivial, trivial, trivial, trivial⟩

def ip_status (port : Int) : KeyMethod Value := do
  let resp ← _command (.ip_status port)
  match loads (if resp = [] then "\x7b\x7d".toList else resp) with
  | .ok status => return status
  | .error _ => return defaultStatus

/-- The lock of a port that is already there. -/
def syncLock (item : SyncItem) : KeyMethod Unit := do
  let status ← ip_status item.port
  let status ← Method.ofExcept status.asDict
  let current ← Method.ofExcept (strippedField status "locked_ip".toList)
  if current ≠ item.locked_ip then client_set_ip item.port (.str item.locked_ip) else return

/-- A port that is not. -/
def syncAdd (item : SyncItem) : KeyMethod Unit := do
  add_port item.port item.password item.method
  if item.locked_ip ≠ [] then client_set_ip item.port (.str item.locked_ip) else return

def syncOne (managerPorts : List Int) (report : SyncReport) (item : SyncItem) : KeyMethod SyncReport :=
  if item.port ∈ managerPorts then
    let report := { report with already_active := report.already_active + 1 }
    if item.locked_ip = [] then return report
    else
      Method.except
        (do
          syncLock item
          return report)
        fun e => return report.addError item true e
  else
    Method.except
      (do
        syncAdd item
        return { report with added := report.added + 1 })
      fun e => return report.addError item false e

/-- The keys with their ports, sorted by them. -/
def sortedKeys (py : Python) (ports : Dict Text Value) : Except Exc (List (Int × Text)) := do
  let keys ← ports.keys.mapM fun k =>
    match py.int (.str k) with
    | some n => Except.ok (n, k)
    | none => .error Exc.valueError
  return keys.insertionSort fun a b => a.1 ≤ b.1

def syncLoop (ports : Dict Text Value) (managerPorts : List Int) : List (Int × Text) → SyncReport →
    KeyMethod SyncReport
  | [], report => return report
  | key :: keys, report => do
    let item ← Method.ofExcept (syncItem ports key)
    let report ← syncOne managerPorts report item
    syncLoop ports managerPorts keys report

def sync_to_manager (py : Python) (ports : Value) : KeyMethod SyncReport := do
  let managerPorts ← managerPorts py
  let ports ← Method.ofExcept ports.asDict
  let keys ← Method.ofExcept (sortedKeys py ports)
  syncLoop ports managerPorts keys ⟨ports.items.length, 0, 0, []⟩

/-! ### The manager's side -/

structure SyncWorld where
  table : List Servers.Server
  /-- the `add` commands so far, each with the table before it -/
  adds : List (Int × List Servers.Server)

def SyncWorld.log (w : SyncWorld) (port : Int) : SyncWorld := { w with adds := w.adds ++ [(port, w.table)] }

/-- `remove_server` of a table key -/
def removeServer (port : Text) (table : List Servers.Server) : List Servers.Server := table.filter (·.port ≠ port)

/-- The payload of `add` -/
def addPayload (port : Int) (password method : Value) : Json :=
  .obj [("server_port".toList, .num (strInt port)), ("password".toList, password.json),
    ("method".toList, method.json)]

/-- The record of an `add` that is not refused. -/
def addRecord (port : Int) (password method : Value) : Option Servers.Server :=
  (Servers.get_server (some (addPayload port password method))).filter fun server =>
    server.port ≠ [] ∧ server.password ≠ []

/-- A command that does not change the table, or another call. -/
def KeyOp.Quiet : KeyOp → Prop
  | .send .list | .send (.add ..) | .send (.remove _) => False
  | _ => True

/-- The first datagram of the list that arrives. -/
def listReply (manager : Servers.ManagerCtx) (arrives : Nat → Nat → Bool) (table : List Servers.Server) : Option Text :=
  (Servers.sent arrives 0 (Servers.list_reply manager table)).head?

/-- One call while only this client sends commands. Of the datagrams of the list those arrive that `arrives` says; an
`add` of a valid record is done, or finds the port not available when the old server is gone, or cannot start the
new one, and a reply may be lost. -/
inductive SyncStep (manager : Servers.ManagerCtx) (arrives : Nat → Nat → Bool) :
    SyncWorld → (o : KeyOp) → o.Res → SyncWorld → Prop
  | list (w : SyncWorld) : SyncStep manager arrives w (.send .list) (listReply manager arrives w.table) w
  | added (w : SyncWorld) {port : Int} {password method : Value} {server : Servers.Server} (replied : Bool)
      (h : addRecord port password method = some server) :
      SyncStep manager arrives w (.send (.add port password method)) (if replied then some "ok".toList else none)
        { w.log port with table := server :: removeServer server.port w.table }
  | unavailable (w : SyncWorld) {port : Int} {password method : Value} {server : Servers.Server} (replied : Bool)
      (h : addRecord port password method = some server) :
      SyncStep manager arrives w (.send (.add port password method))
        (if replied then some "port is not available".toList else none)
        { w.log port with table := removeServer server.port w.table }
  | unstarted (w : SyncWorld) {port : Int} {password method : Value} {server : Servers.Server} (replied : Bool)
      (h : addRecord port password method = some server) :
      SyncStep manager arrives w (.send (.add port password method))
        (if replied then some "port is not available".toList else none)
        { w.log port with table := server :: removeServer server.port w.table }
  | refused (w : SyncWorld) {port : Int} {password method : Value} (replied : Bool)
      (h : addRecord port password method = none) :
      SyncStep manager arrives w (.send (.add port password method)) (if replied then some "err".toList else none)
        (w.log port)
  | not_received (w : SyncWorld) (port : Int) (password method : Value) :
      SyncStep manager arrives w (.send (.add port password method)) none (w.log port)
  | remove (w : SyncWorld) (port : Int) (replied : Bool) :
      SyncStep manager arrives w (.send (.remove port)) (if replied then some "ok".toList else none)
        { w with table := removeServer (Servers.snprintfPort port) w.table }
  | quiet (w : SyncWorld) {o : KeyOp} (r : o.Res) (h : o.Quiet) : SyncStep manager arrives w o r w

end OutlineServer
