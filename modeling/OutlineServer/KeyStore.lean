import OutlineServer.IpLock
import OutlineServer.Lib.Decimal
import OutlineServer.Lib.Dict
import OutlineServer.Lib.JsonDump
import OutlineServer.Lib.Method

/-!
# The key store (`key_store.py`, `ss_api.py`)

`KeyManager` and the handlers of the API as methods over the calls that leave the process: a command to the
manager (`LibevManagerClient._send`) and `write_text` of `ports.json`. The dictionary `ports` is keyed by the
port whose decimal text is the key in the file; an entry is the dictionary of its fields. What Python makes of
a value (`int`, `str`, `lower`) is the parameter `Python`.
-/

namespace OutlineServer
open Prog

/-! ### Python -/

/-- A value that `json` decodes or encodes. -/
structure Value where
  json : Json
  wf : json.WellFormed

namespace Value

def null : Value := ⟨.null, trivial⟩

def str (s : Text) : Value := ⟨.str s, trivial⟩

end Value

structure Python where
  /-- `str.lower` -/
  lower : Text → Text
  /-- `str` of a value that is not a string -/
  repr : Value → Text
  /-- `int` of a value, unless it raises -/
  int : Value → Option Int

/-- `str.isspace` -/
def isPySpace (c : Char) : Bool :=
  (9 ≤ c.toNat ∧ c.toNat ≤ 13) ∨ (28 ≤ c.toNat ∧ c.toNat ≤ 32) ∨ c.toNat = 0x85 ∨ c.toNat = 0xa0 ∨ c.toNat = 0x1680 ∨
    (0x2000 ≤ c.toNat ∧ c.toNat ≤ 0x200a) ∨ c.toNat = 0x2028 ∨ c.toNat = 0x2029 ∨ c.toNat = 0x202f ∨
    c.toNat = 0x205f ∨ c.toNat = 0x3000

/-- `str.strip` -/
def strip (s : Text) : Text := (s.dropWhile isPySpace).rdropWhile isPySpace

/-- The truth value of a decoded value; a number is false if it is zero. -/
def Value.truthy (v : Value) : Bool :=
  match v.json with
  | .null => false
  | .bool b => b
  | .num lexeme => (lexeme.takeWhile fun c => c ≠ 'e' ∧ c ≠ 'E').any fun c => c.isDigit ∧ c ≠ '0'
  | .str s => s ≠ []
  | .arr vs => !vs.isEmpty
  | .obj ms => !ms.isEmpty

def Python.str (py : Python) (v : Value) : Text :=
  match v.json with
  | .str s => s
  | _ => py.repr v

/-- `str` of an integer -/
def strInt : Int → Text := Decimal.ofInt

inductive Exc
  | valueError
  | runtimeError
  | keyError
  | attributeError
  | typeError
  | jsonDecodeError
  | unicodeDecodeError
  | osError
  | httpNotFound
  | httpBadRequest
  | httpInternalServerError
deriving DecidableEq

/-- The string that a method of strings is called on. -/
def asStr (v : Value) : Except Exc Text :=
  match v.json with
  | .str s => .ok s
  | _ => .error .attributeError

/-! ### The store -/

abbrev Entry := Dict Text Value

abbrev Ports := Dict Int Entry

structure KeyManager where
  port_start : Int
  port_end : Int
  ports : Ports

def DEFAULT_METHOD : Value := .str "chacha20-ietf-poly1305".toList
def DEFAULT_PORT_START : Int := 444
def DEFAULT_PORT_END : Int := 999

def Entry.toJson (entry : Entry) : Json := .obj (entry.items.map fun p => (p.1, p.2.json))

def Ports.toJson (ports : Ports) : Json := .obj (ports.items.map fun p => (strInt p.1, Entry.toJson p.2))

/-- `Path.read_text` -/
def read_text (bytes : ByteArray) : Except Exc Text :=
  match bytes.utf8Decode? with
  | some s => .ok s.toList
  | none => .error .unicodeDecodeError

/-- `json.loads` on the texts of the JSON grammar; `NaN`, `Infinity` and lone surrogates, which Python also takes, are
left out. -/
def json_loads (s : Text) : Except Exc Json :=
  match Json.parse s with
  | some v => .ok v
  | none => .error .jsonDecodeError

/-- `_load_ports` of the file, if there is one. -/
def _load_ports : Option ByteArray → Except Exc Json
  | none => .ok (.obj [])
  | some bytes =>
    match read_text bytes with
    | .error e => .error e
    | .ok text =>
      match json_loads text with
      | .error .jsonDecodeError => .ok (.obj [])
      | r => r

/-- The text that `save` writes. -/
def portsText (ports : Ports) : Text := Json.dumps 0 ports.toJson ++ ['\n']

/-! ### What leaves the process -/

inductive Command
  | add (server_port : Int) (password method : Value)
  | remove (server_port : Int)
  | list
  | set_ip (server_port : Int) (ip : Value)
  | clear_ip (server_port : Int)
  | ip_status (server_port : Int)

inductive KeyOp
  /-- `LibevManagerClient._send` -/
  | send (c : Command)
  | write_text (s : Text)
  | generate_password

/-- What a call answers: the reply, unless it raises; whether the file has been written; a password. -/
@[reducible] def KeyOp.Res : KeyOp → Type
  | .send _ => Option Text
  | .write_text _ => Bool
  | .generate_password => Text

abbrev KeyMethod := Method KeyOp KeyOp.Res Exc KeyManager

def _send (c : Command) : KeyMethod (Option Text) := Method.op (KeyOp.send c)

def _command (c : Command) : KeyMethod Text := do
  match ← _send c with
  | some data => return data
  | none => Method.raise .runtimeError

def _check_response (resp : Text) : KeyMethod Unit :=
  if resp = "ok".toList then return
  else Method.raise .runtimeError

/-- A command that `_check_response` follows. -/
def checked (c : Command) : KeyMethod Unit := do
  let resp ← _command c
  _check_response resp

def add_port (port : Int) (password method : Value) : KeyMethod Unit := checked (.add port password method)

def remove_port (port : Int) : KeyMethod Unit := checked (.remove port)

def client_set_ip (port : Int) (ip : Value) : KeyMethod Unit := checked (.set_ip port ip)

def client_clear_ip (port : Int) : KeyMethod Unit := checked (.clear_ip port)

/-! ### Methods of `KeyManager` -/

def setPorts (ports : Ports) : KeyMethod Unit := do
  let self ← Method.get
  Method.set { self with ports }

def write_text (s : Text) : KeyMethod Bool := Method.op (KeyOp.write_text s)

def save : KeyMethod Unit := do
  let self ← Method.get
  let written ← write_text (portsText self.ports)
  if written then return else Method.raise .osError

/-- The first port of the range that is not used. -/
def firstFree (used : List Int) : Nat → Int → Option Int
  | 0, _ => none
  | n + 1, port => if port ∈ used then firstFree used n (port + 1) else some port

def KeyManager.allocate_port (self : KeyManager) (preferred : Option Int) : Except Exc Int :=
  let used := self.ports.keys
  match preferred with
  | some preferred =>
    if preferred ∈ used then .error .valueError
    else if self.port_start ≤ preferred ∧ preferred ≤ self.port_end then .ok preferred
    else .error .valueError
  | none =>
    match firstFree used (self.port_end + 1 - self.port_start).toNat self.port_start with
    | some port => .ok port
    | none => .error .runtimeError

def find_by_name (py : Python) (ports : Ports) (name : Text) : Option (Int × Entry) :=
  ports.items.find? fun p => py.lower (py.str (p.2.getD "name".toList (.str []))) = py.lower (strip name)

structure KeyPayload where
  id : Text
  name : Value
  password : Value
  port : Int
  method : Value
  lockedIp : Value

def key_payload (port : Int) (entry : Entry) : Except Exc KeyPayload :=
  match entry.get? "password".toList with
  | none => .error .keyError
  | some password => .ok
    { id := strInt port
      name := entry.getD "name".toList (.str ("port-".toList ++ strInt port))
      password
      port
      method := entry.getD "method".toList DEFAULT_METHOD
      lockedIp := entry.getD "locked_ip".toList .null }

/-- The entry of a new key. -/
def newEntry (password method : Value) (name : Text) : Entry :=
  (((Dict.empty.set "password".toList password).set "method".toList method).set "name".toList (.str name)).set
    "locked_ip".toList .null

def generate_password : KeyMethod Text := Method.op KeyOp.generate_password

/-- `password or generate_password()` -/
def choosePassword (password : Value) : KeyMethod Value := do
  if password.truthy then
    return password
  else
    let password ← generate_password
    return .str password

def add_key (py : Python) (name : Value) (port : Option Int) (password method : Value) : KeyMethod KeyPayload := do
  let text ← Method.ofExcept (asStr name)
  let name := strip text
  let self ← Method.get
  if name = [] ∨ (find_by_name py self.ports name).isSome then
    Method.raise .valueError
  else
    let chosen_port ← Method.ofExcept (self.allocate_port port)
    let chosen_password ← choosePassword password
    add_port chosen_port chosen_password method
    let entry := newEntry chosen_password method name
    setPorts (self.ports.set chosen_port entry)
    save
    Method.ofExcept (key_payload chosen_port entry)

/-- A key that must exist. -/
def requireName (py : Python) (name : Value) : KeyMethod (Int × Entry) := do
  let name ← Method.ofExcept (asStr name)
  let self ← Method.get
  match find_by_name py self.ports name with
  | none => Method.raise .valueError
  | some found => return found

def delete_key (py : Python) (name : Value) : KeyMethod KeyPayload := do
  let found ← requireName py name
  Method.except (client_clear_ip found.1) fun _ => pure ()
  remove_port found.1
  let self ← Method.get
  setPorts (self.ports.erase found.1)
  save
  Method.ofExcept (key_payload found.1 found.2)

/-- `entry[field] = value` of the entry of `port`, and `save`. -/
def updateEntry (port : Int) (entry : Entry) (field : Text) (value : Value) : KeyMethod Unit := do
  let self ← Method.get
  setPorts (self.ports.set port (entry.set field value))
  save

def set_lock_ip (py : Python) (name ip : Value) : KeyMethod Unit := do
  let found ← requireName py name
  client_set_ip found.1 ip
  updateEntry found.1 found.2 "locked_ip".toList ip

def clear_lock_ip (py : Python) (name : Value) : KeyMethod Unit := do
  let found ← requireName py name
  client_clear_ip found.1
  updateEntry found.1 found.2 "locked_ip".toList .null

/-! ### Handlers of the API -/

/-- The entry of the port in the path, or 404. -/
def requirePort (port : Int) : KeyMethod Entry := do
  let self ← Method.get
  match self.ports.get? port with
  | none => Method.raise .httpNotFound
  | some entry => return entry

/-- `port is None` -/
def Value.isNone (v : Value) : Bool :=
  match v.json with
  | .null => true
  | _ => false

/-- The name of a request that has none. -/
def defaultName (py : Python) (port : Value) : Text :=
  if port.isNone then "key".toList else "port-".toList ++ py.str port

/-- `int(port) if port is not None else None` -/
def requestedPort (py : Python) (port : Value) : Except Exc (Option Int) :=
  if port.isNone then .ok none
  else
    match py.int port with
    | some n => .ok (some n)
    | none => .error .valueError

/-- `except ValueError` and `except RuntimeError` of the handlers. -/
def httpError (onValue onRuntime : Exc) : Exc → Exc
  | .valueError => onValue
  | .runtimeError => onRuntime
  | e => e

def handle_create_key (py : Python) (port name password method : Value) : KeyMethod KeyPayload :=
  let name := if name.truthy then name else .str (defaultName py port)
  Method.except
    (do
      let port ← Method.ofExcept (requestedPort py port)
      add_key py name port password method)
    fun e => Method.raise (httpError .httpBadRequest .httpInternalServerError e)

def handle_delete_key (py : Python) (port : Int) : KeyMethod Unit := do
  let entry ← requirePort port
  Method.except
    (do
      let _ ← delete_key py (entry.getD "name".toList (.str (strInt port)))
      return)
    fun e => Method.raise (httpError .httpNotFound .runtimeError e)

/-- `name` is the field of the body, if it has one. -/
def handle_put_name (port : Int) (name : Option Value) : KeyMethod Unit := do
  let entry ← requirePort port
  updateEntry port entry "name".toList (name.getD (entry.getD "name".toList .null))

def handle_lock_ip (port : Int) (ip : Value) : KeyMethod Unit := do
  let entry ← requirePort port
  if ip.truthy then
    client_set_ip port ip
    updateEntry port entry "locked_ip".toList ip
  else Method.raise .httpBadRequest

def handle_clear_lock_ip (port : Int) : KeyMethod Unit := do
  let entry ← requirePort port
  client_clear_ip port
  updateEntry port entry "locked_ip".toList .null

/-! ### The manager and the file -/

/-- What the manager makes of a command: it does it, or refuses it, or never receives it; an `add`, which removes
the old server first, may find the port not available, or list the new server and fail to start it. -/
inductive Acted
  | done
  | unavailable
  | unstarted
  | refused
  | notReceived
deriving DecidableEq

structure Exchange where
  acted : Acted
  replied : Bool
deriving DecidableEq

/-- The ports of the manager's table afterwards. -/
def Acted.table (acted : Acted) (c : Command) (table : List Int) : List Int :=
  match acted, c with
  | .done, .add port _ _ | .unstarted, .add port _ _ => port :: table.filter (· ≠ port)
  | .done, .remove port => table.filter (· ≠ port)
  | .unavailable, .add port _ _ => table.filter (· ≠ port)
  | _, _ => table

/-- The reply to a command other than `list` and `ip_status`. -/
def Exchange.reply (x : Exchange) : Option Text :=
  if x.replied then
    match x.acted with
    | .done => some "ok".toList
    | .unavailable | .unstarted => some "port is not available".toList
    | .refused => some "err".toList
    | .notReceived => none
  else none

structure KeyWorld where
  file : Option ByteArray
  table : List Int

/-- One call with an exchange that `exchange` admits, or a `write_text` with an outcome that `write` admits;
where it fails it may leave any file. -/
inductive KeyStep (exchange : Command → Exchange → Prop) (write : Bool → Prop) :
    KeyWorld → (o : KeyOp) → o.Res → KeyWorld → Prop
  | send {c : Command} {x : Exchange} (w : KeyWorld) (h : exchange c x) :
      KeyStep exchange write w (.send c) x.reply { w with table := x.acted.table c w.table }
  | written (w : KeyWorld) (s : Text) (h : write true) :
      KeyStep exchange write w (.write_text s) true { w with file := some s.utf8Encode }
  | failed (w : KeyWorld) (s : Text) (file : Option ByteArray) (h : write false) :
      KeyStep exchange write w (.write_text s) false { w with file }
  | generate_password (w : KeyWorld) (s : Text) : KeyStep exchange write w .generate_password s w

end OutlineServer
