import OutlineServer.Lib.JsonQuotes
import OutlineServer.Servers

/-!
# Reading a config file (`jconf.c`)

`read_jconf`, from the bytes of the file. The options of one kind differ in their names only, so each kind is one
branch over the list of its names. A member of `jconf_t` is known by its option's name, and one that no option
has set is zero. Not followed are `parse_addr` of the texts in `remote_addr`, `parse_dscp` of those in `dscp`,
`get_mptcp`, and the counters `remote_num` and `dscp_num`.
-/

namespace OutlineServer.Servers
open Decimal

def MAX_PORT_NUM : Nat := 1024
def MAX_REMOTE_NUM : Nat := 10
def MAX_DSCP_NUM : Nat := 64
def MAX_CONF_SIZE : Nat := 128 * 1024

/-- What `FATAL` prints before it exits. -/
inductive Fatal
  /-- what the JSON reader says of the text -/
  | json
  | message (text : String)
deriving DecidableEq

structure Jconf where
  /-- the members of type `char *`, `none` for `NULL` -/
  texts : Text → Option Text
  flags : Text → Bool
  numbers : Text → Int
  mode : Mode
  remote_addr : List (Option Text)
  port_password : List (Option (Text × Text))
  dscp : List (Option (Text × Text))
  port_password_num : Nat

/-- `memset(&conf, 0, sizeof(jconf_t))` -/
def Jconf.zero : Jconf := ⟨fun _ => none, fun _ => false, fun _ => 0, .TCP_ONLY, [], [], [], 0⟩

def Jconf.setText (conf : Jconf) (name : Text) (s : Option Text) : Jconf :=
  { conf with texts := fun k => if k = name then s else conf.texts k }

def Jconf.setFlag (conf : Jconf) (name : Text) (b : Bool) : Jconf :=
  { conf with flags := fun k => if k = name then b else conf.flags k }

def Jconf.setNumber (conf : Jconf) (name : Text) (n : Int) : Jconf :=
  { conf with numbers := fun k => if k = name then n else conf.numbers k }

def textOptions : List Text :=
  ["server_port", "local_address", "local_ipv4_address", "local_ipv6_address", "local_port", "password", "key",
    "method", "timeout", "user", "plugin", "plugin_opts", "nameserver", "tunnel_address", "workdir", "acl",
    "manager_address"].map String.toList

def flagOptions : List Text :=
  ["fast_open", "reuse_port", "mptcp", "ipv6_first", "use_syslog", "no_delay", "tcp_tproxy"].map String.toList

def numberOptions : List Text :=
  ["tcp_incoming_sndbuf", "tcp_incoming_rcvbuf", "tcp_outgoing_sndbuf", "tcp_outgoing_rcvbuf", "nofile",
    "mtu"].map String.toList

/-- An `int` that has been given a value of `int64_t`. -/
def toInt (n : Int) : Int := n.bmod (2 ^ 32)

def ss_itoa (n : Int) : Text := ofInt (toInt n)

def to_string : Json → Except Fatal (Option Text)
  | .str s => .ok (some (cstr s))
  | .num lexeme =>
    match jsonInteger lexeme with
    | some n => .ok (some (ss_itoa n))
    | none => .error (.message "Invalid config format.")
  | .null => .ok none
  | _ => .error (.message "Invalid config format.")

/-- `check_json_value_type` of a boolean -/
def boolean (name : Text) : Json → Except Fatal Bool
  | .bool b => .ok b
  | _ => .error (.message ("invalid config file: option '" ++ String.ofList name ++ "' must be a boolean"))

/-- `check_json_value_type` of an integer -/
def integer (name : Text) : Json → Except Fatal Int
  | .num lexeme =>
    match jsonInteger lexeme with
    | some n => .ok (toInt n)
    | none => .error (.message ("invalid config file: option '" ++ String.ofList name ++ "' must be an integer"))
  | _ => .error (.message ("invalid config file: option '" ++ String.ofList name ++ "' must be an integer"))

def modeNamed (s : Text) : Option Mode :=
  if s = "tcp_only".toList then some .TCP_ONLY
  else if s = "tcp_and_udp".toList then some .TCP_AND_UDP
  else if s = "udp_only".toList then some .UDP_ONLY
  else none

/-- An unknown mode is ignored. -/
def Jconf.setMode (conf : Jconf) : Option Text → Jconf
  | none => { conf with mode := .TCP_ONLY }
  | some s => { conf with mode := (modeNamed s).getD conf.mode }

/-- The start of an array is written over; an entry that is `none` is not written. -/
def overwrite {α : Type} : List (Option α) → List (Option α) → List (Option α)
  | new :: news, old :: olds => (new <|> old) :: overwrite news olds
  | news, [] => news
  | [], olds => olds

def serverTexts : Json → Except Fatal (List (Option Text))
  | .arr vs => (vs.take MAX_REMOTE_NUM).mapM to_string
  | .str s => .ok [some (cstr s)]
  | _ => .ok []

/-- The strings of an object of ports. -/
def portTexts (max : Nat) : Json → List (Option (Text × Text))
  | .obj ms => (ms.take max).map fun
    | (port, .str s) => some (cstr port, cstr s)
    | _ => none
  | _ => []

/-- The counter of an array, when the entries from `j` on have been written: the last one that is a text sets it. -/
def countTexts {α : Type} (num : Nat) : Nat → List (Option α) → Nat
  | _, [] => num
  | j, some _ :: news => countTexts (j + 1) (j + 1) news
  | j, none :: news => countTexts num (j + 1) news

local instance lawfulName : LawfulBEq Text := inferInstance

/-- What a member of the file does to the config. -/
def Jconf.setMember (conf : Jconf) (name : Text) (value : Json) : Except Fatal Jconf :=
  if name = "server".toList then do
    return { conf with remote_addr := overwrite (← serverTexts value) conf.remote_addr }
  else if name = "port_password".toList then
    let texts := portTexts MAX_PORT_NUM value
    return { conf with
      port_password := overwrite texts conf.port_password
      port_password_num := countTexts conf.port_password_num 0 texts }
  else if name ∈ textOptions then do
    let s ← to_string value
    return conf.setText name (if name = "plugin".toList ∧ s = some [] then none else s)
  else if name ∈ flagOptions then do
    return conf.setFlag name (← boolean name value)
  else if name ∈ numberOptions then do
    return conf.setNumber name (← integer name value)
  else if name = "auth".toList then
    .error (.message "One time auth has been deprecated. Try AEAD ciphers instead.")
  else if name = "dscp".toList then
    return { conf with dscp := overwrite (portTexts MAX_DSCP_NUM value) conf.dscp }
  else if name = "mode".toList then do
    return conf.setMode (← to_string value)
  else
    return conf

def Jconf.setMembers (conf : Jconf) : List (Text × Json) → Except Fatal Jconf
  | [] => .ok conf
  | (name, value) :: members => do
    let conf ← conf.setMember (cstr name) value
    conf.setMembers members

def read_jconf (file : Text) : Except Fatal Jconf :=
  if MAX_CONF_SIZE ≤ file.length then .error (.message "Too large config file.")
  else if file = [] then .error (.message "Failed to read the config file.")
  else
    match Json.parse file with
    | none => .error .json
    | some (.obj members) => Jconf.zero.setMembers members
    | some _ => .error (.message "Invalid config file")

/-! ### Where the texts of a config come from -/

/-- A text of the config is a string of the file, or the digits of an integer, or was there before. -/
theorem Jconf.texts_setMember {conf conf' : Jconf} {name : Text} {value : Json}
    (h : conf.setMember name value = .ok conf') {k s : Text} (hs : conf'.texts k = some s) :
    (∃ x, value = .str x ∧ s = cstr x) ∨ (∃ n, s = ofInt n) ∨ conf.texts k = some s := by
  unfold Jconf.setMember at h
  split_ifs at h
  · cases ht : serverTexts value with
    | error e => rw [ht] at h; cases h
    | ok t =>
      rw [ht] at h
      cases h
      exact .inr (.inr hs)
  · cases h
    exact .inr (.inr hs)
  · cases ht : to_string value with
    | error e => rw [ht] at h; cases h
    | ok t =>
      rw [ht] at h
      cases h
      simp only [setText] at hs
      split_ifs at hs
      · unfold to_string at ht
        subst hs
        split at ht
        · cases ht
          exact .inl ⟨_, rfl, rfl⟩
        · split at ht
          · cases ht
            exact .inr (.inl ⟨_, rfl⟩)
          · cases ht
        · cases ht
        · cases ht
      · exact .inr (.inr hs)
  · cases ht : boolean name value with
    | error e => rw [ht] at h; cases h
    | ok t =>
      rw [ht] at h
      cases h
      exact .inr (.inr hs)
  · cases ht : integer name value with
    | error e => rw [ht] at h; cases h
    | ok t =>
      rw [ht] at h
      cases h
      exact .inr (.inr hs)
  · cases h
    exact .inr (.inr hs)
  · cases ht : to_string value with
    | error e => rw [ht] at h; cases h
    | ok t =>
      rw [ht] at h
      cases h
      refine .inr (.inr ?_)
      cases t <;> exact hs
  · cases h
    exact .inr (.inr hs)

theorem Jconf.texts_setMembers {conf conf' : Jconf} {members : List (Text × Json)}
    (h : conf.setMembers members = .ok conf') {k s : Text} (hs : conf'.texts k = some s) :
    (∃ name x, (name, .str x) ∈ members ∧ s = cstr x) ∨ (∃ n, s = ofInt n) ∨ conf.texts k = some s := by
  induction members generalizing conf with
  | nil =>
    cases h
    exact .inr (.inr hs)
  | cons m members ih =>
    obtain ⟨name, value⟩ := m
    rw [Jconf.setMembers] at h
    cases hm : conf.setMember (cstr name) value with
    | error e => rw [hm] at h; cases h
    | ok conf₁ =>
      rw [hm] at h
      rcases ih h with ⟨name', x, hx, rfl⟩ | hn | hk
      · exact .inl ⟨name', x, List.mem_cons_of_mem _ hx, rfl⟩
      · exact .inr (.inl hn)
      · rcases texts_setMember hm hk with ⟨x, rfl, rfl⟩ | hn | hk
        · exact .inl ⟨name, x, List.mem_cons_self, rfl⟩
        · exact .inr (.inl hn)
        · exact .inr (.inr hk)

/-- A text that is read from a file and that digits do not make is opened by a quote of the file. -/
theorem texts_read_jconf {file : Text} {conf : Jconf} (h : read_jconf file = .ok conf) {k s : Text}
    (hs : conf.texts k = some s) : (∃ x, Json.QuotedIn file x ∧ s = cstr x) ∨ ∃ n, s = ofInt n := by
  unfold read_jconf at h
  split_ifs at h
  split at h
  · cases h
  · rename_i members hp
    rcases Jconf.texts_setMembers h hs with ⟨name, x, hx, rfl⟩ | hn | hk
    · exact .inl ⟨x, .of_parse hp hx, rfl⟩
    · exact .inr hn
    · cases hk
  · cases h

end OutlineServer.Servers
