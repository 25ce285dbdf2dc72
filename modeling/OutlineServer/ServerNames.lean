import OutlineServer.Servers

/-!
# The names of a port

What the manager and the child of an accepted `add` call a port, and what the manager derives from the text of
a later command for the same numeric port. Some of it is made of the text, some of its `atoi`, so all of it
agrees exactly for canonical texts (`one_name_iff`).
-/

namespace OutlineServer.Servers
open Decimal

/-- The text that `%d` prints for its value. -/
def Canonical (port : Text) : Prop := ofInt (atoi port) = port

instance (port : Text) : Decidable (Canonical port) := inferInstanceAs (Decidable (_ = _))

/-- `remote_port` of the child: the `server_port` of its config. -/
def childPort (server : Server) : Text := ofInt (atoi server.port)

/-- The names of an added record and those that a command with the port text `later` derives. -/
structure OneName (manager : ManagerCtx) (server : Server) (later : Text) : Prop where
  /-- the config file that is written is the one that the child is told to read -/
  conf_file : workPath manager server.port "conf".toList = (construct_command_line manager server).conf_file
  /-- the pid file of the child is the one that `stop_server` reads -/
  pid_file : (construct_command_line manager server).pid_file = workPath manager later "pid".toList
  /-- the key of the table -/
  table_key : server.port = later
  /-- the port in the config -/
  config_port : childPort server = later
  /-- the sidecar files of the child are those of `remove`, `set_ip`, `clear_ip` and `ip_status` -/
  iplock : ip_lock_sidecar_path (childPort server) "iplock".toList = ip_lock_sidecar_path later "iplock".toList
  ipstatus : ip_lock_sidecar_path (childPort server) "ipstatus".toList = ip_lock_sidecar_path later "ipstatus".toList
  /-- the traffic that the child reports under its port is that of the record -/
  traffic : strncpy (childPort server) 7 = server.port

/-! ### Accepted records -/

theorem cstr_no_nul {s : Text} {c : Char} (h : c ∈ cstr s) : c ≠ '\x00' := by
  simpa using List.mem_takeWhile_imp h

/-- What holds of the zeroed record and is kept by every member holds of every record of a command. -/
theorem get_server_induct {P : Server → Prop} (hzero : P Server.zero)
    (hstep : ∀ {server server' name value}, P server → server.setMember name value = some server' → P server')
    {obj : Option Json} {server : Server} (h : get_server obj = some server) : P server := by
  have hmembers : ∀ members server, P server → P (server.setMembers members) := by
    intro members
    induction members with
    | nil => exact fun server h => h
    | cons m members ih =>
      intro server h
      rw [Server.setMembers]
      split
      · exact ih _ (hstep h ‹_›)
      · exact h
  unfold get_server at h
  split at h
  · cases h
  · cases h
    exact hmembers _ _ hzero
  · cases h
    exact hzero

/-- What every string of a record keeps. -/
structure PortBound (server : Server) : Prop where
  length : server.port.length ≤ 7
  no_nul : ∀ c ∈ server.port, c ≠ '\x00'

namespace PortBound

theorem zero : PortBound Server.zero := ⟨Nat.zero_le _, fun _ h => by cases h⟩

theorem strncpy {server : Server} (s : Text) : PortBound { server with port := Servers.strncpy s 7 } :=
  ⟨List.length_take_le 7 _, fun _ hc => cstr_no_nul (List.mem_of_mem_take hc)⟩

theorem snprintf {server : Server} (n : Int) : PortBound { server with port := snprintfPort n } := by
  refine ⟨List.length_take_le 7 _, fun c hc => ?_⟩
  rcases mem_ofInt (List.mem_of_mem_take hc) with hd | rfl
  · rintro rfl
    cases hd
  · decide

theorem port_of_setMember {server server' : Server} {name : Text} {value : Json}
    (hs : server.setMember name value = some server') :
    server'.port = server.port ∨ (∃ s, server'.port = Servers.strncpy s 7) ∨ ∃ n, server'.port = snprintfPort n := by
  unfold Server.setMember at hs
  split at hs
  · split at hs
    · cases hs
      exact .inr (.inl ⟨_, rfl⟩)
    · split at hs
      · cases hs
        exact .inr (.inr ⟨_, rfl⟩)
      · cases hs
        exact .inl rfl
    · cases hs
      exact .inl rfl
  · refine .inl ?_
    split_ifs at hs
    all_goals
      split at hs
      all_goals
        cases hs
        rfl

theorem setMember {server server' : Server} {name : Text} {value : Json} (h : PortBound server)
    (hs : server.setMember name value = some server') : PortBound server' := by
  rcases port_of_setMember hs with heq | ⟨s, heq⟩ | ⟨n, heq⟩
  · exact ⟨heq ▸ h.length, heq ▸ h.no_nul⟩
  · have hb := (@strncpy server) s
    exact ⟨heq ▸ hb.length, heq ▸ hb.no_nul⟩
  · have hb := (@snprintf server) n
    exact ⟨heq ▸ hb.length, heq ▸ hb.no_nul⟩

theorem of_get_server {obj : Option Json} {server : Server} (h : get_server obj = some server) : PortBound server :=
  get_server_induct zero (fun h hs => h.setMember hs) h

theorem of_accepted {obj : Option Json} {server : Server} (h : accepted obj server) : PortBound server :=
  of_get_server h.1

end PortBound

/-! ### Numbers as ports -/

theorem jsonInteger_ofInt (n : Int) : jsonInteger (ofInt n) = some n := by
  have hall : (ofInt n).all (fun c => c.isDigit ∨ c = '-') = true :=
    List.all_eq_true.2 fun c hc => by simpa using mem_ofInt hc
  rw [jsonInteger, if_pos hall, atoi_ofInt]

/-- Only `server_port` changes the port. -/
theorem port_setMembers {members : List (Text × Json)} (h : ∀ m ∈ members, cstr m.1 ≠ "server_port".toList)
    (server : Server) : (server.setMembers members).port = server.port := by
  induction members generalizing server with
  | nil => rfl
  | cons m members ih =>
    obtain ⟨hm, hms⟩ := List.forall_mem_cons.1 h
    rw [Server.setMembers]
    split
    · rename_i server' hs
      rw [ih hms]
      unfold Server.setMember at hs
      rw [if_neg hm] at hs
      split_ifs at hs
      all_goals
        split at hs
        all_goals
          cases hs
          rfl
    · rfl

/-! ### One name -/

theorem strncpy_bound {server : Server} (h : PortBound server) : strncpy server.port 7 = server.port := by
  have hcstr : cstr server.port = server.port :=
    List.takeWhile_eq_self_iff.2 fun c hc => by simpa using h.no_nul c hc
  rw [strncpy, hcstr, List.take_of_length_le h.length]

/-- For every accepted `add` and every later text of the same number. -/
theorem one_name_iff {manager : ManagerCtx} {obj : Option Json} {server : Server} {later : Text}
    (h : accepted obj server) (hsame : atoi later = atoi server.port) :
    OneName manager server later ↔ Canonical server.port ∧ Canonical later := by
  constructor
  · intro hone
    have hlater : Canonical later := by
      rw [Canonical, hsame]
      exact hone.config_port
    exact ⟨hone.table_key.symm ▸ hlater, hlater⟩
  · rintro ⟨hport, hlater⟩
    have heq : server.port = later := by rw [← hport, ← hlater, hsame]
    have hchild : childPort server = server.port := hport
    subst heq
    refine ⟨?_, ?_, rfl, hport, ?_, ?_, ?_⟩
    · exact congrArg (workPath manager · "conf".toList) hport.symm
    · exact congrArg (workPath manager · "pid".toList) hport
    · rw [hchild]
    · rw [hchild]
    · rw [hchild, strncpy_bound (.of_accepted h)]

/-- The value of an `add` of a port with password `x`. -/
def addOf (port : Json) : Json := .obj [("server_port".toList, port), ("password".toList, .str ['x'])]

def serverOf (port : Text) : Server := { Server.zero with port, password := ['x'] }

theorem accepted_8388 : accepted (some (addOf (.num "8388".toList))) (serverOf "8388".toList) :=
  ⟨by decide +kernel, by decide, by decide⟩

theorem one_name_iff_8388 : OneName plainManager (serverOf "8388".toList) "8388".toList :=
  (one_name_iff accepted_8388 rfl).2 ⟨by decide +kernel, by decide +kernel⟩

/-- A port with a leading zero: the config is written under one name and read under another, and even the
same command later does not name what the child goes by. -/
theorem leading_zero_two_names : ∃ obj server, accepted obj server ∧ ¬ OneName plainManager server server.port := by
  refine ⟨some (addOf (.str "08388".toList)), serverOf "08388".toList, ⟨by decide +kernel, by decide, by decide⟩, ?_⟩
  intro h
  have hport := h.config_port
  revert hport
  decide +kernel

end OutlineServer.Servers
