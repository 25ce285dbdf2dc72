import OutlineServer.Servers

/-!
# Adding over a registered port

`AddHost` is what the machine does while an `add` runs: when the old child exits among the trial binds, which
addresses it and others hold, whether the config can be opened, and what comes of `system`. The command is all
or nothing exactly in the cases of `add_all_or_nothing_iff`; the old server is given up before anything is
tried, so nothing else ends well.
-/

namespace OutlineServer.Servers
open Prog

structure AddHost where
  /-- `getaddrinfo` gives an address for the host and port -/
  resolves : Text → Text → Bool → Bool
  /-- a process other than the old child has bound it -/
  foreign : Text → Text → Bool → Bool
  /-- the old child listens there -/
  holds : Text → Bool → Bool
  /-- the trial binds that are made before the old child has exited, if it does -/
  exitAt : Option Nat
  writable : Bool
  /-- `system` cannot fork, or no child comes up, or one with this pid -/
  child : Option (Option Int)

namespace AddHost

/-- The old child has not exited by the `k`-th trial bind. -/
def oldThere (machine : AddHost) (k : Nat) : Bool :=
  match machine.exitAt with
  | some n => k < n
  | none => true

def bindOk (machine : AddHost) (port : Text) (k : Nat) (address : Text × Bool) : Bool :=
  machine.resolves address.1 port address.2 && !machine.foreign address.1 port address.2 &&
    !(machine.oldThere k && machine.holds address.1 address.2)

end AddHost

/-- The config is written if it can be opened. -/
def Os.tryConfig (w : Os) (writable : Bool) (path text : Text) : Os :=
  if writable then w.write_config path text else w

namespace AddHost

/-- The answers to the manager's calls, with the number of trial binds so far. -/
def answer (machine : AddHost) : (o : ServerOp) → Os × Nat → o.Res × (Os × Nat)
  | .table_delete port, (w, k) => ((), ({ w with table := w.table.erase port }, k))
  | .table_put port server, (w, k) => ((), ({ w with table := w.table.set port server }, k))
  | .unlink _, x => ((), x)
  | .read_pid path, x => (x.1.pids path, x)
  | .kill pid, (w, k) => ((), (w.kill pid, k))
  | .create_and_bind host port tcp, (w, k) => (machine.bindOk port k (host, tcp), (w, k + 1))
  | .write_config path text, (w, k) => (machine.writable, (w.tryConfig machine.writable path text, k))
  | .system cmd, (w, k) =>
    match machine.child with
    | none => (false, (w, k))
    | some none => (true, (w, k))
    | some (some pid) => (true, (w.start cmd pid, k))

end AddHost

def hostBinds (manager : ManagerCtx) (host : Text) : List (Text × Bool) :=
  if manager.mode = .TCP_AND_UDP then [(host, true), (host, false)] else [(host, decide (manager.mode ≠ .UDP_ONLY))]

/-- The trial binds of `check_port`, in their order. -/
def trialBinds (manager : ManagerCtx) (hosts : List Text) : List (Text × Bool) := hosts.flatMap (hostBinds manager)

/-- All of the trial binds succeed, the first of them after `k` others. -/
def AddHost.allOk (machine : AddHost) (port : Text) (k : Nat) : List (Text × Bool) → Bool
  | [] => true
  | address :: l => machine.bindOk port k address && machine.allOk port (k + 1) l

/-- The check of the port finds it available. -/
def AddHost.Available (machine : AddHost) (manager : ManagerCtx) (port : Text) : Prop :=
  machine.allOk port 0 (trialBinds manager manager.hosts) = true

/-- The file that the child is told to read holds the config of the record. -/
def AddHost.ReadsConfig (machine : AddHost) (manager : ManagerCtx) (server : Server) (w : Os) : Prop :=
  (w.tryConfig machine.writable (workPath manager server.port "conf".toList) (configText manager server)).configs
    (construct_command_line manager server).conf_file = some (configText manager server)

/-- A child has been started with the config of the record. -/
def Started (manager : ManagerCtx) (server : Server) (w w' : Os) : Prop :=
  w'.next = w.next + 1 ∧ ∃ pid, w'.procs pid = some ⟨w.next, some (configText manager server)⟩

/-- An `ok` with the new server registered and its child started, or an error with the old one registered and
its child there. -/
def AllOrNothing (manager : ManagerCtx) (machine : AddHost) (server old : Server) (w : Os) (reply : Text)
    (x : Os × Nat) : Prop :=
  reply = "ok".toList ∧ x.1.table.get? server.port = some server ∧ Started manager server w x.1 ∨
    reply ≠ "ok".toList ∧ x.1.table.get? server.port = some old ∧ machine.oldThere x.2 = true

/-- The run of the command. -/
def runAdd (manager : ManagerCtx) (machine : AddHost) (server : Server) (w : Os) : Text × (Os × Nat) :=
  (manager_add manager server).exec machine.answer (w, 0)

/-! ### The parts of the command -/

namespace Os
variable (w : Os) (writable : Bool) (path text : Text)

@[simp] theorem tryConfig_table : (w.tryConfig writable path text).table = w.table := by
  unfold tryConfig
  split <;> rfl

@[simp] theorem tryConfig_next : (w.tryConfig writable path text).next = w.next := by
  unfold tryConfig
  split <;> rfl

@[simp] theorem tryConfig_procs : (w.tryConfig writable path text).procs = w.procs := by
  unfold tryConfig
  split <;> rfl

theorem tryConfig_configs (table : Dict Text Server) (signals : List Nat) :
    ({ w with table, signals }.tryConfig writable path text).configs = (w.tryConfig writable path text).configs := by
  unfold tryConfig
  split <;> rfl

end Os

section
variable {manager : ManagerCtx} {machine : AddHost} {server : Server} {w : Os} {k : Nat}

theorem Os.kill_frame (w : Os) (pid : Int) : ∃ signals, w.kill pid = { w with signals } := by
  unfold Os.kill
  split
  · exact ⟨_, rfl⟩
  · exact ⟨w.signals, rfl⟩

/-- The old server is given up. -/
theorem exec_remove_server (port : Text) : ∃ signals,
    ((remove_server manager port).exec machine.answer (w, k)).2 = ({ w with table := w.table.erase port, signals },
      k) := by
  unfold remove_server stop_server
  simp only [serverOp, exec_bind]
  simp only [Prog.op, exec, AddHost.answer]
  split
  · rename_i pid _
    obtain ⟨signals, hs⟩ := Os.kill_frame { w with table := w.table.erase port } pid
    exact ⟨signals, by simp only [exec, AddHost.answer, hs]⟩
  · exact ⟨w.signals, rfl⟩

theorem allOk_append {port : Text} (l l' : List (Text × Bool)) :
    machine.allOk port k (l ++ l') = (machine.allOk port k l && machine.allOk port (k + l.length) l') := by
  induction l generalizing k with
  | nil => simp [AddHost.allOk]
  | cons address l ih =>
    rw [List.cons_append, AddHost.allOk, AddHost.allOk, ih, Bool.and_assoc, Nat.add_right_comm]
    rfl

theorem exec_check_host (host : Text) : (check_host manager server host).exec machine.answer (w, k) =
    (machine.allOk server.port k (hostBinds manager host), (w, k + (hostBinds manager host).length)) := by
  unfold check_host hostBinds
  simp only [serverOp, exec_bind]
  simp only [Prog.op, exec, AddHost.answer]
  split
  · rename_i hmode
    have htcp : decide (manager.mode ≠ .UDP_ONLY) = true := by rw [hmode]; rfl
    simp only [AddHost.allOk, Bool.and_true, htcp]
    rfl
  · simp only [AddHost.allOk, Bool.and_true]
    rfl

theorem exec_check_hosts (hosts : List Text) : ∃ k',
    (check_hosts manager server hosts).exec machine.answer (w, k) =
      (machine.allOk server.port k (trialBinds manager hosts), (w, k')) ∧
      (machine.allOk server.port k (trialBinds manager hosts) = true → k' = k + (trialBinds manager hosts).length) := by
  induction hosts generalizing k with
  | nil => exact ⟨k, rfl, fun _ => rfl⟩
  | cons host hosts ih =>
    have hcons : trialBinds manager (host :: hosts) = hostBinds manager host ++ trialBinds manager hosts :=
      List.flatMap_cons
    obtain ⟨k', hexec, hk'⟩ := ih (k := k + (hostBinds manager host).length)
    rw [check_hosts, exec_bind, exec_check_host, hcons, allOk_append]
    cases hok : machine.allOk server.port k (hostBinds manager host) with
    | true =>
      refine ⟨k', hexec, fun h => ?_⟩
      rw [hk' h, List.length_append, Nat.add_assoc]
    | false => exact ⟨_, rfl, fun h => by cases h⟩

/-- What an available port comes to: the record is put in the table, its config written, and `system` run. -/
theorem exec_add_server_available (hok : machine.Available manager server.port) :
    (add_server manager server).exec machine.answer (w, 0) =
      let w' := { w with table := w.table.set server.port server }
      let written :=
        w'.tryConfig machine.writable (workPath manager server.port "conf".toList) (configText manager server)
      match machine.child with
      | none => (-1, written, (trialBinds manager manager.hosts).length)
      | some none => (0, written, (trialBinds manager manager.hosts).length)
      | some (some pid) =>
        (0, written.start (construct_command_line manager server) pid, (trialBinds manager manager.hosts).length) := by
  obtain ⟨k', hexec, hk'⟩ := (@exec_check_hosts _ machine server w 0) manager.hosts
  have hk : k' = (trialBinds manager manager.hosts).length := (hk' hok).trans (Nat.zero_add _)
  rw [add_server, exec_bind, check_port, hexec, hk, hok]
  unfold build_config
  simp only [serverOp, exec_bind, if_true]
  simp only [Prog.op, exec, AddHost.answer]
  cases machine.child with
  | none => rfl
  | some child =>
    cases child with
    | none => rfl
    | some pid => rfl

theorem exec_add_server_unavailable (hok : ¬ machine.Available manager server.port) :
    ∃ k', (add_server manager server).exec machine.answer (w, 0) = (-1, w, k') := by
  obtain ⟨k', hexec, -⟩ := (@exec_check_hosts _ machine server w 0) manager.hosts
  rw [add_server, exec_bind, check_port, hexec, Bool.not_eq_true _ |>.mp hok]
  exact ⟨k', rfl⟩

end

/-! ### The command -/

section
variable {manager : ManagerCtx} {machine : AddHost} {server old : Server} {w : Os}

/-- The command after the old server has been given up. -/
theorem runAdd_eq : ∃ signals, runAdd manager machine server w =
    let x := (add_server manager server).exec machine.answer ({ w with table := w.table.erase server.port, signals }, 0)
    (if x.1 = -1 then "port is not available".toList else "ok".toList, x.2) := by
  obtain ⟨signals, hremove⟩ := (@exec_remove_server manager machine w 0) server.port
  refine ⟨signals, ?_⟩
  unfold runAdd manager_add
  rw [exec_bind, exec_bind, hremove]
  rfl

theorem not_ok : "port is not available".toList ≠ "ok".toList := by decide

/-- An error that leaves the table without the record. -/
theorem not_all_or_nothing {x : Os × Nat} (h : x.1.table.get? server.port ≠ some old) :
    ¬ AllOrNothing manager machine server old w "port is not available".toList x := by
  rintro (⟨hreply, -⟩ | ⟨-, htable, -⟩)
  · exact not_ok hreply
  · exact h htable

/-- An `ok` is all if a child has been started. -/
theorem all_or_nothing_ok {x : Os × Nat} (h : x.1.table.get? server.port = some server) :
    AllOrNothing manager machine server old w "ok".toList x ↔ Started manager server w x.1 :=
  ⟨fun h => h.elim (fun h => h.2.2) fun h => absurd rfl h.1, fun hs => .inl ⟨rfl, h, hs⟩⟩

/-- The child that has been started has the config that it has been told to read. -/
theorem started_start {w₁ : Os} {cmd : CommandLine} {pid : Int} (hnext : w₁.next = w.next)
    (hprocs : w₁.procs = w.procs) :
    Started manager server w (w₁.start cmd pid) ↔ w₁.configs cmd.conf_file = some (configText manager server) := by
  constructor
  · rintro ⟨-, q, hq⟩
    simp only [Os.start, Os.spawn] at hq
    split at hq
    · exact (OsProcess.mk.inj (Option.some.inj hq)).2
    · -- a process that was there before has an older identity
      rw [hprocs] at hq
      exact absurd (w.fresh q _ hq) (Nat.lt_irrefl _)
  · intro hconfig
    refine ⟨congrArg (· + 1) hnext, pid, ?_⟩
    simp [Os.start, Os.spawn, hnext, hconfig]

/-- For every table, every record and whatever the machine does; `old` is the record that is registered. -/
theorem add_all_or_nothing_iff :
    AllOrNothing manager machine server old w (runAdd manager machine server w).1 (runAdd manager machine server w).2 ↔
      machine.Available manager server.port ∧
        ((∃ pid, machine.child = some (some pid)) ∧ machine.ReadsConfig manager server w ∨
          machine.child = none ∧ server = old ∧ machine.oldThere (trialBinds manager manager.hosts).length = true) := by
  obtain ⟨signals, hrun⟩ := (@runAdd_eq manager machine server w)
  by_cases hok : machine.Available manager server.port
  · rw [exec_add_server_available hok] at hrun
    rw [and_iff_right hok]
    cases hchild : machine.child with
    | none =>
      rw [hchild] at hrun
      rw [hrun]
      simp only [AllOrNothing, Os.tryConfig_table, Dict.get?_set_self, Option.some.injEq]
      simp
    | some child =>
      cases child with
      | none =>
        rw [hchild] at hrun
        rw [hrun]
        refine (all_or_nothing_ok (by simp)).trans (iff_of_false ?_ (by simp))
        rintro ⟨hnext, -⟩
        simp at hnext
      | some pid =>
        rw [hchild] at hrun
        rw [hrun]
        refine (all_or_nothing_ok (by simp [Os.start, Os.spawn])).trans ?_
        simp only [Option.some.injEq, exists_eq', true_and, reduceCtorEq, false_and, or_false]
        refine (started_start (by simp) (by simp)).trans ?_
        rw [Os.tryConfig_configs]
        rfl
  · obtain ⟨k', hexec⟩ := exec_add_server_unavailable (w := { w with table := w.table.erase server.port, signals }) hok
    rw [hexec] at hrun
    rw [hrun]
    refine iff_of_false (not_all_or_nothing ?_) fun h => hok h.1
    have hgone := Dict.get?_erase w.table server.port server.port
    rw [if_pos rfl] at hgone
    exact fun h => by cases hgone.symm.trans h

end

/-! ### An old child that is slow to exit -/

def oldServer : Server := { Server.zero with port := "8388".toList, password := "x".toList }

def newServer : Server := { oldServer with password := "y".toList }

/-- The old server is registered and its child, process 0, has pid 100. -/
def registered : Os where
  table := Dict.empty.set oldServer.port oldServer
  pids path := if path = workPath plainManager oldServer.port "pid".toList then some (some 100) else none
  configs := fun _ => none
  procs pid := if pid = 100 then some ⟨0, none⟩ else none
  next := 1
  fresh := by
    intro pid q h
    split at h
    · cases h
      decide
    · cases h
  signals := []

/-- The old child still listens when the port is checked; nothing else is wrong. -/
def slowExit : AddHost where
  resolves _ _ _ := true
  foreign _ _ _ := false
  holds _ _ := true
  exitAt := some 1
  writable := true
  child := some (some 101)

/-- The reply is an error, and the old server has been taken out of the table and its child signalled. -/
theorem slow_exit_loses_both : registered.table.get? newServer.port = some oldServer ∧
    (runAdd plainManager slowExit newServer registered).2.1.signals = [0] ∧
    ¬ AllOrNothing plainManager slowExit newServer oldServer registered
      (runAdd plainManager slowExit newServer registered).1 (runAdd plainManager slowExit newServer registered).2 := by
  have hreply : (runAdd plainManager slowExit newServer registered).1 = "port is not available".toList := by
    decide +kernel
  refine ⟨by decide +kernel, by decide +kernel, ?_⟩
  rw [hreply]
  exact not_all_or_nothing (by decide +kernel)

end OutlineServer.Servers
