import OutlineServer.Lib.Trans
import OutlineServer.ServerNames

/-!
# Kill safety

`servers` runs the manager's commands among exits of processes and new processes that take free pids, and logs
which child each `add` has started and which process `stop_server` has signalled. The pid file of a port stays
when its child is stopped, so a signal is due exactly as long as each stop comes after a start (`kill_safe`).
-/

namespace OutlineServer.Servers
open Prog Decimal

/-- `port` is the number. -/
inductive ServerLog
  /-- an `add` has started this child, or none -/
  | added (port : Int) (child : Option Nat)
  /-- `stop_server` has signalled this process -/
  | signalled (port : Int) (target : Nat)
deriving DecidableEq

/-- The child of the most recent `add` of the port; the last entry of a log comes first. -/
def lastAdded (port : Int) : List ServerLog → Option (Option Nat)
  | [] => none
  | .added p child :: log => if p = port then some child else lastAdded port log
  | .signalled _ _ :: log => lastAdded port log

/-- Every signal has gone to the child that the most recent `add` of the port had started, and that had not
been signalled before. -/
def KillSafe : List ServerLog → Prop
  | [] => True
  | .added _ _ :: log => KillSafe log
  | .signalled port target :: log =>
    lastAdded port log = some (some target) ∧ (∀ p, .signalled p target ∉ log) ∧ KillSafe log

structure KillState where
  os : Os
  log : List ServerLog

/-- The processes that have been signalled from `w` to `w'`. -/
def newSignals (w w' : Os) : List Nat := w'.signals.take (w'.signals.length - w.signals.length)

/-- The child that has been started from `w` to `w'`. -/
def newChild (w w' : Os) : Option Nat := if w'.next = w.next then none else some w.next

inductive ServerEvent
  /-- a server of the manager's own config -/
  | boot (server : Server)
  | add (server : Server)
  | remove (port : Text)
  /-- the process that has the pid exits -/
  | exit (pid : Int)
  /-- another process takes a pid -/
  | spawn (pid : Int)

inductive KillState.Step (manager : ManagerCtx) : KillState → ServerEvent → KillState → Prop
  | boot {x : KillState} {server : Server} {ret : Int} {w' : Os}
      (h : Runs ServerStep (add_server manager server) x.os ret w') :
      Step manager x (.boot server) ⟨w', .added (atoi server.port) (newChild x.os w') :: x.log⟩
  | add {x : KillState} {server : Server} {reply : Text} {w' : Os}
      (h : Runs ServerStep (manager_add manager server) x.os reply w') :
      Step manager x (.add server)
        ⟨w', .added (atoi server.port) (newChild x.os w') ::
          ((newSignals x.os w').map (.signalled (atoi server.port)) ++ x.log)⟩
  | remove {x : KillState} {port reply : Text} {w' : Os}
      (h : Runs ServerStep (manager_remove manager port) x.os reply w') :
      Step manager x (.remove port) ⟨w', (newSignals x.os w').map (.signalled (atoi port)) ++ x.log⟩
  | exit (x : KillState) (pid : Int) : Step manager x (.exit pid) { x with os := x.os.exit pid }
  | spawn {x : KillState} {pid : Int} (h : x.os.procs pid = none) :
      Step manager x (.spawn pid) { x with os := x.os.spawn pid none }

/-- A manager that starts, with any pid files and processes about. -/
def servers (manager : ManagerCtx) : Lts KillState ServerEvent where
  init x := x.log = []
  step := KillState.Step manager

def pidPath (manager : ManagerCtx) (port : Text) : Text := workPath manager port "pid".toList

/-- The process that a stop through the pid file signals. -/
def Os.target (w : Os) (path : Text) : Option Nat :=
  match w.pids path with
  | some (some pid) => (w.procs pid).map OsProcess.id
  | _ => none

/-- The child of the most recent `add` of the port has not been signalled and is running; or the pid file names
no process. -/
def Timely (manager : ManagerCtx) (x : KillState) (port : Text) : Prop :=
  (Canonical port ∧ ∃ child, lastAdded (atoi port) x.log = some (some child) ∧
      (∀ p, .signalled p child ∉ x.log) ∧ ∃ pid q, x.os.procs pid = some q ∧ q.id = child) ∨
    x.os.target (pidPath manager port) = none

def TimelyStop (manager : ManagerCtx) (x : KillState) : ServerEvent → Prop
  | .add server => Timely manager x server.port
  | .remove port => Timely manager x port
  | _ => True

/-! ### What the commands do to the processes -/

/-- The table, the configs and the signals apart. -/
structure Os.Same (w w' : Os) : Prop where
  pids : w'.pids = w.pids
  procs : w'.procs = w.procs
  next : w'.next = w.next

theorem Os.Same.refl (w : Os) : w.Same w := ⟨rfl, rfl, rfl⟩

/-- Nothing has been started, or a child with its pid file. -/
inductive Spawned (cmd : CommandLine) (w w' : Os) : Prop
  | none (h : w.Same w') (hsignals : w'.signals = w.signals)
  | child (pid : Int) (config : Option Text) (hfree : w.procs pid = Option.none)
      (hpids : w'.pids = fun p => if p = cmd.pid_file then some (some pid) else w.pids p)
      (hprocs : w'.procs = fun p => if p = pid then some ⟨w.next, config⟩ else w.procs p)
      (hnext : w'.next = w.next + 1) (hsignals : w'.signals = w.signals)

section
variable {manager : ManagerCtx} {server : Server} {w w' : Os}

theorem runs_serverOp_bind {o : ServerOp} {α : Type} {f : o.Res → ServerProg α} {a : α} :
    Runs ServerStep (serverOp o >>= f) w a w' ↔ ∃ r w₁, ServerStep w o r w₁ ∧ Runs ServerStep (f r) w₁ a w' := by
  rw [serverOp, runs_bind]
  simp only [runs_op]

/-- A stop signals its target and changes nothing else. -/
theorem runs_stop_server {port : Text} {u : Unit} (h : Runs ServerStep (stop_server manager port) w u w') :
    w.Same w' ∧ w'.signals = (w.target (pidPath manager port)).toList ++ w.signals := by
  unfold stop_server at h
  obtain ⟨r, w₁, hs, h⟩ := runs_serverOp_bind.1 h
  cases hs
  unfold Os.target pidPath
  split at h
  · rename_i pid hpid
    rw [serverOp, runs_op] at h
    cases h
    rw [hpid]
    unfold Os.kill
    cases hq : w.procs pid with
    | none => simp [hq, Os.Same.refl]
    | some q => simpa [hq] using ⟨rfl, rfl, rfl⟩
  · rename_i hpid
    obtain ⟨-, rfl⟩ := runs_ret.1 h
    refine ⟨.refl _, ?_⟩
    split
    · exact absurd ‹_› (hpid _)
    · rfl

theorem runs_remove_server {port : Text} {u : Unit} (h : Runs ServerStep (remove_server manager port) w u w') :
    w.Same w' ∧ w'.signals = (w.target (pidPath manager port)).toList ++ w.signals := by
  unfold remove_server at h
  obtain ⟨r, w₁, hs, h⟩ := runs_serverOp_bind.1 h
  cases hs
  obtain ⟨r, w₁, hs, h⟩ := runs_serverOp_bind.1 h
  cases hs
  obtain ⟨r, w₁, hs, h⟩ := runs_serverOp_bind.1 h
  cases hs
  obtain ⟨⟨hpids, hprocs, hnext⟩, hsignals⟩ := runs_stop_server h
  exact ⟨⟨hpids, hprocs, hnext⟩, hsignals⟩

theorem runs_check_host {host : Text} {b : Bool} (h : Runs ServerStep (check_host manager server host) w b w') :
    w' = w := by
  unfold check_host at h
  obtain ⟨r, w₁, hs, h⟩ := runs_serverOp_bind.1 h
  cases hs
  split at h
  · obtain ⟨r, w₁, hs, h⟩ := runs_serverOp_bind.1 h
    cases hs
    exact (runs_ret.1 h).2
  · exact (runs_ret.1 h).2

theorem runs_check_hosts {hosts : List Text} {b : Bool}
    (h : Runs ServerStep (check_hosts manager server hosts) w b w') : w' = w := by
  induction hosts generalizing b with
  | nil => exact (runs_ret.1 h).2
  | cons host hosts ih =>
    rw [check_hosts] at h
    obtain ⟨b₁, w₁, hc, h⟩ := runs_bind.1 h
    cases runs_check_host hc
    split at h
    · exact ih h
    · exact (runs_ret.1 h).2

theorem runs_build_config {u : Unit} (h : Runs ServerStep (build_config manager server) w u w') :
    w.Same w' ∧ w'.signals = w.signals := by
  unfold build_config at h
  obtain ⟨r, w₁, hs, h⟩ := runs_serverOp_bind.1 h
  obtain ⟨-, rfl⟩ := runs_ret.1 h
  cases hs with
  | write_config => exact ⟨⟨rfl, rfl, rfl⟩, rfl⟩
  | not_opened => exact ⟨.refl _, rfl⟩

theorem runs_add_server {ret : Int} (h : Runs ServerStep (add_server manager server) w ret w') :
    Spawned (construct_command_line manager server) w w' := by
  unfold add_server at h
  obtain ⟨b, w₁, hc, h⟩ := runs_bind.1 h
  cases runs_check_hosts hc
  split at h
  swap
  · obtain ⟨-, rfl⟩ := runs_ret.1 h
    exact .none (.refl _) rfl
  obtain ⟨r, w₁, hs, h⟩ := runs_serverOp_bind.1 h
  cases hs
  obtain ⟨r, w₂, hb, h⟩ := runs_bind.1 h
  obtain ⟨hsame, hsignals⟩ := runs_build_config hb
  have hpids : w₂.pids = w.pids := hsame.pids
  have hprocs : w₂.procs = w.procs := hsame.procs
  have hnext : w₂.next = w.next := hsame.next
  obtain ⟨r, w₃, hs, h⟩ := runs_serverOp_bind.1 h
  have hw : w' = w₃ := by
    split at h
    · exact (runs_ret.1 h).2
    · exact (runs_ret.1 h).2
  subst hw
  cases hs with
  | no_fork => exact .none ⟨hpids, hprocs, hnext⟩ hsignals
  | no_child => exact .none ⟨hpids, hprocs, hnext⟩ hsignals
  | started _ pid hfree =>
    refine .child pid (w₂.configs (construct_command_line manager server).conf_file) ?_ ?_ ?_ ?_ hsignals
    · rw [← hfree, hprocs]
    · simp only [Os.start, Os.spawn, hpids]
    · simp only [Os.start, Os.spawn, hprocs, hnext]
    · simp only [Os.start, Os.spawn, hnext]

end

/-! ### The invariant -/

theorem mem_of_lastAdded {port : Int} {child : Option Nat} {log : List ServerLog}
    (h : lastAdded port log = some child) : .added port child ∈ log := by
  induction log with
  | nil => cases h
  | cons e log ih =>
    cases e with
    | added p c =>
      rw [lastAdded] at h
      split at h
      · rename_i hp
        cases h
        rw [hp]
        exact List.mem_cons_self
      · exact List.mem_cons_of_mem _ (ih h)
    | signalled p t => exact List.mem_cons_of_mem _ (ih h)

theorem pidPath_injective {manager : ManagerCtx} {port port' : Text}
    (h : pidPath manager port = pidPath manager port') : port = port' := by
  unfold pidPath workPath at h
  exact List.append_cancel_left (List.append_cancel_right h)

/-- The pid file of a port has the pid of its last child as long as that runs. -/
structure KillInv (manager : ManagerCtx) (w : Os) (log : List ServerLog) : Prop where
  ids : ∀ port child, .added port (some child) ∈ log → child < w.next
  pids : ∀ port child pid q, lastAdded port log = some (some child) → w.procs pid = some q → q.id = child →
    w.pids (pidPath manager (ofInt port)) = some (some pid)
  safe : KillSafe log

namespace KillInv
variable {manager : ManagerCtx} {w w' : Os} {log : List ServerLog}

theorem same (h : KillInv manager w log) (hsame : w.Same w') : KillInv manager w' log := by
  refine ⟨?_, ?_, h.safe⟩
  · rw [hsame.next]
    exact h.ids
  · rw [hsame.procs, hsame.pids]
    exact h.pids

/-- A signal to the last child of the port. -/
theorem signalled (h : KillInv manager w log) {port : Int} {target : Nat}
    (hlast : lastAdded port log = some (some target))
    (hnew : ∀ p, .signalled p target ∉ log) : KillInv manager w (.signalled port target :: log) := by
  refine ⟨fun p c hc => ?_, h.pids, hlast, hnew, h.safe⟩
  rcases List.mem_cons.1 hc with hc | hc
  · cases hc
  · exact h.ids p c hc

/-- A timely stop. -/
theorem stop (h : KillInv manager w log) {port : Text} (htimely : Timely manager ⟨w, log⟩ port) (hsame : w.Same w')
    (hsignals : w'.signals = (w.target (pidPath manager port)).toList ++ w.signals) :
    KillInv manager w' ((newSignals w w').map (.signalled (atoi port)) ++ log) := by
  have hnew : newSignals w w' = (w.target (pidPath manager port)).toList := by
    rw [newSignals, hsignals, List.length_append, Nat.add_sub_cancel, List.take_left']
    rfl
  rw [hnew]
  cases htarget : w.target (pidPath manager port) with
  | none => exact h.same hsame
  | some target =>
    rcases htimely with ⟨hcanonical, child, hlast, hunsignalled, pid, q, hq, rfl⟩ | hnone
    · -- the pid file has the pid of the last child
      have hq' : w.procs pid = some q := hq
      have hpid := h.pids _ _ _ _ hlast hq' rfl
      rw [hcanonical] at hpid
      have heq : target = q.id := by
        unfold Os.target at htarget
        rw [hpid] at htarget
        simp only [hq', Option.map_some, Option.some.injEq] at htarget
        exact htarget.symm
      subst heq
      exact (h.same hsame).signalled hlast hunsignalled
    · have hnone' : w.target (pidPath manager port) = none := hnone
      rw [hnone'] at htarget
      cases htarget

/-- An `add` that starts no child. -/
theorem added_none (h : KillInv manager w log) (port : Int) : KillInv manager w (.added port none :: log) := by
  refine ⟨fun p c hc => ?_, fun p c pid q hlast => ?_, h.safe⟩
  · rcases List.mem_cons.1 hc with hc | hc
    · cases hc
    · exact h.ids p c hc
  · rw [lastAdded] at hlast
    split at hlast
    · cases hlast
    · exact h.pids p c pid q hlast

theorem spawned (h : KillInv manager w log) {server : Server}
    (hs : Spawned (construct_command_line manager server) w w') :
    KillInv manager w' (.added (atoi server.port) (newChild w w') :: log) := by
  cases hs with
  | none hsame =>
    have hchild : newChild w w' = none := if_pos hsame.next
    rw [hchild]
    exact (h.same hsame).added_none _
  | child pid config hfree hpids hprocs hnext =>
    have hchild : newChild w w' = some w.next := if_neg (by omega)
    rw [hchild]
    refine ⟨fun p c hc => ?_, fun p c pid' q hlast hq hid => ?_, h.safe⟩
    · rw [hnext]
      rcases List.mem_cons.1 hc with hc | hc
      · cases hc
        exact Nat.lt_succ_self _
      · exact Nat.lt_succ_of_lt (h.ids p c hc)
    simp only [hprocs] at hq
    simp only [hpids]
    have hpath : (construct_command_line manager server).pid_file = pidPath manager (ofInt (atoi server.port)) := rfl
    rw [lastAdded] at hlast
    split at hlast
    · -- the new child: only the pid that it has taken is its own
      rename_i hport
      cases hlast
      split at hq
      · rename_i hpid
        rw [if_pos (by rw [hpath, hport]), hpid]
      · exact absurd (hid ▸ w.fresh _ _ hq) (Nat.lt_irrefl _)
    · rename_i hport
      have hold := h.ids p c (mem_of_lastAdded hlast)
      split at hq
      · cases hq
        exact absurd (hid ▸ hold) (Nat.lt_irrefl _)
      · rw [if_neg fun heq => hport (ofInt_injective (pidPath_injective (heq.trans hpath))).symm]
        exact h.pids p c pid' q hlast hq hid

theorem exit (h : KillInv manager w log) (pid : Int) : KillInv manager (w.exit pid) log := by
  refine ⟨h.ids, fun p c pid' q hlast hq hid => ?_, h.safe⟩
  simp only [Os.exit] at hq
  split at hq
  · cases hq
  · exact h.pids p c pid' q hlast hq hid

theorem spawn (h : KillInv manager w log) (pid : Int) : KillInv manager (w.spawn pid none) log := by
  refine ⟨fun p c hc => Nat.lt_succ_of_lt (h.ids p c hc), fun p c pid' q hlast hq hid => ?_, h.safe⟩
  simp only [Os.spawn] at hq
  split at hq
  · cases hq
    exact absurd (hid ▸ h.ids p c (mem_of_lastAdded hlast)) (Nat.lt_irrefl _)
  · exact h.pids p c pid' q hlast hq hid

end KillInv

/-! ### Runs -/

section
variable {manager : ManagerCtx} {x y : KillState} {e : ServerEvent}

theorem killInv_step (h : KillInv manager x.os x.log) (htimely : TimelyStop manager x e)
    (hs : KillState.Step manager x e y) : KillInv manager y.os y.log := by
  cases hs with
  | boot hrun => exact h.spawned (runs_add_server hrun)
  | @add server reply w' hrun =>
    unfold manager_add at hrun
    obtain ⟨u, w₁, hremove, hrun⟩ := runs_bind.1 hrun
    obtain ⟨ret, w₂, hadd, hrun⟩ := runs_bind.1 hrun
    obtain ⟨-, rfl⟩ := runs_ret.1 hrun
    obtain ⟨hsame, hsignals⟩ := runs_remove_server hremove
    have hstop := h.stop htimely hsame hsignals
    have hspawned := runs_add_server hadd
    have hnew : newSignals x.os w' = newSignals x.os w₁ := by
      have : w'.signals = w₁.signals := by
        cases hspawned with
        | none _ h => exact h
        | child _ _ _ _ _ _ h => exact h
      rw [newSignals, this, newSignals]
    have hchild : newChild x.os w' = newChild w₁ w' := by rw [newChild, newChild, hsame.next]
    simp only [hnew, hchild]
    exact hstop.spawned hspawned
  | remove hrun =>
    unfold manager_remove at hrun
    obtain ⟨u, w₁, hremove, hrun⟩ := runs_bind.1 hrun
    obtain ⟨-, rfl⟩ := runs_ret.1 hrun
    obtain ⟨hsame, hsignals⟩ := runs_remove_server hremove
    exact h.stop htimely hsame hsignals
  | exit pid => exact h.exit pid
  | spawn _ => exact h.spawn _

/-- In every run in which every stop is timely every signal goes to the child of the most recent `add`, once. -/
theorem kill_safe (h : ((servers manager).guarded (TimelyStop manager)).Reach x) : KillSafe x.log := by
  have hinit : ∀ x : KillState, ((servers manager).guarded (TimelyStop manager)).init x →
    KillInv manager x.os x.log := by
    intro x hx
    have hlog : x.log = [] := hx
    rw [hlog]
    exact ⟨fun _ _ h => (by cases h), fun _ _ _ _ h => (by cases h), trivial⟩
  have hinv := h.invariant (I := fun x : KillState => KillInv manager x.os x.log) hinit
    fun x e y _ hx hs => killInv_step hx hs.1 hs.2
  exact hinv.safe

end

/-! ### A pid file that stays -/

/-- Every bind and `system` succeeds, and the child gets the pid if it is free. -/
def obliging (pid : Int) : (o : ServerOp) → Os → o.Res × Os
  | .table_delete port, w => ((), { w with table := w.table.erase port })
  | .table_put port server, w => ((), { w with table := w.table.set port server })
  | .unlink _, w => ((), w)
  | .read_pid path, w => (w.pids path, w)
  | .kill pid, w => ((), w.kill pid)
  | .create_and_bind _ _ _, w => (true, w)
  | .write_config path text, w => (true, w.write_config path text)
  | .system cmd, w => (true, if w.procs pid = none then w.start cmd pid else w)

theorem serverStep_obliging (pid : Int) (o : ServerOp) (w : Os) : ServerStep w o (obliging pid o w).1
    (obliging pid o w).2 := by
  cases o with
  | system cmd =>
    simp only [obliging]
    split
    · exact .started w cmd pid ‹_›
    · exact .no_child w cmd
  | _ => constructor

/-- The server of port 8388 is added, its child getting pid 100. -/
def afterAdd (x : KillState) : KillState :=
  let w' := ((manager_add plainManager (serverOf "8388".toList)).exec (obliging 100) x.os).2
  ⟨w', .added 8388 (newChild x.os w') :: ((newSignals x.os w').map (.signalled 8388) ++ x.log)⟩

def afterRemove (x : KillState) : KillState :=
  let w' := ((manager_remove plainManager "8388".toList).exec (obliging 100) x.os).2
  ⟨w', (newSignals x.os w').map (.signalled 8388) ++ x.log⟩

theorem atoi_8388 : atoi "8388".toList = 8388 := by decide +kernel

theorem step_afterAdd (x : KillState) : KillState.Step plainManager x (.add (serverOf "8388".toList)) (afterAdd x) := by
  have hstep := (@KillState.Step.add plainManager x (serverOf "8388".toList))
    (Runs.of_exec (serverStep_obliging 100) _ _)
  have hport : atoi (serverOf "8388".toList).port = 8388 := atoi_8388
  rw [hport] at hstep
  exact hstep

theorem step_afterRemove (x : KillState) : KillState.Step plainManager x (.remove "8388".toList) (afterRemove x) := by
  have hstep := (@KillState.Step.remove plainManager x ("8388".toList))
    (Runs.of_exec (serverStep_obliging 100) _ _)
  rw [atoi_8388] at hstep
  exact hstep

/-- No servers, no processes. -/
def idleServers : KillState :=
  ⟨⟨Dict.empty, fun _ => none, fun _ => none, fun _ => none, 0, fun _ _ h => (by cases h), []⟩, []⟩

theorem kill_safe_added_removed :
    (afterRemove (afterAdd idleServers)).log = [.signalled 8388 0, .added 8388 (some 0)] ∧
      KillSafe (afterRemove (afterAdd idleServers)).log := by
  have hinit : (servers plainManager).init idleServers := rfl
  have hadd : Timely plainManager idleServers "8388".toList := .inr rfl
  have hremove : Timely plainManager (afterAdd idleServers) "8388".toList := by
    refine .inl ⟨by decide +kernel, 0, by decide +kernel, fun p hp => ?_, 100, _, rfl, rfl⟩
    have hlog : (afterAdd idleServers).log = [.added 8388 (some 0)] := by decide +kernel
    rw [hlog] at hp
    cases List.mem_singleton.1 hp
  exact ⟨by decide +kernel, kill_safe (.step (e := .remove "8388".toList) (.step (e := .add (serverOf "8388".toList))
    (.init hinit) ⟨hadd, step_afterAdd _⟩) ⟨hremove, step_afterRemove _⟩)⟩

/-- The child of a removed port has exited and its pid gone to another process; a second `remove` signals that. -/
theorem stale_pid_killed : ∃ x, (servers plainManager).Reach x ∧ ¬ KillSafe x.log := by
  have hinit : (servers plainManager).init idleServers := rfl
  have hremoved : (servers plainManager).Reach (afterRemove (afterAdd idleServers)) :=
    .step (.step (.init hinit) (step_afterAdd _)) (step_afterRemove _)
  have hreused := (hremoved.step (KillState.Step.exit _ 100)).step ((@KillState.Step.spawn _ _ 100) rfl)
  refine ⟨_, hreused.step (step_afterRemove _), ?_⟩
  have hlog : (afterRemove ⟨((afterRemove (afterAdd idleServers)).os.exit 100).spawn 100 none,
      (afterRemove (afterAdd idleServers)).log⟩).log =
        [.signalled 8388 1, .signalled 8388 0, .added 8388 (some 0)] := by decide +kernel
  rw [hlog]
  rintro ⟨hlast, -⟩
  revert hlast
  decide

end OutlineServer.Servers
