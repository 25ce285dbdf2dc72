import OutlineServer.Sidecars

/-!
# What the two processes do to the sidecar files

The child writes its files whole (`writes_childCall`): the lock file, and the status file with a line of
`ip_lock_write_status`. Nobody else writes the status file, so in every reachable state it is absent, empty
or such a line (`SidecarInv`), whatever the manager has unlinked meanwhile. The manager writes only the lock
file, through its own descriptor, and unlinks nothing while that is open.
-/

namespace OutlineServer
open Prog Files

/-! ### The child's writes -/

def ChildWrites (port : Port) (p s : Text) : Prop := p = port.lockPath ∨ p = port.statusPath ∧ StatusText s

theorem statusText_of_childWrites {port : Port} (s : Text) (h : ChildWrites port port.statusPath s) :
    StatusText s :=
  (h.resolve_left port.lockPath_ne_statusPath.symm).2

theorem length_takeLine_le (n : Nat) (content : Text) : (takeLine n content).length ≤ n := by
  induction n generalizing content with
  | zero => simp [takeLine]
  | succ n ih =>
    cases content with
    | nil => simp [takeLine]
    | cons c cs =>
      rw [takeLine]
      split
      · simp
      · simpa using ih cs

theorem takeLine_isPrefix (n : Nat) (content : Text) : takeLine n content <+: content := by
  induction n generalizing content with
  | zero => exact List.nil_prefix
  | succ n ih =>
    cases content with
    | nil => exact List.nil_prefix
    | cons c cs =>
      rw [takeLine]
      split
      · exact ⟨cs, rfl⟩
      · exact List.cons_prefix_cons.2 ⟨rfl, ih cs⟩

theorem fgets_spec {n : Nat} {content line : Text} (h : fgets n content = some line) :
    line.length ≤ n - 1 ∧ '\x00' ∉ line ∧ line <+: content := by
  simp only [fgets] at h
  split at h
  · cases h
  · cases h
    refine ⟨?_, ?_, ?_⟩
    · exact ((List.takeWhile_prefix _).length_le).trans (length_takeLine_le _ _)
    · intro hmem
      simpa using List.mem_takeWhile_imp hmem
    · exact (List.takeWhile_prefix _).trans (takeLine_isPrefix _ _)

theorem readLock_spec (content : Text) :
    (readLock content).length < INET6_ADDRSTRLEN ∧ '\x00' ∉ readLock content := by
  rw [readLock]
  cases h : fgets INET6_ADDRSTRLEN content with
  | none => exact ⟨by decide, by simp⟩
  | some line =>
    obtain ⟨hlen, hnul, -⟩ := fgets_spec h
    have hpre := List.rdropWhile_prefix isLockBlank (l := line)
    refine ⟨?_, fun hmem => hnul (hpre.subset hmem)⟩
    have := hpre.length_le
    simp only [INET6_ADDRSTRLEN] at hlen ⊢
    omega

namespace IpLock.Serves
variable {port : Port} {s s' : IpLock}

theorem of_sameLock (h : s.Serves port) (hs : s.SameLock s') : s'.Serves port :=
  ⟨hs.lock_path.trans h.lock_path, hs.status_path.trans h.status_path, hs.locked ▸ h.locked_len,
    hs.locked ▸ h.locked_nul⟩

theorem of_locked (h : s.Serves port) (hc : s.SameConfig s') (hlen : s'.locked_ip.length < INET6_ADDRSTRLEN)
    (hnul : '\x00' ∉ s'.locked_ip) : s'.Serves port :=
  ⟨hc.lock_path.trans h.lock_path, hc.status_path.trans h.status_path, hlen, hnul⟩

theorem open_ (h : s.Serves port) (hc : s.SameConfig s') (hl : s'.locked_ip = []) : s'.Serves port :=
  h.of_locked hc (by rw [hl]; decide) (by rw [hl]; simp)

end IpLock.Serves

section
variable {port : Port}

theorem writes_ip_lock_reload {s : IpLock} (h : s.Serves port) :
    Writes (ChildWrites port) (IpLock.Serves port) none (ip_lock_reload s) := by
  unfold ip_lock_reload
  split
  · exact h
  refine writes_op_bind not_false fun r => ?_
  cases r with
  | none =>
    refine writes_pure (Q := IpLock.Serves port) (h.open_ ?_ rfl) _
    split <;> exact ⟨rfl, rfl, rfl⟩
  | some t =>
    simp only
    split
    · exact h
    refine writes_op_bind not_false fun r => ?_
    cases r with
    | none =>
      refine writes_pure (Q := IpLock.Serves port) ?_ _
      exact h.open_ ⟨rfl, rfl, rfl⟩ rfl
    | some f =>
      refine writes_op_bind not_false fun content => ?_
      obtain ⟨hlen, hnul⟩ := readLock_spec content
      split
      all_goals
        refine writes_pure (Q := IpLock.Serves port) ?_ _
        exact h.of_locked ⟨rfl, rfl, rfl⟩ hlen hnul

theorem writes_ip_lock_set {s : IpLock} (h : s.Serves port) (P : PeerName) :
    Writes (ChildWrites port) (IpLock.Serves port) none (ip_lock_set s P.name) := by
  unfold ip_lock_set
  simp only [P.ne, ↓reduceIte]
  have hs : s.SameConfig (if s.locked_ip ≠ [] ∧ s.locked_ip ≠ P.name then s.ip_lock_reset_recent_lists else s) := by
    split <;> exact ⟨rfl, rfl, rfl⟩
  generalize (if s.locked_ip ≠ [] ∧ s.locked_ip ≠ P.name then s.ip_lock_reset_recent_lists else s) = s₁ at hs ⊢
  have hset : ∀ t, IpLock.Serves port
      { s₁ with locked_ip := strncpyz INET6_ADDRSTRLEN P.name, lock_file_mtime := t } := by
    intro t
    refine h.of_locked ⟨hs.enabled, hs.lock_path, hs.status_path⟩ ?_ ?_
    · rw [P.strncpyz_name]; exact P.len
    · rw [P.strncpyz_name]; exact fun hmem => (P.plain _ hmem).2 rfl
  split
  · exact hset _
  refine writes_openW_bind fun r => ?_
  cases r with
  | none => exact hset _
  | some f =>
    refine writes_fputs_bind (.inl (hs.lock_path.trans h.lock_path)) fun _ => ?_
    refine writes_op_bind not_false fun r => ?_
    cases r <;> exact hset _

theorem writes_ip_lock_record_incoming {s : IpLock} (h : s.Serves port) (ip : Text) :
    Writes (ChildWrites port) (IpLock.Serves port) none (ip_lock_record_incoming s ip) := by
  unfold ip_lock_record_incoming
  split
  · exact h
  · exact writes_op_bind not_false fun _ => h.of_sameLock ⟨rfl, rfl, rfl, rfl, rfl⟩

theorem writes_ip_lock_record_blocked {s : IpLock} (h : s.Serves port) (ip : Text) :
    Writes (ChildWrites port) (IpLock.Serves port) none (ip_lock_record_blocked s ip) := by
  unfold ip_lock_record_blocked
  split
  · exact h
  · exact writes_op_bind not_false fun _ => h.of_sameLock ⟨rfl, rfl, rfl, rfl, rfl⟩

theorem writes_ip_lock_write_status {s : IpLock} (h : s.Serves port) (total : Nat) (ips : List Text) :
    Writes (ChildWrites port) (IpLock.Serves port) none (ip_lock_write_status s total ips) := by
  unfold ip_lock_write_status
  refine writes_op_bind not_false fun now => ?_
  split
  · exact h
  refine writes_openW_bind fun r => ?_
  have hs : IpLock.Serves port { s with
      recent_incoming := ip_lock_prune_recent s.recent_incoming now
      blocked_ips := ip_lock_prune_recent s.blocked_ips now } :=
    h.of_sameLock ⟨rfl, rfl, rfl, rfl, rfl⟩
  cases r with
  | none => exact hs
  | some f =>
    refine writes_fputs_bind (.inr ⟨h.status_path, s.locked_ip, h.locked_len, h.locked_nul, ?_⟩) fun _ => hs
    exact ⟨_, _, _, _, rfl⟩

/-! ### The callbacks of `server.c` -/

theorem writes_update_ip_lock_status {s : SsServer} (h : s.ip_lock.Serves port) :
    Writes (ChildWrites port) (fun s : SsServer => s.ip_lock.Serves port) none (update_ip_lock_status s) :=
  (writes_ip_lock_write_status h _ _).bind fun _ h => h

theorem writes_check_ip_lock_allowed {s : SsServer} (h : s.ip_lock.Serves port) (P : PeerName) :
    Writes (ChildWrites port) (fun r : Bool × SsServer => r.2.ip_lock.Serves port) none
      (check_ip_lock_allowed s P.name) := by
  unfold check_ip_lock_allowed
  split
  · exact h
  simp only [P.ne, ↓reduceIte]
  refine (writes_ip_lock_reload h).bind fun L hL => ?_
  have hset : Writes (ChildWrites port) (fun r : Bool × SsServer => r.2.ip_lock.Serves port) none
      (ip_lock_set L P.name >>= fun ip_lock => pure (true, { s with ip_lock })) :=
    (writes_ip_lock_set hL P).bind fun _ h => h
  unfold decideLock
  simp only
  split
  · exact hset
  split
  · exact hL
  split
  · exact hL
  · exact hset

theorem writes_acceptServer {s : SsServer} (h : s.ip_lock.Serves port) (peer : Option Text) :
    Writes (ChildWrites port) (fun r : AcceptResult × SsServer => r.2.ip_lock.Serves port) none
      (acceptServer s peer) := by
  unfold acceptServer
  refine Writes.bind (R := fun s : SsServer => s.ip_lock.Serves port) ?_ fun s hs => ?_
  · exact writes_update_ip_lock_status h
  · exact hs

theorem writes_accept_cb {s : SsServer} (h : s.ip_lock.Serves port) (P : PeerName) (d : Bool) :
    Writes (ChildWrites port) (fun r : AcceptResult × SsServer => r.2.ip_lock.Serves port) none
      (accept_cb s (some P.name) d) := by
  unfold accept_cb
  simp only
  split
  · exact h
  refine (writes_check_ip_lock_allowed h P).bind fun r hr => ?_
  obtain ⟨ok, s₁⟩ := r
  simp only
  split
  · split
    · refine (writes_ip_lock_record_blocked hr _).bind fun L hL => ?_
      refine Writes.bind (R := fun s : SsServer => s.ip_lock.Serves port) ?_ fun s hs => ?_
      · exact writes_update_ip_lock_status hL
      · exact hs
    · exact hr
  · split
    · exact (writes_ip_lock_record_incoming hr _).bind fun L hL => writes_acceptServer hL _
    · exact writes_acceptServer hr _

theorem writes_close_and_free_server {s : SsServer} (h : s.ip_lock.Serves port) (i : Nat) :
    Writes (ChildWrites port) (fun s : SsServer => s.ip_lock.Serves port) none (close_and_free_server s i) :=
  writes_update_ip_lock_status h

theorem writes_stat_update_cb {s : SsServer} (h : s.ip_lock.Serves port) :
    Writes (ChildWrites port) (fun s : SsServer => s.ip_lock.Serves port) none (stat_update_cb s) := by
  unfold stat_update_cb
  split
  · exact writes_update_ip_lock_status h
  · exact h

theorem writes_freeConnections (n : Nat) {s : SsServer} (h : s.ip_lock.Serves port) :
    Writes (ChildWrites port) (fun s : SsServer => s.ip_lock.Serves port) none (freeConnections n s) := by
  induction n generalizing s with
  | zero => exact h
  | succ n ih => exact (writes_close_and_free_server h 0).bind fun _ h => ih h

theorem writes_serverCall {s : SsServer} (h : s.ip_lock.Serves port) (c : ServerCall) :
    Writes (ChildWrites port) (fun r : Option AcceptResult × SsServer => r.2.ip_lock.Serves port) none
      (c.body s) := by
  cases c with
  | accept P d => exact (writes_accept_cb h P d).bind fun _ h => h
  | close i => exact (writes_close_and_free_server h i).bind fun _ h => h
  | stat_update => exact (writes_stat_update_cb h).bind fun _ h => h

theorem writes_childCall {s : Child} (h : s.server.ip_lock.Serves port) (c : ChildCall) :
    Writes (ChildWrites port) (fun r : Option AcceptResult × Child => r.2.server.ip_lock.Serves port) none
      (c.body s) := by
  cases c with
  | serve c => exact (writes_serverCall h c).bind fun _ h => h
  | shutdown => exact (writes_freeConnections _ h).bind fun _ h => h

end

/-! ### The manager's writes -/

/-- Operations of a program that opens no file for writing. -/
def NoOpen (o : FileOp Text) : Prop := ¬ o.Writes ∨ ∃ q, o = .unlink q

theorem ownWrites_of_within {α : Type} {path : Text} {Q : α → Prop} {p : FsProg α} (h : p.Within NoOpen Q)
    (cur : Option Nat) : OwnWrites path cur p := by
  induction p generalizing cur with
  | ret a => trivial
  | call o k ih =>
    cases o with
    | write i s =>
      rcases h.1 with ho | ⟨q, ho⟩
      · exact absurd trivial ho
      · cases ho
    | openW p =>
      rcases h.1 with ho | ⟨q, ho⟩
      · exact absurd trivial ho
      · cases ho
    | unlink p => exact fun r => ih r (h.2 r) none
    | _ => exact fun r => ih r (h.2 r) cur

theorem OwnWrites.map {α β : Type} {path : Text} {cur : Option Nat} {p : FsProg α} (h : OwnWrites path cur p)
    (g : α → β) : OwnWrites path cur (p >>= fun a => pure (g a)) := by
  induction p generalizing cur with
  | ret a => trivial
  | call o k ih =>
    cases o with
    | write i s => exact ⟨h.1, fun r => ih r (h.2 r)⟩
    | openW p => exact ⟨h.1, fun r => ih r (h.2 r)⟩
    | _ => exact fun r => ih r (h r)

theorem within_read_port_status {P : FileOp Text → Prop} (hP : ∀ o, ¬ o.Writes → P o) (port : Text) (n : Nat) :
    (read_port_status port n).Within P fun _ => True := by
  unfold read_port_status readLockLine
  refine Within.bind (R := fun _ => True) ?_ fun L _ => within_op_bind (hP _ not_false) fun r => ?_
  · refine within_op_bind (hP _ not_false) fun r => ?_
    cases r with
    | none => trivial
    | some f => exact within_op_bind (hP _ not_false) fun _ => trivial
  · cases r with
    | none => trivial
    | some f =>
      refine within_op_bind (hP _ not_false) fun content => ?_
      simp only
      split <;> trivial

theorem within_ip_status {P : FileOp Text → Prop} (hP : ∀ o, ¬ o.Writes → P o) (working_dir port : Text)
    (sigterm : Bool) : (SidecarCmd.ip_status.body working_dir port sigterm).Within P fun _ => True :=
  (within_read_port_status hP _ _).bind fun _ _ => trivial

theorem within_remove_server (working_dir port : Text) :
    (remove_server working_dir port).Within NoOpen fun _ => True := by
  unfold remove_server stop_server
  refine within_op_bind (.inr ⟨_, rfl⟩) fun _ => within_op_bind (.inr ⟨_, rfl⟩) fun _ => ?_
  refine within_op_bind (.inl not_false) fun r => ?_
  cases r with
  | none => trivial
  | some f => exact within_op_bind (.inl not_false) fun _ => trivial

theorem ownWrites_sidecarCmd (working_dir : Text) (port : Port) (c : SidecarCmd) (sigterm : Bool) :
    OwnWrites port.lockPath none (c.body working_dir port.text sigterm) := by
  cases c with
  | lock c => exact (ownWrites_body port c).map _
  | ip_status => exact ownWrites_of_within (within_ip_status (fun _ => .inl) _ _ _) none
  | remove =>
    refine ownWrites_of_within (Q := fun _ => True) ?_ none
    exact (within_remove_server _ _).bind fun _ _ => trivial

/-! ### All interleavings -/

/-- The status file is empty or a line of the child; what is left of a callback keeps it so; the manager's
descriptor is on the lock file, and for `ip_status` it only reads. -/
structure SidecarInv (port : Port) (x : Sidecars) : Prop where
  status : x.world.Holds port.statusPath fun c => c = [] ∨ StatusText c
  idle : ∀ s, x.left = .idle s → s.server.ip_lock.Serves port
  busy : ∀ c s p, x.left = .busy c s p → Writing (ChildWrites port)
    (fun r : Option AcceptResult × Child => r.2.server.ip_lock.Serves port) port.statusPath x.world p
  manager : ∀ c b p, x.right = .busy c b p →
    ∃ cur, OwnWrites port.lockPath cur p ∧ ∀ i, cur = some i → x.world.dir port.lockPath = some i
  reading : ∀ b p, x.right = .busy .ip_status b p → p.Within (fun o => ¬ o.Writes) fun _ => True

section
variable {working_dir : Text} {port : Port} {allow : Files Text → FileOp Text → Bool → Prop}
  {l l' : Proc (FileOp Text) FileOp.Res ChildCall Child (Option AcceptResult)}
  {y y' : Proc (FileOp Text) FileOp.Res SidecarCmd Bool Text} {fs fs' : Files Text}

/-- What an operation of the manager leaves of the status file. -/
theorem status_of_manager {α : Type} {cur : Option Nat} {o : FileOp Text} {k : o.Res → FsProg α} {r : o.Res}
    (h : OwnWrites port.lockPath cur (.call o k)) (hcur : ∀ i, cur = some i → fs.dir port.lockPath = some i)
    (hs : Files.Step allow fs o r fs') :
    fs'.file port.statusPath = fs.file port.statusPath ∨ fs'.file port.statusPath = none := by
  cases o with
  | openW p =>
    rcases step_openW hs with ⟨-, hage, -⟩ | ⟨i, -, -, -, hne⟩
    · exact .inl (hage.file_eq _)
    · exact .inl (hne _ (h.1 ▸ port.lockPath_ne_statusPath.symm))
  | write i s => exact .inl ((openOn_of_dir (hcur i h.1)).file_ne hs port.lockPath_ne_statusPath.symm)
  | unlink p =>
    rw [step_file_unlink hs]
    split
    · exact .inr rfl
    · exact .inl rfl
  | _ => exact .inl ((step_of_not_writes (by simp [FileOp.Writes]) hs).file_eq _)

theorem SidecarInv.left_step {e : ProcEvent (FileOp Text) ChildCall} (h : SidecarInv port ⟨l, y, fs⟩)
    (hs : Proc.Step (Files.Step allow) ChildCall.body l fs e l' fs') : SidecarInv port ⟨l', y, fs'⟩ := by
  cases hs with
  | start c s =>
    refine ⟨h.status, fun _ h => (by cases h), fun c' s' p hp => ?_, h.manager, h.reading⟩
    cases hp
    exact .start (writes_childCall (h.idle s rfl) c)
  | @op c s o k _ _ r hop =>
    obtain ⟨hw, hstatus⟩ := (h.busy _ _ _ rfl).step hop statusText_of_childWrites h.status
    refine ⟨hstatus, fun _ h => (by cases h), fun c' s' p hp => ?_, fun c b p hp => ?_, h.reading⟩
    · cases hp
      exact hw
    · -- the child unlinks nothing
      obtain ⟨cur, hown, hcur⟩ := h.manager c b p hp
      refine ⟨cur, hown, fun i hi => step_dir ?_ (hcur i hi) hop⟩
      rintro rfl
      obtain ⟨cur, hw, -⟩ := h.busy _ _ _ rfl
      exact hw
  | finish c s r s' =>
    obtain ⟨cur, hw, -⟩ := h.busy _ _ _ rfl
    refine ⟨h.status, fun s hs => ?_, fun _ _ _ h => (by cases h), h.manager, h.reading⟩
    cases hs
    exact hw

theorem SidecarInv.right_step {e : ProcEvent (FileOp Text) SidecarCmd} (h : SidecarInv port ⟨l, y, fs⟩)
    (hs : Proc.Step (Files.Step allow) (SidecarCmd.body working_dir port.text) y fs e y' fs') :
    SidecarInv port ⟨l, y', fs'⟩ := by
  cases hs with
  | start c b =>
    refine ⟨h.status, h.idle, h.busy, fun c' b' p hp => ?_, fun b' p hp => ?_⟩
    · cases hp
      exact ⟨none, ownWrites_sidecarCmd working_dir port c b, fun i hi => by cases hi⟩
    · cases hp
      exact within_ip_status (fun _ => id) _ _ _
  | op hop =>
    obtain ⟨cur, hown, hcur⟩ := h.manager _ _ _ rfl
    have hq := status_of_manager hown hcur hop
    refine ⟨fun f hf => ?_, h.idle, fun c s p hp => ?_, fun c' b' p hp => ?_, fun b' p hp => ?_⟩
    · rcases hq with hq | hq
      · exact h.status f (hq ▸ hf)
      · rw [hq] at hf
        cases hf
    · exact (h.busy c s p hp).other hop hq
    · cases hp
      exact hown.op hcur hop
    · cases hp
      exact (h.reading _ _ rfl).2 _
  | finish => exact ⟨h.status, h.idle, h.busy, fun _ _ _ h => (by cases h), fun _ _ h => by cases h⟩

theorem SidecarInv.of_reach {x : Sidecars} (h : (sidecarSystem working_dir port allow).Reach x) :
    SidecarInv port x := by
  induction h with
  | init h =>
    obtain ⟨s, b, hl, hr, -, -, hserves, hstatus⟩ := h
    refine ⟨hstatus, fun s' hs => ?_, fun _ _ _ hp => ?_, fun _ _ _ hp => ?_, fun _ _ hp => ?_⟩
    · rw [hl] at hs
      cases hs
      exact hserves
    · rw [hl] at hp
      cases hp
    · rw [hr] at hp
      cases hp
    · rw [hr] at hp
      cases hp
  | step _ hs ih =>
    obtain ⟨-, hs⟩ := hs
    cases hs with
    | left hs => exact ih.left_step hs
    | right hs => exact ih.right_step hs

/-! ### Single calls -/

theorem sidecar_left {e : ProcEvent (FileOp Text) ChildCall} (he : ∀ c, e ≠ .start c)
    (h : Proc.Step (Files.Step allow) ChildCall.body l fs e l' fs') :
    (sidecarSystem working_dir port allow).step ⟨l, y, fs⟩ (.inl e) ⟨l', y, fs'⟩ := by
  refine ⟨?_, .left h⟩
  cases e with
  | start c => exact absurd rfl (he c)
  | _ => trivial

theorem sidecar_start {s : Child} {c : ChildCall} (hs : s.exited = false) (hc : c = .shutdown → y.last = true) :
    (sidecarSystem working_dir port allow).step ⟨.idle s, y, fs⟩ (.inl (.start c)) ⟨.busy c s (c.body s), y, fs⟩ :=
  ⟨⟨hs, hc⟩, .left (.start c s fs)⟩

theorem sidecar_right {e : ProcEvent (FileOp Text) SidecarCmd}
    (h : Proc.Step (Files.Step allow) (SidecarCmd.body working_dir port.text) y fs e y' fs') :
    (sidecarSystem working_dir port allow).step ⟨l, y, fs⟩ (.inr e) ⟨l, y', fs'⟩ :=
  ⟨trivial, .right h⟩

/-- The child serves a call alone. -/
theorem reach_childCall {s : Child} {b : Option AcceptResult × Child} {c : ChildCall}
    (h : (sidecarSystem working_dir port allow).Reach ⟨.idle s, y, fs⟩) (hs : s.exited = false)
    (hc : c = .shutdown → y.last = true) (hr : Runs (Files.Step allow) (c.body s) fs b fs') :
    (sidecarSystem working_dir port allow).Reach ⟨.idle b.2, y, fs'⟩ := by
  obtain ⟨es, hrun, hes⟩ := Duo.run_left_rest hr
  refine (hrun.guarded fun e he x => ?_).reach (h.step (sidecar_start hs hc))
  rcases hes e he with rfl | ⟨o, rfl⟩ <;> trivial

/-- The manager serves a command alone. -/
theorem reach_sidecarCmd {b : Bool} {r : Text × Bool} {c : SidecarCmd}
    (h : (sidecarSystem working_dir port allow).Reach ⟨l, .idle b, fs⟩)
    (hr : Runs (Files.Step allow) (c.body working_dir port.text b) fs r fs') :
    (sidecarSystem working_dir port allow).Reach ⟨l, .idle r.2, fs'⟩ := by
  obtain ⟨es, hrun, hes⟩ := Duo.run_right_rest (within_top _) hr
  refine (hrun.guarded fun e he x => ?_).reach (h.step (sidecar_right (.start c b fs)))
  rcases hes e he with rfl | ⟨o, -, rfl⟩ <;> trivial

end

/-- A child for `port8388` that has not served anything. -/
def freshChild : Child := ⟨(Served.start port8388 (Files.empty 1)).server, false⟩

theorem init_freshChild (working_dir : Text) (fs : Files Text) (h : fs.file port8388.statusPath = none) :
    (sidecarSystem working_dir port8388 AllSucceed).init ⟨.idle freshChild, .idle false, fs⟩ := by
  have hserves : freshChild.server.ip_lock.Serves port8388 := ⟨by decide, by decide, by decide, by decide⟩
  refine ⟨_, _, rfl, rfl, rfl, rfl, hserves, fun f hf => ?_⟩
  rw [h] at hf
  cases hf

theorem reach_freshChild (working_dir : Text) (fs : Files Text) (h : fs.file port8388.statusPath = none) :
    (sidecarSystem working_dir port8388 AllSucceed).Reach ⟨.idle freshChild, .idle false, fs⟩ :=
  .init (init_freshChild working_dir fs h)

end OutlineServer
