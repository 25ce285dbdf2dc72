import OutlineServer.LockCoherence

/-!
# One server and the manager

`sharedSystem` interleaves the callbacks of a server with the manager's `set_ip` and `clear_ip` for its
port, one file operation at a time. The manager's commands override the lock (`set_ip_overrides`), and a
`set_ip` has emptied the file before it writes the address (`set_ip_torn`), so exclusivity holds as long as
the accepts find that the live connections have their lock (`LockKept`). `sole_address` is exclusivity in
every state of such a run.
-/

namespace OutlineServer
open Prog Files

inductive ServerCall
  | accept (P : PeerName) (aclDenies : Bool)
  | close (i : Nat)
  | stat_update

def ServerCall.body (c : ServerCall) (s : SsServer) : FsProg (Option AcceptResult × SsServer) := do
  match c with
  | .accept P d =>
    let r ← accept_cb s (some P.name) d
    return (some r.1, r.2)
  | .close i => return (none, ← close_and_free_server s i)
  | .stat_update => return (none, ← stat_update_cb s)

abbrev Shared := Duo (FileOp Text) FileOp.Res ServerCall SsServer (Option AcceptResult) ManagerCmd Unit Text
  (Files Text)

abbrev SharedEvent := ProcEvent (FileOp Text) ServerCall ⊕ ProcEvent (FileOp Text) ManagerCmd

/-- A server that `startLocked` has left idle, and the manager. -/
def sharedSystem (port : Port) : Lts Shared SharedEvent :=
  Duo.system (Files.Step AllSucceed) ServerCall.body (ManagerCmd.body port.text) fun s _ fs =>
    ∃ fs₀, Runs (Files.Step AllSucceed) (startLocked port.text) fs₀ s fs

def Shared.live (x : Shared) : List ServerConn := x.left.last.connections

/-- What the operations of an accept find while connections of `s` are live: the lock file is there, and a text that the
accept reads in it is the address of one of them. -/
def NamesLive (s : SsServer) (fs : Files Text) : FileOp Text → Prop
  | .stat p | .openR p => (fs.dir p).isSome
  | .read fd => ∃ c ∈ s.connections, readLock (fs.inode fd).content = c.peer_ip
  | _ => True

/-- The accept finds that the live connections have their lock. What the manager does after the accept has read the file
is free, and so is every command that sets the address of a live connection. -/
def LockKept (x : Shared) : SharedEvent → Prop
  | .inl (.op o) => ∀ P d s p, x.left = .busy (.accept P d) s p → s.connections ≠ [] → NamesLive s x.world o
  | _ => True

structure SsServer.Sole (path : Text) (s : SsServer) : Prop extends s.Ready path where
  peers : ∀ c ∈ s.connections, c.peer_ip = s.ip_lock.locked_ip ∧ c.peer_ip ≠ []

section
variable {path : Text} {s s' : SsServer} {P : PeerName} {r : AcceptResult} {fs fs' : Files Text}

theorem SsServer.Ready.of_sameConfig (h : s.Ready path) (hc : s.ip_lock.SameConfig s'.ip_lock) :
    s'.Ready path := by
  refine ⟨⟨hc.enabled.trans h.configured.enabled, ?_, ?_⟩, hc.lock_path.trans h.path_eq⟩
  · rw [hc.lock_path]; exact h.configured.lock_path
  · rw [hc.lock_path, hc.status_path]; exact h.configured.ne

theorem SsServer.Sole.of_sublist (h : s.Sole path) (hl : s.ip_lock.SameLock s'.ip_lock)
    (hc : ∀ c ∈ s'.connections, c ∈ s.connections) : s'.Sole path :=
  { h.toReady.of_sameConfig hl.sameConfig with
    peers := fun c hmem => hl.locked ▸ h.peers c (hc c hmem) }

/-- The outcome of an accept of `P` by a server whose connections come from one address: it is still
one address, and `P` is refused if the address is another. -/
structure Exclusive (path : Text) (s : SsServer) (P : PeerName) (r : AcceptResult) (s' : SsServer) : Prop where
  sole : s'.Sole path
  refuse : (∃ c ∈ s.connections, c.peer_ip ≠ P.name) → r ≠ .admitted

/-- With nobody live an accept is exclusive, whatever the manager does meanwhile. -/
theorem exclusive_of_no_live (h : s.Sole path) (hnil : s.connections = []) (ha : s.Accepted P r s') :
    Exclusive path s P r s' := by
  refine ⟨{ h.toReady.of_sameConfig ha.config with peers := fun c hc => ?_ }, ?_⟩
  · by_cases hr : r = .admitted
    · obtain ⟨hconn, hl⟩ := ha.admitted hr
      rw [hconn, hnil, List.nil_append, List.mem_singleton] at hc
      subst hc
      exact ⟨hl.symm, P.ne⟩
    · rw [ha.refused hr, hnil] at hc
      cases hc
  · rintro ⟨c, hc, -⟩
    rw [hnil] at hc
    cases hc

/-- With somebody live it is exclusive if it has found the lock that it had. -/
theorem exclusive_of_locked (h : s.Sole path) (ha : s.Accepted P r s')
    (hadm : r = .admitted → s.ip_lock.locked_ip = P.name)
    (href : r ≠ .admitted → s'.ip_lock.locked_ip = s.ip_lock.locked_ip) : Exclusive path s P r s' := by
  refine ⟨{ h.toReady.of_sameConfig ha.config with peers := fun c hc => ?_ }, ?_⟩
  · by_cases hr : r = .admitted
    · obtain ⟨hconn, hl⟩ := ha.admitted hr
      rw [hconn, List.mem_append, List.mem_singleton] at hc
      rcases hc with hc | rfl
      · rw [hl, ← hadm hr]
        exact h.peers c hc
      · exact ⟨hl.symm, P.ne⟩
    · rw [ha.refused hr] at hc
      rw [href hr]
      exact h.peers c hc
  · rintro ⟨c, hc, hcP⟩ hr
    exact hcP ((h.peers c hc).1.trans (hadm hr))

/-- The answers of such operations. -/
def LiveAnswers (s : SsServer) : (o : FileOp Text) → o.Res → Prop
  | .stat _, r => r.isSome
  | .openR _, r => r.isSome
  | .read _, r => ∃ c ∈ s.connections, readLock r = c.peer_ip
  | _, _ => True

theorem given_ip_lock_reload (h : s.Sole path) :
    (ip_lock_reload s.ip_lock).Given (LiveAnswers s) fun L => L.locked_ip = s.ip_lock.locked_ip := by
  unfold ip_lock_reload
  split
  · exact given_pure rfl
  refine given_op_bind fun r hr => ?_
  obtain ⟨t, rfl⟩ := Option.isSome_iff_exists.1 hr
  simp only
  split
  · exact given_pure rfl
  refine given_op_bind fun r hr => ?_
  obtain ⟨f, rfl⟩ := Option.isSome_iff_exists.1 hr
  refine given_op_bind fun content hcontent => ?_
  obtain ⟨c, hc, hread⟩ : ∃ c ∈ s.connections, readLock content = c.peer_ip := hcontent
  have hlocked : readLock content = s.ip_lock.locked_ip := by
    rw [hread]
    exact (h.peers c hc).1
  split
  · exact given_pure hlocked
  · exact given_pure hlocked

theorem given_check_ip_lock_allowed (h : s.Sole path) (hne : s.connections ≠ []) (P : PeerName) :
    (check_ip_lock_allowed s P.name).Given (LiveAnswers s) fun r =>
      r.2.ip_lock.locked_ip = s.ip_lock.locked_ip ∧ (r.1 = true → s.ip_lock.locked_ip = P.name) := by
  obtain ⟨c, hc⟩ := List.exists_mem_of_ne_nil _ hne
  obtain ⟨hcl, hcne⟩ := h.peers c hc
  unfold check_ip_lock_allowed
  simp only [h.configured.enabled, Bool.not_true, Bool.false_eq_true, ↓reduceIte, P.ne]
  refine (given_ip_lock_reload h).bind fun L hL => ?_
  have hlocked : L.locked_ip ≠ [] := by
    rw [hL, ← hcl]
    exact hcne
  unfold decideLock
  simp only
  rw [if_neg hlocked]
  split
  · rename_i heq
    exact given_pure ⟨hL, fun _ => hL.symm.trans heq.symm⟩
  -- the holder is live
  have hcount : 0 < count_connections_for_ip s.connections L.locked_ip := by
    rw [count_connections_for_ip, if_neg hlocked]
    exact List.countP_pos_iff.2 ⟨c, hc, decide_eq_true ⟨hcne, hcl.trans hL.symm⟩⟩
  rw [if_pos hcount]
  exact given_pure ⟨hL, fun htrue => Bool.noConfusion htrue⟩

theorem given_accept_cb (h : s.Sole path) (hne : s.connections ≠ []) (P : PeerName) (d : Bool) :
    (accept_cb s (some P.name) d).Given (LiveAnswers s) fun r => Exclusive path s P r.1 r.2 := by
  refine Given.mono (R := fun r => s.Accepted P r.1 r.2 ∧ (r.1 = .admitted → s.ip_lock.locked_ip = P.name) ∧
    (r.1 ≠ .admitted → r.2.ip_lock.locked_ip = s.ip_lock.locked_ip)) ?_ ?_
  swap
  · rintro r ⟨ha, hadm, href⟩
    exact exclusive_of_locked h ha hadm href
  refine (within_accept_cb P d h.configured.enabled).and_given ?_
  unfold accept_cb
  simp only
  split
  · exact given_pure ⟨fun h => AcceptResult.noConfusion h, fun _ => rfl⟩
  refine ((within_check_ip_lock_allowed P h.configured.enabled).and_given (given_check_ip_lock_allowed h hne P)).bind ?_
  rintro ⟨ok, s₁⟩ ⟨⟨hconfig, -, hname⟩, hlocked, hpeer⟩
  have henabled : s₁.ip_lock.ip_lock_enabled = true := hconfig.enabled.trans h.configured.enabled
  cases ok with
  | false =>
    simp only [Bool.not_false, ↓reduceIte, henabled]
    refine ((within_ip_lock_record_blocked _ _).given _).bind fun L hL => ?_
    refine ((within_update_ip_lock_status _).given _).bind fun s₂ hs₂ => given_pure ?_
    exact ⟨fun h => AcceptResult.noConfusion h, fun _ => (hs₂.1.locked.trans hL.locked).trans hlocked⟩
  | true =>
    simp only [Bool.not_true, Bool.false_eq_true, ↓reduceIte, henabled]
    refine ((within_ip_lock_record_incoming _ _).given _).bind fun L _ => ?_
    refine ((within_update_ip_lock_status _).given _).bind fun s₂ _ => given_pure ?_
    exact ⟨fun _ => hpeer rfl, fun hne => absurd rfl hne⟩

end

/-! ### All interleavings -/

def ServerCall.Outcome (path : Text) (s : SsServer) : ServerCall → Option AcceptResult × SsServer → Prop
  | .accept P _, r => ∃ a, r.1 = some a ∧ Exclusive path s P a r.2
  | _, r => r.2.Sole path

theorem ServerCall.Outcome.sole {path : Text} {s : SsServer} {c : ServerCall} {r : Option AcceptResult × SsServer}
    (h : c.Outcome path s r) : r.2.Sole path := by
  cases c with
  | accept P d => obtain ⟨a, -, he⟩ := h; exact he.sole
  | _ => exact h

def ServerCall.Answers (s : SsServer) (c : ServerCall) (o : FileOp Text) (r : o.Res) : Prop :=
  ∀ P d, c = .accept P d → s.connections ≠ [] → LiveAnswers s o r

/-- The server is exclusive now, and the callback in progress brings it about again whatever the manager does, if the
operations of an accept with somebody live find the lock. -/
def SharedInv (path : Text) (x : Shared) : Prop :=
  match x.left with
  | .idle s => s.Sole path
  | .busy c s p => s.Sole path ∧ p.Given (c.Answers s) (c.Outcome path s)

section
variable {port : Port} {x x' : Shared} {e : SharedEvent}

theorem SharedInv.start {path : Text} {s : SsServer} (h : s.Sole path) (c : ServerCall) :
    (c.body s).Given (c.Answers s) (c.Outcome path s) := by
  cases c with
  | accept P d =>
    by_cases hnil : s.connections = []
    · refine Prog.Within.given (P := NoUnlink) ?_ _
      exact (within_accept_cb P d h.configured.enabled).bind fun r hr =>
        within_pure ⟨r.1, rfl, exclusive_of_no_live h hnil hr⟩
    · have hacc : (accept_cb s (some P.name) d).Given (ServerCall.Answers s (.accept P d))
          fun r => Exclusive path s P r.1 r.2 :=
        (given_accept_cb h hnil P d).of_answers fun o r hr => hr P d rfl hnil
      exact hacc.bind fun r hr => given_pure ⟨r.1, rfl, hr⟩
  | close i =>
    refine Prog.Within.given (P := NoUnlink) ?_ _
    refine (within_close_and_free_server s i).bind fun s' hs' => within_pure ?_
    exact h.of_sublist hs'.1 fun c hc => List.mem_of_mem_eraseIdx (hs'.2 ▸ hc)
  | stat_update =>
    refine Prog.Within.given (P := NoUnlink) ?_ _
    refine (within_stat_update_cb s).bind fun s' hs' => within_pure ?_
    exact h.of_sublist hs'.1 fun c hc => hs'.2 ▸ hc

/-- What an operation answers is what it finds. -/
theorem liveAnswers_of_step {s : SsServer} {fs fs' : Files Text} {o : FileOp Text} {r : o.Res} (hk : NamesLive s fs o)
    (hs : Files.Step AllSucceed fs o r fs') : LiveAnswers s o r := by
  cases o with
  | stat p =>
    obtain ⟨-, rfl⟩ := step_stat hs
    rw [LiveAnswers, file, Option.isSome_map, Option.isSome_map]
    exact hk
  | openR p =>
    obtain ⟨-, rfl⟩ := step_openR hs
    exact hk
  | read fd =>
    obtain ⟨-, rfl⟩ := step_read hs
    exact hk
  | _ => trivial

theorem SharedInv.step (h : SharedInv port.lockPath x) (hk : LockKept x e)
    (hs : (sharedSystem port).step x e x') : SharedInv port.lockPath x' := by
  cases hs with
  | left hs =>
    cases hs with
    | start c s => exact ⟨h, SharedInv.start h c⟩
    | op hop =>
      obtain ⟨hsole, hgiven⟩ := h
      refine ⟨hsole, hgiven _ ?_⟩
      rintro P d rfl hne
      exact liveAnswers_of_step (hk P d _ _ rfl hne) hop
    | finish => exact ServerCall.Outcome.sole h.2
  | right => exact h

theorem SharedInv.of_reach (h : ((sharedSystem port).guarded LockKept).Reach x) : SharedInv port.lockPath x := by
  induction h with
  | init h =>
    obtain ⟨s, u, hl, -, fs₀, hr⟩ := h
    obtain ⟨hrdy, hv⟩ := startLocked_view hr
    have hnil : s.connections = [] := by
      have : s.connections.map (·.peer_ip) = [] := by
        rw [show s.connections.map (·.peer_ip) = (s.view _).peers from rfl, hv]
        simp [LockView.boot]
      exact List.map_eq_nil_iff.1 this
    unfold SharedInv
    rw [hl]
    exact { hrdy with peers := by simp [hnil] }
  | step _ hs ih => exact ih.step hs.1 hs.2

/-- In every run in which the accepts find that the live connections have their lock, an accept from `P` is refused
while a connection from another address is live, and the live connections have one address. -/
theorem sole_address (h : ((sharedSystem port).guarded LockKept).Reach x) :
    (∀ c ∈ x.live, ∀ c' ∈ x.live, c.peer_ip = c'.peer_ip) ∧
    ∀ P d s r s', x.left = .busy (.accept P d) s (.ret (some r, s')) →
      (∃ c ∈ s.connections, c.peer_ip ≠ P.name) → r ≠ .admitted := by
  have hinv := SharedInv.of_reach h
  unfold SharedInv at hinv
  refine ⟨fun c hc c' hc' => ?_, fun P d s r s' hl hne => ?_⟩
  · unfold Shared.live at hc hc'
    cases hl : x.left with
    | idle s =>
      rw [hl] at hinv hc hc'
      exact (hinv.peers c hc).1.trans (hinv.peers c' hc').1.symm
    | busy _ s p =>
      rw [hl] at hinv hc hc'
      exact (hinv.1.peers c hc).1.trans (hinv.1.peers c' hc').1.symm
  · rw [hl] at hinv
    obtain ⟨-, a, ha, he⟩ := hinv
    cases ha
    exact he.refuse hne

end

/-! ### Two peers and the manager -/

def Served.shared (x : Served) : Shared := ⟨.idle x.server, .idle (), x.files⟩

theorem succeeds (fs : Files Text) (o : FileOp Text) : AllSucceed fs o true := rfl

theorem start_accept (port : Port) (x : Served) (P : PeerName) :
    (sharedSystem port).step x.shared (.inl (.start (.accept P false)))
      ⟨.busy (.accept P false) x.server ((ServerCall.accept P false).body x.server), .idle (), x.files⟩ :=
  .left (.start _ _ _)

theorem run_accept (port : Port) (x : Served) (P : PeerName) :
    ∃ es, (sharedSystem port).Run
        ⟨.busy (.accept P false) x.server ((ServerCall.accept P false).body x.server), .idle (), x.files⟩ es
        (x.accept (fun _ => true) P false).2.shared ∧
      ∀ e ∈ es, e = .inl .finish ∨ ∃ o, e = .inl (.op o) :=
  Duo.run_left_rest (b := (some (x.accept (fun _ => true) P false).1, (x.accept (fun _ => true) P false).2.server))
    (runs_bind.2 ⟨_, _, Runs.of_exec (fun o fs => step_exec (fun _ => true) succeeds o fs) _ _, .ret _ _⟩)

theorem init_shared (port : Port) (fs : Files Text) : (sharedSystem port).init (Served.start port fs).shared :=
  ⟨_, _, rfl, rfl, fs, Runs.of_exec (fun o fs => step_exec (fun _ => true) succeeds o fs) _ _⟩

/-! ### A run that keeps the lock -/

instance (s : SsServer) (fs : Files Text) : (o : FileOp Text) → Decidable (NamesLive s fs o)
  | .stat p | .openR p => inferInstanceAs (Decidable ((fs.dir p).isSome = true))
  | .read fd => inferInstanceAs (Decidable (∃ c ∈ s.connections, readLock (fs.inode fd).content = c.peer_ip))
  | .openW _ | .write _ _ | .unlink _ | .mkdir _ | .time => .isTrue trivial

/-- Every operation of the program, run alone, finds what `NamesLive` asks for. -/
def findsLive (s : SsServer) {α : Type} : FsProg α → Files Text → Bool
  | .ret _, _ => true
  | .call o k, fs => decide (NamesLive s fs o) && findsLive s (k (fs.exec true o).1) (fs.exec true o).2

theorem reach_rest {port : Port} {c : ServerCall} {s : SsServer}
    {y : Proc (FileOp Text) FileOp.Res ManagerCmd Unit Text}
    (p : FsProg (Option AcceptResult × SsServer)) (fs : Files Text)
    (h : ((sharedSystem port).guarded LockKept).Reach ⟨.busy c s p, y, fs⟩)
    (hk : s.connections ≠ [] → findsLive s p fs = true) :
    ((sharedSystem port).guarded LockKept).Reach
      ⟨.busy c s (.ret (p.exec (fun o fs => fs.exec true o) fs).1), y, (p.exec (fun o fs => fs.exec true o) fs).2⟩ := by
  induction p generalizing fs with
  | ret r => exact h
  | call o k ih =>
    refine ih _ _ (h.step (e := .inl (.op o)) ⟨?_, .left (.op (step_exec (fun _ => true) succeeds o fs))⟩)
      fun hne => (Bool.and_eq_true_iff.1 (hk hne)).2
    rintro P d _ _ heq hne
    cases heq
    exact of_decide_eq_true (Bool.and_eq_true_iff.1 (hk hne)).1

theorem reach_command {port : Port} {x : Proc (FileOp Text) FileOp.Res ServerCall SsServer (Option AcceptResult)}
    {fs fs' : Files Text} {r : Text} (h : ((sharedSystem port).guarded LockKept).Reach ⟨x, .idle (), fs⟩)
    (c : ManagerCmd) (hr : Runs (Files.Step AllSucceed) (c.body port.text ()) fs (r, ()) fs') :
    ((sharedSystem port).guarded LockKept).Reach ⟨x, .idle (), fs'⟩ := by
  obtain ⟨es, hrun, hes⟩ : ∃ es, (sharedSystem port).Run ⟨x, .busy c () (c.body port.text ()), fs⟩ es
      ⟨x, .idle (), fs'⟩ ∧ ∀ e ∈ es, e = .inr .finish ∨ ∃ o, True ∧ e = .inr (.op o) :=
    Duo.run_right_rest (within_top (c.body port.text ())) hr
  refine Lts.Run.reach (h.step (e := .inr (.start c)) ⟨trivial, .right (.start c () fs)⟩)
    (hrun.guarded fun e he z => ?_)
  rcases hes e he with rfl | ⟨o, -, rfl⟩
  · trivial
  · trivial

def setIpAt (port : Port) (ip : Text) (t : Nat) (fs : Files Text) : Files Text :=
  (((ManagerCmd.set_ip ip).body port.text ()).exec (fun o fs => fs.exec true o) (fs.setNow t)).2

theorem runs_setIpAt {port : Port} (hp : port.text ≠ []) (P : PeerName) {t : Nat} {fs : Files Text} (ht : fs.now ≤ t) :
    Runs (Files.Step AllSucceed) ((ManagerCmd.set_ip P.name).body port.text ()) fs
      (((ManagerCmd.set_ip P.name).body port.text ()).exec (fun o fs => fs.exec true o) (fs.setNow t)).1
      (setIpAt port P.name t fs) := by
  have hr := Runs.of_exec (fun o fs => step_exec (fun _ => true) succeeds o fs)
    ((ManagerCmd.set_ip P.name).body port.text ()) (fs.setNow t)
  rw [setIpAt]
  generalize ((ManagerCmd.set_ip P.name).body port.text ()).exec (fun o fs => fs.exec true o) (fs.setNow t) = r at hr ⊢
  rw [set_ip_body hp P.ne] at hr ⊢
  exact runs_of_later ht hr

/-- `peerA` is live and the manager sets its address a second later; `peerB` is refused, though the manager clears the
lock before the accept returns. -/
theorem sole_address_servingA : ∃ (x : Shared) (s s' : SsServer),
    x.left = .busy (.accept peerB false) s (.ret (some .blocked, s')) ∧ s.connections = [⟨peerA.name⟩] ∧
      x.world.file port8388.lockPath = none ∧ (∀ c ∈ x.live, ∀ c' ∈ x.live, c.peer_ip = c'.peer_ip) ∧
      ∀ P d s r s', x.left = .busy (.accept P d) s (.ret (some r, s')) →
        (∃ c ∈ s.connections, c.peer_ip ≠ P.name) → r ≠ .admitted := by
  have h₀ : ((sharedSystem port8388).guarded LockKept).Reach (Served.start port8388 (Files.empty 1)).shared :=
    .init (init_shared port8388 _)
  have h₁ := reach_rest _ _ (h₀.step (e := .inl (.start (.accept peerA false))) ⟨trivial, start_accept _ _ peerA⟩)
    fun hne => absurd (by decide) hne
  have h₂ : ((sharedSystem port8388).guarded LockKept).Reach (servingA fun _ => true).shared :=
    h₁.step (e := .inl .finish) ⟨trivial, .left (.finish _ _ _ _ _)⟩
  have h₃ : ((sharedSystem port8388).guarded LockKept).Reach
      ⟨_, .idle (), setIpAt port8388 peerA.name 2 (servingA fun _ => true).files⟩ :=
    reach_command h₂ (.set_ip peerA.name) (runs_setIpAt (by decide) peerA (by decide))
  have h₄ := reach_rest _ _ (h₃.step (e := .inl (.start (.accept peerB false))) ⟨trivial, .left (.start _ _ _)⟩)
    fun _ => by decide +kernel
  have h₅ := reach_command h₄ .clear_ip (Runs.of_exec (fun o fs => step_exec (fun _ => true) succeeds o fs) _ _)
  exact ⟨_, _, _, rfl, by decide, by decide +kernel, sole_address h₅⟩

/-- `peerA` is live and holds the lock; the manager sets `peerB` a second later; `peerB` is admitted. -/
theorem set_ip_overrides : ∃ x, (sharedSystem port8388).Reach x ∧ x.live = [⟨peerA.name⟩, ⟨peerB.name⟩] := by
  have h₀ : (sharedSystem port8388).Reach (Served.start port8388 (Files.empty 1)).shared :=
    .init (init_shared port8388 _)
  obtain ⟨es, hrun, -⟩ := run_accept port8388 (Served.start port8388 (Files.empty 1)) peerA
  have h₁ : (sharedSystem port8388).Reach (servingA fun _ => true).shared :=
    hrun.reach (h₀.step (start_accept _ _ _))
  let x : Served := ⟨(servingA fun _ => true).server, setIpAt port8388 peerB.name 2 (servingA fun _ => true).files⟩
  have h₂ : (sharedSystem port8388).Reach x.shared := by
    exact Duo.reach_right h₁ (.set_ip peerB.name) (runs_setIpAt (by decide) peerB (by decide))
  obtain ⟨es, hrun, -⟩ := run_accept port8388 x peerB
  refine ⟨_, hrun.reach (h₂.step (start_accept _ _ _)), ?_⟩
  decide

/-- The manager is only told to set the address of `P`. -/
def SetsOnly (P : PeerName) (_ : Shared) : SharedEvent → Prop
  | .inr (.start c) => c = .set_ip P.name
  | _ => True

/-- The lock file of `peerA`, which is live, as a `set_ip` of `peerA` leaves it between `fopen` and the write: an accept
of `peerB` reads an empty file, and `peerB` is admitted. -/
theorem set_ip_torn : ∃ x, ((sharedSystem port8388).guarded (SetsOnly peerA)).Reach x ∧
    x.live = [⟨peerA.name⟩, ⟨peerB.name⟩] := by
  have hserver : ∀ {es : List SharedEvent}, (∀ e ∈ es, e = .inl .finish ∨ ∃ o, e = .inl (.op o)) →
      ∀ e ∈ es, ∀ x, SetsOnly peerA x e := by
    intro es hes e he x
    rcases hes e he with rfl | ⟨o, rfl⟩
    · trivial
    · trivial
  have h₀ : ((sharedSystem port8388).guarded (SetsOnly peerA)).Reach (Served.start port8388 (Files.empty 1)).shared :=
    .init (init_shared port8388 _)
  obtain ⟨es, hrun, hes⟩ := run_accept port8388 (Served.start port8388 (Files.empty 1)) peerA
  have h₁ : ((sharedSystem port8388).guarded (SetsOnly peerA)).Reach (servingA fun _ => true).shared :=
    (hrun.guarded (hserver hes)).reach
      (h₀.step (e := .inl (.start (.accept peerA false))) ⟨trivial, start_accept _ _ _⟩)
  let opened := ((servingA fun _ => true).files.setNow 2).exec true (.openW port8388.lockPath)
  have h₂ : ((sharedSystem port8388).guarded (SetsOnly peerA)).Reach ⟨.idle (servingA fun _ => true).server,
      .busy (.set_ip peerA.name) () ((ManagerCmd.set_ip peerA.name).body port8388.text ()),
        (servingA fun _ => true).files⟩ :=
    h₁.step (e := .inr (.start (.set_ip peerA.name))) ⟨rfl, .right (.start _ _ _)⟩
  have h₃ : ((sharedSystem port8388).guarded (SetsOnly peerA)).Reach ⟨.idle (servingA fun _ => true).server,
      .busy (.set_ip peerA.name) () _, opened.2⟩ :=
    h₂.step (e := .inr (.op (.openW port8388.lockPath))) ⟨trivial, .right (.op ⟨2, true, by decide, rfl, rfl⟩)⟩
  have h₄ : ((sharedSystem port8388).guarded (SetsOnly peerA)).Reach
      ⟨.busy (.accept peerB false) (servingA fun _ => true).server
        ((ServerCall.accept peerB false).body (servingA fun _ => true).server), _, opened.2⟩ :=
    h₃.step (e := .inl (.start (.accept peerB false))) ⟨trivial, .left (.start _ _ _)⟩
  obtain ⟨es, hrun, hes⟩ := Duo.run_left_rest (Runs.of_exec (fun o fs => step_exec (fun _ => true) succeeds o fs)
    ((ServerCall.accept peerB false).body (servingA fun _ => true).server) opened.2)
  exact ⟨_, (hrun.guarded (hserver hes)).reach h₄, by decide +kernel⟩

end OutlineServer
