import OutlineServer.StatusReply

/-!
# Whether `ip_status` is fresh

Once `set_ip` of `A` (or `clear_ip`, with `A` empty) has written the lock file and as long as that stays,
`read_port_status` reads `A` from it, and then prefers the status file, which the child writes from its own
memory. `ip_status_fresh` says which status files leave the reply right; `ip_status_stale` is a reply that
still reports the peer the child had locked.
-/

namespace OutlineServer
open Prog Files

/-! ### The lock file after `set_ip` -/

/-- The operation by which the manager makes `A` the lock of the port. -/
def SetsLock (port : Port) (A : Text) : FileOp Text → Prop
  | .write _ s => A ≠ [] ∧ s = A ++ ['\n']
  | .unlink p => A = [] ∧ p = port.lockPath
  | _ => False

theorem takeLine_prefix_line (n : Nat) (A rest : Text) : takeLine n (A ++ '\n' :: rest) <+: A ++ ['\n'] := by
  induction A generalizing n with
  | nil => cases n <;> simp [takeLine]
  | cons c A ih =>
    cases n with
    | zero => exact List.nil_prefix
    | succ n =>
      rw [List.cons_append, takeLine, List.cons_append]
      split
      · exact List.cons_prefix_cons.2 ⟨rfl, List.nil_prefix⟩
      · exact List.cons_prefix_cons.2 ⟨rfl, ih n⟩

/-- The manager reads no more than the address from the file's first line. -/
theorem lockLine_isPrefix (A rest : Text) : lockLine (A ++ '\n' :: rest) <+: A := by
  rw [lockLine, fgets, if_neg (by simp)]
  simp only
  generalize hl : (takeLine (INET6_ADDRSTRLEN - 1) (A ++ '\n' :: rest)).takeWhile (· ≠ '\x00') = l
  have hpre : l <+: A ++ ['\n'] :=
    hl ▸ (List.takeWhile_prefix _).trans (takeLine_prefix_line (INET6_ADDRSTRLEN - 1) A rest)
  rcases List.prefix_concat_iff.1 ((List.rdropWhile_prefix isLineEnd l).trans hpre) with h | h
  · -- its end is not a line end
    exfalso
    have hlast := List.rdropWhile_last_not isLineEnd l (by rw [h]; simp)
    simp [h, isLineEnd] at hlast
  · exact h

theorem lockLine_of_noControl {A : Text} (hlen : A.length < INET6_ADDRSTRLEN) (h : NoControl A) (rest : Text) :
    lockLine (A ++ '\n' :: rest) = A := by
  have hmem : ∀ c, Json.isControl c = true → c ∉ A := fun c hc hA => by
    rw [h c hA] at hc
    cases hc
  have hnl : '\n' ∉ A := hmem _ rfl
  have hend : A.rdropWhile isLineEnd = A := by
    refine List.rdropWhile_eq_self_iff.2 fun hne hl => ?_
    have hlast := List.getLast_mem hne
    simp only [isLineEnd, decide_eq_true_eq] at hl
    rcases hl with hl | hl
    · exact hnl (hl ▸ hlast)
    · exact hmem '\r' rfl (hl ▸ hlast)
  have hle : A.length ≤ INET6_ADDRSTRLEN - 1 := by simp only [INET6_ADDRSTRLEN] at hlen ⊢; omega
  simp only [lockLine, fgets, List.append_eq_nil_iff, reduceCtorEq, and_false, ↓reduceIte,
    takeLine_append_newline hnl rest hle]
  split
  · rw [takeWhile_no_nul (by simpa using hmem _ rfl), List.rdropWhile_concat_pos _ _ _ (by rfl), hend]
  · rw [takeWhile_no_nul (hmem _ rfl), hend]

/-- The manager has made `A` the lock of the port, and the lock file is as it left it in every state since. -/
structure LockSet (working_dir : Text) (port : Port) (allow : Files Text → FileOp Text → Bool → Prop) (A : Text)
    (F : Option Inode) (y : Sidecars) : Prop where
  run : ∃ x o x' es, (sidecarSystem working_dir port allow).Reach x ∧ SetsLock port A o ∧
    (sidecarSystem working_dir port allow).step x (.inr (.op o)) x' ∧ x'.world.file port.lockPath = F ∧
    ((sidecarSystem working_dir port allow).within fun y => y.world.file port.lockPath = F).Run x' es y

section
variable {working_dir : Text} {port : Port} {allow : Files Text → FileOp Text → Bool → Prop} {A : Text}
  {F : Option Inode} {x x' y z : Sidecars}

theorem lockText_of_setsLock {o : FileOp Text} (hx : SidecarInv port x) (hA : SetsLock port A o)
    (hlen : A.length < INET6_ADDRSTRLEN)
    (hs : (sidecarSystem working_dir port allow).step x (.inr (.op o)) x') :
    lockText (x'.world.file port.lockPath) <+: A ∧
      (NoControl A → lockText (x'.world.file port.lockPath) = A) := by
  obtain ⟨-, hs⟩ := hs
  cases hs with
  | right hs =>
    cases hs with
    | op hop =>
      cases o with
      | write i s =>
        obtain ⟨-, rfl⟩ := hA
        obtain ⟨cur, ⟨hcur, -⟩, hd⟩ := hx.manager _ _ _ rfl
        obtain ⟨rest, hf⟩ := step_write (hd i hcur) hop
        have htext : ∀ t, lockText (some ⟨A ++ ['\n'] ++ rest, t⟩) = lockLine (A ++ '\n' :: rest) := fun t => by
          simp [lockText]
        rw [hf, htext]
        exact ⟨lockLine_isPrefix A rest, fun hc => lockLine_of_noControl hlen hc rest⟩
      | unlink p =>
        obtain ⟨rfl, rfl⟩ := hA
        rw [step_file_unlink hop, if_pos rfl]
        exact ⟨List.nil_prefix, fun _ => rfl⟩
      | _ => exact hA.elim

/-- While the lock file stays, what is left of an `ip_status` answers from it and the status file. -/
structure Answering (working_dir : Text) (port : Port) (allow : Files Text → FileOp Text → Bool → Prop)
    (F : Option Inode) (y : Sidecars) : Prop where
  inv : SidecarInv port y
  lock : y.world.file port.lockPath = F
  rely : ∀ b o k, y.right = .busy .ip_status b (.call o k) →
    (Prog.call o k).Rely (Files.Step allow) (Spares port F)
      (fun r fs' => r.1 = statusReply F (fs'.file port.statusPath)) y.world

/-- The child spares the files that the manager reads. -/
theorem spares_of_child {fs fs' : Files Text} {o : FileOp Text} {r : o.Res} (ho : ∀ p, o ≠ .unlink p)
    (hs : Files.Step allow fs o r fs') (hF : fs'.file port.lockPath = F) : Spares port F fs fs' :=
  ⟨hF, fun _ hi => step_dir (ho _) hi hs, fun _ hi => step_dir (ho _) hi hs⟩

theorem Answering.step {e : SidecarEvent} (h : Answering working_dir port allow F x)
    (hs : (sidecarSystem working_dir port allow).step x e y) (hF : y.world.file port.lockPath = F) :
    Answering working_dir port allow F y := by
  obtain ⟨-, hs⟩ := hs
  cases hs with
  | left hs =>
    refine ⟨h.inv.left_step hs, hF, fun b o k hr => ?_⟩
    cases hs with
    | start => exact h.rely b o k hr
    | finish => exact h.rely b o k hr
    | @op c s o' k' _ _ r hop =>
      refine (h.rely b o k hr).other fun w₁ hw₁ => Spares.trans ?_ hw₁
      refine spares_of_child ?_ hop hF
      rintro p rfl
      obtain ⟨cur, hw, -⟩ := h.inv.busy _ _ _ rfl
      exact hw
  | right hs =>
    refine ⟨h.inv.right_step hs, hF, fun b o k hr => ?_⟩
    cases hs with
    | start c b' =>
      obtain ⟨rfl, rfl, hp⟩ := Proc.busy.inj hr
      rw [← hp]
      exact Rely.bind (rely_read_port_status.mono fun out fs' ho => ho)
    | finish => cases hr
    | op hop =>
      obtain ⟨rfl, rfl, hp⟩ := Proc.busy.inj hr
      rw [← hp]
      exact h.rely _ _ _ rfl _ _ _ ⟨h.lock, fun _ hi => hi, fun _ hi => hi⟩ hop

theorem Answering.of_run {es : List SidecarEvent} (h : Answering working_dir port allow F x)
    (hr : ((sidecarSystem working_dir port allow).within fun y => y.world.file port.lockPath = F).Run x es y) :
    Answering working_dir port allow F y := by
  induction hr with
  | nil => exact h
  | cons hs _ ih => exact ih (h.step hs.1 hs.2)

/-- The manager's own write starts the window: it was not answering `ip_status`. -/
theorem Answering.start {o : FileOp Text} (hx : SidecarInv port x) (hA : SetsLock port A o)
    (hs : (sidecarSystem working_dir port allow).step x (.inr (.op o)) y) :
    Answering working_dir port allow (y.world.file port.lockPath) y := by
  obtain ⟨-, hs⟩ := hs
  cases hs with
  | right hs =>
    refine ⟨hx.right_step hs, rfl, fun b o' k hr => ?_⟩
    cases hs with
    | op hop =>
      obtain ⟨rfl, rfl, hp⟩ := Proc.busy.inj hr
      have hread := (hx.reading _ _ rfl).1
      cases o with
      | write i s => exact absurd trivial hread
      | unlink p => exact absurd trivial hread
      | _ => exact hA.elim

theorem LockSet.answering (h : LockSet working_dir port allow A F y) :
    Answering working_dir port allow F y := by
  obtain ⟨x, o, x', es, hx, hA, hs, rfl, hrun⟩ := h.run
  exact (Answering.start (.of_reach hx) hA hs).of_run hrun

theorem LockSet.reads (h : LockSet working_dir port allow A F y) (hlen : A.length < INET6_ADDRSTRLEN) :
    lockText F <+: A ∧ (NoControl A → lockText F = A) := by
  obtain ⟨x, o, x', es, hx, hA, hs, rfl, -⟩ := h.run
  exact lockText_of_setsLock (.of_reach hx) hA hlen hs

/-! ### The reply -/

/-- A status file, or none, that leaves the reply right: the child has not written one and `A` needs no
escape, or the last one that it has written is for `A`. -/
def StatusFresh (A : Text) : Option Inode → Prop
  | none => PlainAddr A
  | some f => f.content = [] ∧ PlainAddr A ∨ StatusOf A f.content ∧ NoControl A

theorem PlainAddr.noControl (h : PlainAddr A) : NoControl A := fun c hc => (h c hc).2.2

theorem reportedLock_statusReply_fallback (hlen : A.length < INET6_ADDRSTRLEN) (hpre : lockText F <+: A)
    (heq : NoControl A → lockText F = A) :
    reportedLock (snprintf [] (IP_LOCK_STATUS_JSON_MAX + 128) 0 (statusFallback (lockText F))) = some A ↔
      PlainAddr A := by
  have hle := hpre.length_le
  rw [snprintf_reply, reportedLock_fallback hpre]
  · exact ⟨fun h => h.2, fun h => ⟨heq h.noControl, h⟩⟩
  · rw [length_statusFallback]
    simp only [INET6_ADDRSTRLEN, IP_LOCK_STATUS_JSON_MAX] at hlen ⊢
    omega

theorem StatusOf.ne_nil {L content : Text} (h : StatusOf L content) : content ≠ [] := by
  obtain ⟨total, active, incoming, blocked, rfl⟩ := h
  obtain ⟨t, ht⟩ := statusLine_eq (ip_lock_json_escape (INET6_ADDRSTRLEN * 2) L 0) total active incoming blocked
  rw [ht]
  intro hnil
  have hlen := congrArg List.length hnil
  simp only [List.length_append, length_reportPrefix, List.length_nil] at hlen
  omega

/-- What a reply from the two files reports. -/
theorem reportedLock_statusReply {status : Option Inode} (hlen : A.length < INET6_ADDRSTRLEN)
    (hpre : lockText F <+: A) (heq : NoControl A → lockText F = A)
    (hstatus : ∀ f, status = some f → f.content = [] ∨ StatusText f.content) :
    reportedLock (statusReply F status) = some A ↔ StatusFresh A status := by
  cases status with
  | none => exact reportedLock_statusReply_fallback hlen hpre heq
  | some f =>
    simp only [statusReply, StatusFresh]
    rcases hstatus f rfl with hnil | ⟨L, hL, hnul, hf⟩
    · -- an empty status file is passed over
      have hbody : statusBody f.content = [] := by rw [hnil]; rfl
      rw [hbody, if_neg (not_not.2 rfl), reportedLock_statusReply_fallback hlen hpre heq]
      exact ⟨fun h => .inl ⟨hnil, h⟩, fun h => h.elim And.right fun h => absurd hnil h.1.ne_nil⟩
    · obtain ⟨hne, hrep⟩ := reportedLock_statusBody hL hnul hf
      rw [if_pos hne, snprintf_reply ((length_statusBody_le _).trans (by decide)), hrep]
      constructor
      · intro h
        split at h
        · rename_i hc
          cases h
          exact .inr ⟨hf, hc⟩
        · cases h
      · rintro (⟨hnil, -⟩ | ⟨hfA, hc⟩)
        · exact absurd hnil hf.ne_nil
        · rw [← hrep, (reportedLock_statusBody hlen (noControl_nul hc) hfA).2, if_pos hc]

/-- The reply is made from the status file as the manager's last operation finds it. -/
theorem reply_eq {o : FileOp Text} {b b' : Bool} {out : Text} (h : LockSet working_dir port allow A F y)
    (hs : (sidecarSystem working_dir port allow).step y (.inr (.op o)) z)
    (hz : z.right = .busy .ip_status b (.ret (out, b'))) :
    out = statusReply F (y.world.file port.statusPath) := by
  have ha := h.answering
  obtain ⟨-, hs⟩ := hs
  cases hs with
  | right hs =>
    cases hs with
    | op hop =>
      obtain ⟨rfl, rfl, hp⟩ := Proc.busy.inj hz
      have hage := step_of_not_writes (ha.inv.reading _ _ rfl).1 hop
      have hq := ha.rely _ _ _ rfl _ _ _ ⟨ha.lock, fun _ hi => hi, fun _ hi => hi⟩ hop
      rw [hp] at hq
      change out = _ at hq
      rw [hq, hage.file_eq]

end

/-! ### Two replies -/

section
variable {working_dir : Text} {port : Port} {A : Text} {F : Option Inode}
  {l : Proc (FileOp Text) FileOp.Res ChildCall Child (Option AcceptResult)} {b : Bool} {fs : Files Text}

theorem exec_of_not_writes {o : FileOp Text} (h : ¬ o.Writes) : (fs.exec true o).2 = fs := by
  cases o <;> first | exact absurd trivial h | rfl

/-- A command that only reads, run alone to its last operation. -/
theorem run_reading {c : SidecarCmd} {Q : Text × Bool → Prop} {o : FileOp Text} {k : o.Res → FsProg (Text × Bool)}
    (hp : (Prog.call o k).Within (fun o => ¬ o.Writes) Q) (hF : fs.file port.lockPath = F) :
    ∃ es y o', ((sidecarSystem working_dir port AllSucceed).within fun y => y.world.file port.lockPath = F).Run
        ⟨l, .busy c b (.call o k), fs⟩ es y ∧ y.world = fs ∧
      (sidecarSystem working_dir port AllSucceed).step y (.inr (.op o'))
        ⟨l, .busy c b (.ret ((Prog.call o k).exec (fun o fs => fs.exec true o) fs).1), fs⟩ := by
  generalize hq : Prog.call o k = q at hp ⊢
  induction q generalizing o k with
  | ret a => cases hq
  | call o' k' ih =>
    have hop : Files.Step AllSucceed fs o' (fs.exec true o').1 fs := by
      have h := step_exec (fun _ => true) succeeds o' fs
      rwa [exec_of_not_writes hp.1] at h
    have hexec : (Prog.call o' k').exec (fun o fs => fs.exec true o) fs =
        (k' (fs.exec true o').1).exec (fun o fs => fs.exec true o) fs := by
      rw [Prog.exec, exec_of_not_writes hp.1]
    rw [hexec]
    cases hk : k' (fs.exec true o').1 with
    | ret r =>
      refine ⟨[], _, o', .nil _, rfl, ?_⟩
      have hstep := (@Proc.Step.op _ _ _ _ _ _ _ (SidecarCmd.body working_dir port.text) c b _ k') hop
      rw [hk] at hstep
      exact sidecar_right hstep
    | call o'' k'' =>
      obtain ⟨es, y, o₁, hrun, hy, hlast⟩ := ih _ hk.symm (hp.2 _)
      rw [hk] at hlast
      refine ⟨.inr (.op o') :: es, y, o₁, .cons ⟨?_, hF⟩ hrun, hy, hlast⟩
      have hstep := (@Proc.Step.op _ _ _ _ _ _ _ (SidecarCmd.body working_dir port.text) c b _ k') hop
      exact sidecar_right hstep

/-- `ip_status` run alone in the window: its last operation and its reply. -/
theorem exists_ip_status (h : LockSet working_dir port AllSucceed A F ⟨l, .idle b, fs⟩) :
    ∃ y o z, LockSet working_dir port AllSucceed A F y ∧ y.world = fs ∧
      (sidecarSystem working_dir port AllSucceed).step y (.inr (.op o)) z ∧
      z.right = .busy .ip_status b (.ret (((SidecarCmd.ip_status.body working_dir port.text b).exec
        (fun o fs => fs.exec true o) fs).1)) := by
  have hF := h.answering.lock
  obtain ⟨x, o, x', es, hx, hA, hs, hF', hrun⟩ := h.run
  have hstart : (sidecarSystem working_dir port AllSucceed).step ⟨l, .idle b, fs⟩ (.inr (.start .ip_status))
      ⟨l, .busy .ip_status b (SidecarCmd.ip_status.body working_dir port.text b), fs⟩ :=
    sidecar_right (.start _ _ _)
  obtain ⟨es', y, o', hrun', hy, hlast⟩ := (@run_reading working_dir _ _ l b)
    (within_ip_status (fun _ => id) working_dir port.text b) hF
  exact ⟨y, o', _, ⟨x, o, x', _, hx, hA, hs, hF', hrun.append (.cons ⟨hstart, hF⟩ hrun')⟩, hy, hlast, rfl⟩

/-- `set_ip` run alone opens a window. -/
theorem exists_lockSet (hp : port.text ≠ []) {t : Nat} (ht : fs.now ≤ t) (hA : A ≠ [])
    (h : (sidecarSystem working_dir port AllSucceed).Reach ⟨l, .idle b, fs⟩) :
    ∃ F fs', LockSet working_dir port AllSucceed A F ⟨l, .idle b, fs'⟩ ∧
      fs'.file port.statusPath = fs.file port.statusPath ∧ fs'.file port.lockPath = some ⟨A ++ ['\n'], t⟩ := by
  obtain ⟨i, fs₁, hopen, hd, hf, hnow⟩ := exists_step_openW succeeds port.lockPath ht
  have hw : Files.Step AllSucceed fs₁ (.write i (A ++ ['\n'])) () (fs₁.flush i (A ++ ['\n'])) :=
    ⟨fs₁.now, true, Nat.le_refl _, rfl, rfl⟩
  obtain ⟨hf₂, hne⟩ := step_write_empty hd hf hw
  have hstatus : fs₁.file port.statusPath = fs.file port.statusPath := by
    rcases step_openW hopen with ⟨hnone, -, -⟩ | ⟨_, -, -, -, hne⟩
    · cases hnone
    · exact hne _ port.lockPath_ne_statusPath.symm
  have hbody : (SidecarCmd.lock (.set_ip A)).body working_dir port.text b = .call (.openW port.lockPath) fun
        | none => .ret ("err".toList, b)
        | some f => .call (.write f (A ++ ['\n'])) fun _ => .ret ("ok".toList, b) := by
    simp only [SidecarCmd.body, set_ip_body hp hA]
    refine congrArg (Prog.call _) (funext fun r => ?_)
    cases r <;> rfl
  have h₁ := h.step (sidecar_right (.start (.lock (.set_ip A)) b fs))
  rw [hbody] at h₁
  have h₂ := h₁.step (sidecar_right (.op hopen))
  have hset : SetsLock port A (.write i (A ++ ['\n'])) := ⟨hA, rfl⟩
  refine ⟨_, fs₁.flush i (A ++ ['\n']), ⟨_, _, _, [.inr .finish], h₂, hset, sidecar_right (.op hw), rfl, ?_⟩, ?_, ?_⟩
  · exact .cons ⟨sidecar_right (.finish _ _ _ _ _), rfl⟩ (.nil _)
  · rw [hne _ port.lockPath_ne_statusPath.symm, hstatus]
  · rw [hf₂]
    exact congrArg (fun t => some (Inode.mk _ t)) hnow

end

/-- The child when it has accepted `peerB`, and its files. -/
def childServingB : (Option AcceptResult × Child) × Files Text :=
  ((ChildCall.serve (.accept peerB false)).body freshChild).exec (fun o fs => fs.exec true o) (Files.empty 1)

theorem reach_childServingB : (sidecarSystem [] port8388 AllSucceed).Reach
    ⟨.idle childServingB.1.2, .idle false, childServingB.2⟩ :=
  reach_childCall (reach_freshChild [] _ rfl) rfl (fun h => by cases h)
    (Runs.of_exec (fun o fs => step_exec (fun _ => true) succeeds o fs) _ _)

theorem status_childServingB : ∃ f, childServingB.2.file port8388.statusPath = some f ∧
    StatusOf peerB.name f.content := by
  refine ⟨_, rfl, 1, "[\"10.0.0.2\"]".toList, "[]".toList, "[]".toList, ?_⟩
  decide +kernel

end OutlineServer
