import OutlineServer.Manager
import OutlineServer.IpLockAnswers
import OutlineServer.LockAdmission
import OutlineServer.Lib.Procs

/-!
# The lock file between the manager and the server

`lockFileSystem` interleaves the server's `ip_lock_reload` and `ip_lock_set` with the manager's `set_ip`
and `clear_ip`, one file operation at a time and with the clock running. The manager writes only through
the descriptor of its own `fopen` and only the manager unlinks, so a completed `set_ip` of `A` leaves `A`
as the first line of the lock file, whoever else has written it (`file_of_set_ip`). Whether the server
then sees `A` is decided by the cached `st_mtime` alone (`lock_coherence`).
-/

namespace OutlineServer
open Prog Files

inductive LockCall
  | reload
  | set (ip : Text)

def LockCall.body (c : LockCall) (s : IpLock) : FsProg (Unit × IpLock) := do
  match c with
  | .reload => return ((), ← ip_lock_reload s)
  | .set ip => return ((), ← ip_lock_set s ip)

abbrev LockFile := Duo (FileOp Text) FileOp.Res LockCall IpLock Unit ManagerCmd Unit Text (Files Text)

abbrev LockFileEvent := ProcEvent (FileOp Text) LockCall ⊕ ProcEvent (FileOp Text) ManagerCmd

def lockFileSystem (port : Port) (allow : Files Text → FileOp Text → Bool → Prop) :
    Lts LockFile LockFileEvent :=
  Duo.system (Files.Step allow) LockCall.body (ManagerCmd.body port.text)
    fun s _ _ => s.lock_file_path = port.lockPath

def LockFileEvent.Writes : LockFileEvent → Prop
  | .inl (.op o) => o.Writes
  | .inr (.op o) => o.Writes
  | _ => False

/-! ### The manager's writes -/

/-- A program that writes only through `cur`, the descriptor of its own `fopen` of `path`. -/
def OwnWrites {α : Type} (path : Text) : Option Nat → FsProg α → Prop
  | _, .ret _ => True
  | cur, .call (.write i _) k => cur = some i ∧ ∀ r, OwnWrites path cur (k r)
  | _, .call (.openW p) k => p = path ∧ ∀ r, OwnWrites path r (k r)
  | _, .call (.unlink _) k => ∀ r, OwnWrites path none (k r)
  | cur, .call _ k => ∀ r, OwnWrites path cur (k r)

theorem ownWrites_body (port : Port) (c : ManagerCmd) :
    OwnWrites port.lockPath none (c.body port.text ()) := by
  cases c with
  | set_ip ip =>
    simp only [ManagerCmd.body, manager_set_ip, write_port_lock_ip]
    by_cases hip : ip = []
    · simp only [hip, ↓reduceIte]
      trivial
    by_cases hp : port.text = []
    · simp only [hip, hp, ↓reduceIte, true_or]
      trivial
    simp only [hip, hp, ↓reduceIte, or_self]
    refine ⟨rfl, fun r => ?_⟩
    cases r with
    | none => trivial
    | some i => exact ⟨rfl, fun _ => trivial⟩
  | clear_ip =>
    simp only [ManagerCmd.body, manager_clear_ip, clear_port_lock_ip]
    by_cases hp : port.text = []
    · simp only [hp, ↓reduceIte]
      trivial
    · simp only [hp, ↓reduceIte]
      exact fun _ => trivial

/-- The manager's descriptor is open on the lock file. -/
def ManagerOpen (path : Text) (fs : Files Text) : Proc (FileOp Text) FileOp.Res ManagerCmd Unit Text → Prop
  | .idle _ => True
  | .busy _ _ p => ∃ cur, OwnWrites path cur p ∧ ∀ i, cur = some i → fs.dir path = some i

section
variable {allow : Files Text → FileOp Text → Bool → Prop} {path : Text} {fs fs' : Files Text}

theorem OwnWrites.op {α : Type} {cur : Option Nat} {o : FileOp Text} {k : o.Res → FsProg α} {r : o.Res}
    (h : OwnWrites path cur (.call o k)) (hcur : ∀ i, cur = some i → fs.dir path = some i)
    (hs : Files.Step allow fs o r fs') :
    ∃ cur', OwnWrites path cur' (k r) ∧ ∀ i, cur' = some i → fs'.dir path = some i := by
  cases o with
  | openW p =>
    obtain ⟨rfl, h⟩ := h
    refine ⟨r, h r, fun i hi => ?_⟩
    rcases step_openW hs with ⟨rfl, -, -⟩ | ⟨j, rfl, hd, -⟩
    · cases hi
    · cases hi; exact hd
  | unlink p => exact ⟨none, h r, fun i hi => by cases hi⟩
  | write j s => exact ⟨cur, h.2 r, fun i hi => step_dir (by simp) (hcur i hi) hs⟩
  | _ => exact ⟨cur, h r, fun i hi => step_dir (by simp) (hcur i hi) hs⟩

theorem ManagerOpen.step {port : Port} {y y' : Proc (FileOp Text) FileOp.Res ManagerCmd Unit Text}
    {e : ProcEvent (FileOp Text) ManagerCmd} (h : ManagerOpen port.lockPath fs y)
    (hs : Proc.Step (Files.Step allow) (ManagerCmd.body port.text) y fs e y' fs') :
    ManagerOpen port.lockPath fs' y' := by
  cases hs with
  | start c a => exact ⟨none, ownWrites_body port c, fun i hi => by cases hi⟩
  | op hs =>
    obtain ⟨cur, hown, hcur⟩ := h
    exact hown.op hcur hs
  | finish => trivial

theorem ManagerOpen.other {y : Proc (FileOp Text) FileOp.Res ManagerCmd Unit Text}
    (h : ManagerOpen path fs y) (hd : ∀ i, fs.dir path = some i → fs'.dir path = some i) :
    ManagerOpen path fs' y := by
  cases y with
  | idle => trivial
  | busy c a p =>
    obtain ⟨cur, hown, hcur⟩ := h
    exact ⟨cur, hown, fun i hi => hd i (hcur i hi)⟩

end

/-! ### All interleavings -/

/-- The server's path stays and it unlinks nothing; the manager's descriptor is on the lock file. -/
structure LockFileInv (port : Port) (x : LockFile) : Prop where
  left : x.left.Keeps NoUnlink fun s => s.lock_file_path = port.lockPath
  right : ManagerOpen port.lockPath x.world x.right

theorem within_lockCall {port : Port} (c : LockCall) (s : IpLock) (h : s.lock_file_path = port.lockPath) :
    (c.body s).Within NoUnlink fun r => r.2.lock_file_path = port.lockPath := by
  cases c with
  | reload => exact (within_ip_lock_reload s).bind fun s' hs' => within_pure (hs'.lock_path.trans h)
  | set ip => exact (within_ip_lock_set s ip).bind fun s' hs' => within_pure (hs'.1.lock_path.trans h)

section
variable {port : Port} {allow : Files Text → FileOp Text → Bool → Prop} {x x' : LockFile} {e : LockFileEvent}

theorem LockFileInv.step (h : LockFileInv port x) (hs : (lockFileSystem port allow).step x e x') :
    LockFileInv port x' := by
  cases hs with
  | @left l l' y fs fs' e hs =>
    refine ⟨h.left.step within_lockCall hs, h.right.other fun i hi => ?_⟩
    cases e with
    | op o =>
      obtain ⟨ho, r, hstep⟩ := h.left.op hs
      exact step_dir (ho _) hi hstep
    | _ => rw [hs.world_eq (by simp)]; exact hi
  | right hs => exact ⟨h.left, h.right.step hs⟩

theorem LockFileInv.of_reach (h : (lockFileSystem port allow).Reach x) : LockFileInv port x := by
  induction h with
  | init h =>
    obtain ⟨a, a', hl, hr, hp⟩ := h
    exact ⟨by rw [hl]; exact hp, by rw [hr]; trivial⟩
  | step _ hs ih => exact ih.step hs

theorem lockFile_of_not_writes (hs : (lockFileSystem port allow).step x e x')
    (he : ¬ LockFileEvent.Writes e) (p : Text) : x'.world.file p = x.world.file p := by
  cases hs with
  | left hs =>
    cases hs with
    | op hs => exact (step_of_not_writes he hs).file_eq p
    | _ => rfl
  | right hs =>
    cases hs with
    | op hs => exact (step_of_not_writes he hs).file_eq p
    | _ => rfl

/-- The manager's last write makes its text the start of the lock file. -/
theorem file_of_manager_write {fd : Nat} {s : Text} (h : LockFileInv port x)
    (hs : (lockFileSystem port allow).step x (.inr (.op (.write fd s))) x') :
    ∃ rest t, x'.world.file port.lockPath = some ⟨s ++ rest, t⟩ := by
  cases hs with
  | right hs =>
    cases hs with
    | op hs =>
      obtain ⟨cur, ⟨hcur, -⟩, hd⟩ := h.right
      obtain ⟨rest, hf⟩ := step_write (hd fd hcur) hs
      exact ⟨rest, _, hf⟩

end

/-- A completed `set_ip` of `A` after which nothing is written: the write in the step from `x` to `x'`,
then the run `es` to a state `z` in which the server is between two calls. -/
structure SetIpDone (port : Port) (allow : Files Text → FileOp Text → Bool → Prop) (A : PeerName)
    (s : IpLock) (z : LockFile) : Prop where
  run : ∃ x x' fd es, (lockFileSystem port allow).Reach x ∧
    (lockFileSystem port allow).step x (.inr (.op (.write fd (A.name ++ ['\n'])))) x' ∧
    (lockFileSystem port allow).Run x' es z ∧ ∀ e ∈ es, ¬ LockFileEvent.Writes e
  idle : z.left = .idle s

section
variable {port : Port} {allow : Files Text → FileOp Text → Bool → Prop} {A : PeerName} {s s' : IpLock}
  {z : LockFile} {fs' : Files Text}

theorem file_of_set_ip (h : SetIpDone port allow A s z) :
    ∃ f, z.world.file port.lockPath = some f ∧ readLock f.content = A.name := by
  obtain ⟨x, x', fd, es, hx, hw, hrun, hes⟩ := h.run
  obtain ⟨rest, t, hf⟩ := file_of_manager_write (.of_reach hx) hw
  refine ⟨⟨A.name ++ ['\n'] ++ rest, t⟩, ?_, ?_⟩
  · refine hrun.invariant (I := fun z => z.world.file port.lockPath = _) hes ?_ hf
    exact fun y e y' he hy hs => (lockFile_of_not_writes hs he _).trans hy
  · simp only [List.append_assoc, List.singleton_append]
    exact A.readLock_name rest

theorem SetIpDone.path (h : SetIpDone port allow A s z) : s.lock_file_path = port.lockPath := by
  obtain ⟨x, x', fd, es, hx, hw, hrun, hes⟩ := h.run
  have hinv := (LockFileInv.of_reach (hrun.reach (hx.step hw))).left
  rw [h.idle] at hinv
  exact hinv

/-- Once a `set_ip` of `A` has completed and nothing is written after it, the next `ip_lock_reload`
leaves the server locked to `A` if and only if the lock file's `st_mtime` is not the one the server has
cached, or it was locked to `A` before. -/
theorem lock_coherence (h : SetIpDone port allow A s z)
    (hr : Runs (Files.Step allow) (ip_lock_reload s) z.world s' fs') :
    s'.locked_ip = A.name ↔
      (z.world.file port.lockPath).map Inode.mtime ≠ some s.lock_file_mtime ∨ s.locked_ip = A.name := by
  obtain ⟨f, hf, hA⟩ := file_of_set_ip h
  obtain ⟨-, rfl⟩ := runs_ip_lock_reload (by rw [h.path]; exact port.lockPath_ne_nil) hr
  rw [h.path, hf]
  by_cases hm : f.mtime = s.lock_file_mtime
  · rw [IpLock.reloaded_of_mtime_eq hm]
    simp [hm]
  · rw [(IpLock.reloaded_of_mtime_ne hm).1]
    simp [hm, hA]

end

/-! ### A `set_ip` in the second of the last write -/

theorem set_ip_body {port ip : Text} (hp : port ≠ []) (hip : ip ≠ []) :
    (ManagerCmd.set_ip ip).body port () =
      .call (.openW (ip_lock_sidecar_path port "iplock".toList)) fun
        | none => .ret ("err".toList, ())
        | some f => .call (.write f (ip ++ ['\n'])) fun _ => .ret ("ok".toList, ()) := by
  simp only [ManagerCmd.body, manager_set_ip, write_port_lock_ip, hp, hip, ↓reduceIte, or_self]
  refine congrArg (Prog.call _) (funext fun r => ?_)
  cases r <;> rfl

theorem exists_set_ip {port : Port} (hp : port.text ≠ []) {s : IpLock} {fs : Files Text} {t : Nat}
    (ht : fs.now ≤ t) (A : PeerName) (h : (lockFileSystem port AllSucceed).Reach ⟨.idle s, .idle (), fs⟩) :
    ∃ fs', SetIpDone port AllSucceed A s ⟨.idle s, .idle (), fs'⟩ ∧
      fs'.file port.lockPath = some ⟨A.name ++ ['\n'], t⟩ := by
  have hall : ∀ fs o, AllSucceed fs o true := fun _ _ => rfl
  obtain ⟨i, fs₁, hopen, hd, hf, ht₁⟩ := exists_step_openW hall port.lockPath ht
  have hw : Files.Step AllSucceed fs₁ (.write i (A.name ++ ['\n'])) () (fs₁.flush i (A.name ++ ['\n'])) :=
    ⟨fs₁.now, true, Nat.le_refl _, rfl, rfl⟩
  obtain ⟨hf₂, -⟩ := step_write_empty hd hf hw
  have h₁ := h.step (.right (.start (.set_ip A.name) () fs))
  rw [set_ip_body hp A.ne] at h₁
  have h₂ := h₁.step (.right (.op hopen))
  replace h₂ : (lockFileSystem port AllSucceed).Reach ⟨.idle s, .busy (.set_ip A.name) ()
      (.call (.write i (A.name ++ ['\n'])) fun _ => .ret ("ok".toList, ())), fs₁⟩ := h₂
  have h₃ : (lockFileSystem port AllSucceed).step
      ⟨.idle s, .busy (.set_ip A.name) ()
        (.call (.write i (A.name ++ ['\n'])) fun _ => .ret ("ok".toList, ())), fs₁⟩
      (.inr (.op (.write i (A.name ++ ['\n']))))
      ⟨.idle s, .busy (.set_ip A.name) () (.ret ("ok".toList, ())), fs₁.flush i (A.name ++ ['\n'])⟩ :=
    .right (.op hw)
  refine ⟨fs₁.flush i (A.name ++ ['\n']), ⟨⟨_, _, i, [.inr .finish], h₂, h₃, ?_, ?_⟩, rfl⟩, ?_⟩
  · exact .cons (.right (.finish _ _ _ _ _)) (.nil _)
  · intro e he
    rw [List.mem_singleton.1 he]
    exact not_false
  · rw [hf₂]
    exact congrArg (fun t => some (Inode.mk _ t)) ht₁

/-- The lock that a server for `port8388` has after it has set it to `peerA` at time 5, and the files. -/
def lockedToA : IpLock × Files Text :=
  (ip_lock_set { IpLock.static with ip_lock_enabled := true, lock_file_path := port8388.lockPath }
    peerA.name).exec (fun o fs => fs.exec true o) (Files.empty 5)

theorem reach_lockedToA :
    (lockFileSystem port8388 AllSucceed).Reach ⟨.idle lockedToA.1, .idle (), lockedToA.2⟩ := by
  have hall : ∀ fs o, AllSucceed fs o true := fun _ _ => rfl
  have h₀ : (lockFileSystem port8388 AllSucceed).Reach
      ⟨.idle { IpLock.static with ip_lock_enabled := true, lock_file_path := port8388.lockPath }, .idle (),
        Files.empty 5⟩ := .init ⟨_, _, rfl, rfl, rfl⟩
  refine Duo.reach_left h₀ (.set peerA.name) (b := ((), lockedToA.1)) ?_
  exact runs_bind.2 ⟨_, _, Runs.of_exec (fun o fs => step_exec (fun _ => true) hall o fs) _ _, .ret _ _⟩

/-- `set_ip` of `peerB` in the next second is seen by the next reload. -/
theorem lock_coherence_next_second : ∃ z, SetIpDone port8388 AllSucceed peerB lockedToA.1 z ∧
    ∀ s' fs', Runs (Files.Step AllSucceed) (ip_lock_reload lockedToA.1) z.world s' fs' →
      s'.locked_ip = peerB.name := by
  obtain ⟨fs, hdone, hf⟩ := exists_set_ip (t := 6) (by decide) (by decide) peerB reach_lockedToA
  refine ⟨_, hdone, fun s' fs' hr => (lock_coherence hdone hr).2 (.inl ?_)⟩
  rw [hf]
  decide

/-- `set_ip` of `peerB` in the second of the server's own write is not: the next reload, and with it the
server, stays with `peerA`. -/
theorem lock_not_coherent : ∃ z, SetIpDone port8388 AllSucceed peerB lockedToA.1 z ∧
    ∃ s' fs', Runs (Files.Step AllSucceed) (ip_lock_reload lockedToA.1) z.world s' fs' ∧
      s'.locked_ip = peerA.name ∧ s'.locked_ip ≠ peerB.name := by
  obtain ⟨fs, hdone, hf⟩ := exists_set_ip (t := 5) (by decide) (by decide) peerB reach_lockedToA
  have hall : ∀ fs o, AllSucceed fs o true := fun _ _ => rfl
  have hr := Runs.of_exec (fun o fs => step_exec (fun _ => true) hall o fs) (ip_lock_reload lockedToA.1) fs
  refine ⟨_, hdone, _, _, hr, ?_⟩
  obtain ⟨-, hs⟩ := runs_ip_lock_reload (by decide) hr
  rw [hs, hdone.path, hf, IpLock.reloaded_of_mtime_eq (by decide)]
  decide

end OutlineServer
