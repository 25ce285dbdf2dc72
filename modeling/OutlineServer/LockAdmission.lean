import OutlineServer.LockRuns

/-!
# Who is admitted

The two results about a server whose lock file nobody else writes. When every file operation succeeds
the lock admits exactly the peers that no live connection of another address excludes
(`lock_admission`). When the `fopen` of `ip_lock_set` can fail, the lock is enforced as long as it only
fails on a lock file that exists (`lock_enforced`): a failed creation leaves the lock in memory only,
and the next reload takes the missing file for an open lock (`lock_not_enforced`).
-/

namespace OutlineServer
open Prog Files

/-! ### Running the server -/

namespace Served

def accept (ok : FileOp Text → Bool) (x : Served) (P : PeerName) (aclDenies : Bool) :
    AcceptResult × Served :=
  let r := (accept_cb x.server (some P.name) aclDenies).exec (fun o fs => fs.exec (ok o) o) x.files
  (r.1.1, ⟨r.1.2, r.2⟩)

def start (port : Port) (fs : Files Text) : Served :=
  let r := (startLocked port.text).exec (fun o fs => fs.exec true o) fs
  ⟨r.1, r.2⟩

end Served

section
variable {port : Port} {allow : Files Text → FileOp Text → Bool → Prop} {start : Option Inode → Prop}
  {x y : Served}

theorem LockStep.of_accept {ok : FileOp Text → Bool} (hok : ∀ fs o, allow fs o (ok o)) (x : Served)
    (P : PeerName) (d : Bool) : LockStep allow x (.accept P d (x.accept ok P d).1) (x.accept ok P d).2 :=
  .accept (Runs.of_exec (fun o fs => step_exec ok hok o fs) _ _)

theorem succeed_accept (x : Served) (P : PeerName) (d : Bool) :
    LockStep AllSucceed x (.accept P d (x.accept (fun _ => true) P d).1) (x.accept (fun _ => true) P d).2 :=
  have h : ∀ fs o, AllSucceed fs o true := fun _ _ => rfl
  .of_accept h x P d

theorem reach_start (hok : ∀ fs o, allow fs o true) {fs : Files Text} (hs : start (fs.file port.lockPath)) :
    (lockSystem port allow start).Reach (Served.start port fs) :=
  .init ⟨fs, hs, Runs.of_exec (fun o fs => step_exec (fun _ => true) hok o fs) _ _⟩

theorem view_peers (x : Served) : x.view.peers = x.server.connections.map (·.peer_ip) := rfl

theorem view_file (h : x.server.Ready port.lockPath) : x.view.file = x.files.file port.lockPath := by
  rw [← h.path_eq]; rfl

theorem LockStep.accepts {fails : Option Inode → Prop} {P : PeerName} {r : AcceptResult}
    (ha : ∀ fs, allow fs (.openW port.lockPath) false → fails (fs.file port.lockPath))
    (h : x.server.Ready port.lockPath) (hs : LockStep allow x (.accept P false r) y) :
    LockView.Accepts fails P.name x.view r y.view := by
  obtain ⟨-, ⟨h⟩⟩ := LockStep.refines ha h hs
  exact h

end

/-! ### Two peers -/

def port8388 : Port := ⟨"8388".toList, by decide⟩

def peerA : PeerName := ⟨"10.0.0.1".toList, by decide, by decide, by simp [isLockBlank]⟩

def peerB : PeerName := ⟨"10.0.0.2".toList, by decide, by decide, by simp [isLockBlank]⟩

/-- A server without a lock file that has accepted `peerA`. -/
def servingA (ok : FileOp Text → Bool) : Served := ((Served.start port8388 (Files.empty 1)).accept ok peerA false).2

theorem reach_servingA {allow : Files Text → FileOp Text → Bool → Prop} {start : Option Inode → Prop}
    {ok : FileOp Text → Bool} (ht : ∀ fs o, allow fs o true) (hok : ∀ fs o, allow fs o (ok o))
    (hs : start none) : (lockSystem port8388 allow start).Reach (servingA ok) := by
  have h₀ : (lockSystem port8388 allow start).Reach (Served.start port8388 (Files.empty 1)) :=
    reach_start ht hs
  exact h₀.step (.of_accept hok _ peerA false)

/-! ### All operations succeed -/

def AbsentOrLine (F : Option Inode) : Prop := ∀ f, F = some f → LockView.OneLine f.content

/-- In every reachable state the live connections share one address, the locked one, and the lock file
names it; a peer is admitted if and only if no live connection is from another address, and then the
lock is its own. -/
theorem lock_admission {port : Port} {x : Served} (h : (lockSystem port AllSucceed AbsentOrLine).Reach x) :
    (∀ c ∈ x.server.connections, ∀ c' ∈ x.server.connections, c.peer_ip = c'.peer_ip) ∧
    (∀ c ∈ x.server.connections, c.peer_ip = x.server.ip_lock.locked_ip ∧
      ∃ f, x.files.file port.lockPath = some f ∧ LockView.trimmed f.content = c.peer_ip) ∧
    ∀ P : PeerName, (∃ r y, LockStep AllSucceed x (.accept P false r) y) ∧
      ∀ r y, LockStep AllSucceed x (.accept P false r) y →
        (r = .admitted ↔ ∀ c ∈ x.server.connections, c.peer_ip = P.name) ∧
        (r = .admitted → y.server.ip_lock.locked_ip = P.name) := by
  have ha : ∀ fs, AllSucceed fs (.openW port.lockPath) false → LockView.NeverFails (fs.file port.lockPath) :=
    fun _ h => Bool.noConfusion h
  obtain ⟨hrdy, hv⟩ := lockSystem_refines ha h
  have hw := viewSystem.written (fun f hf => hf f rfl) hv
  have hpeer : ∀ c ∈ x.server.connections, c.peer_ip = x.server.ip_lock.locked_ip := fun c hc =>
    hw.peers _ (List.mem_map_of_mem hc)
  refine ⟨fun c hc c' hc' => (hpeer c hc).trans (hpeer c' hc').symm, fun c hc => ⟨hpeer c hc, ?_⟩,
    fun P => ⟨⟨_, _, succeed_accept x P false⟩, fun r y hs => ?_⟩⟩
  · have hlocked : x.view.locked ≠ [] := by
      rw [← hw.peers _ (List.mem_map_of_mem hc)]
      exact hw.peers_ne _ (List.mem_map_of_mem hc)
    obtain ⟨f, hf⟩ := hw.file hlocked
    refine ⟨f, (view_file hrdy).symm.trans hf, ?_⟩
    rw [← (hw.line f hf).readLock_eq, hw.names hlocked f hf]
    exact (hpeer c hc).symm
  · have hacc := LockStep.accepts ha hrdy hs
    refine ⟨?_, fun hr => ?_⟩
    · rw [hw.admitted_iff hacc, view_peers, List.forall_mem_map]
    · subst hr
      exact hacc.locked_eq

theorem lock_admission_servingA : (servingA fun _ => true).server.connections = [⟨peerA.name⟩] ∧
    (∃ f, (servingA fun _ => true).files.file port8388.lockPath = some f ∧
      LockView.trimmed f.content = peerA.name) ∧
    ∀ r y, LockStep AllSucceed (servingA fun _ => true) (.accept peerB false r) y → r ≠ .admitted := by
  have hreach : (lockSystem port8388 AllSucceed AbsentOrLine).Reach (servingA fun _ => true) :=
    reach_servingA (fun _ _ => rfl) (fun _ _ => rfl) (fun _ h => by cases h)
  have hc : (servingA fun _ => true).server.connections = [⟨peerA.name⟩] := by decide
  obtain ⟨-, hfile, hacc⟩ := lock_admission hreach
  rw [hc] at hfile hacc
  refine ⟨hc, (hfile _ (List.mem_singleton_self _)).2, fun r y hs hr => ?_⟩
  exact absurd (((hacc peerB).2 r y hs).1.1 hr _ (List.mem_singleton_self _)) (by decide)

/-! ### The lock file cannot be written -/

/-- While a connection from the locked address is live, nobody from another address is admitted. -/
def LockEnforced (allow : Files Text → FileOp Text → Bool → Prop) (x : Served) : Prop :=
  (∃ c ∈ x.server.connections, c.peer_ip = x.server.ip_lock.locked_ip) →
    ∀ (P : PeerName) d r y, P.name ≠ x.server.ip_lock.locked_ip →
      LockStep allow x (.accept P d r) y → r ≠ .admitted

theorem mayFail (allow : Files Text → FileOp Text → Bool → Prop) (port : Port) (fs : Files Text)
    (_ : allow fs (.openW port.lockPath) false) : LockView.MayFail (fs.file port.lockPath) := trivial

theorem fresh_of_reach {allow : Files Text → FileOp Text → Bool → Prop} {start : Option Inode → Prop}
    {port : Port} {x : Served} (h : (lockSystem port allow start).Reach x) :
    x.server.Ready port.lockPath ∧ x.view.Fresh := by
  obtain ⟨hrdy, hv⟩ := lockSystem_refines (mayFail allow port) h
  exact ⟨hrdy, viewSystem.fresh hv⟩

/-- Whichever `fopen`s of the lock file fail, a peer that the live holder excludes is admitted exactly
when the lock file does not exist. -/
theorem admitted_iff_no_lock_file {port : Port} {start : Option Inode → Prop} {x y : Served} {P : PeerName}
    {r : AcceptResult} (h : (lockSystem port (LockOpenMayFail port) start).Reach x)
    (hlive : ∃ c ∈ x.server.connections, c.peer_ip = x.server.ip_lock.locked_ip)
    (hP : P.name ≠ x.server.ip_lock.locked_ip)
    (hs : LockStep (LockOpenMayFail port) x (.accept P false r) y) :
    r = .admitted ↔ x.files.file port.lockPath = none := by
  obtain ⟨hrdy, hfresh⟩ := fresh_of_reach h
  have hacc := LockStep.accepts (mayFail _ port) hrdy hs
  rw [hacc.admitted_iff, ← view_file hrdy]
  cases hf : x.view.file with
  | none => simp [LockView.Free, LockView.reload_of_no_file hf]
  | some f =>
    obtain ⟨c, hc, hcl⟩ := hlive
    have hmem : x.view.locked ∈ x.view.peers := by
      rw [show x.view.locked = c.peer_ip from hcl.symm]
      exact List.mem_map_of_mem hc
    have hne : x.view.locked ≠ [] := hfresh.peers_ne _ hmem
    have hne' : x.view.locked ≠ P.name := Ne.symm hP
    simp [LockView.Free, LockView.reload_of_cached hf (hfresh.cached f hf), hmem, hne, hne']

theorem backed_of_reach {port : Port} {start : Option Inode → Prop} {x : Served}
    (h : (lockSystem port (ExistingOpenMayFail port) start).Reach x) :
    x.server.Ready port.lockPath ∧ x.view.Backed := by
  have ha : ∀ fs, ExistingOpenMayFail port fs (.openW port.lockPath) false →
      LockView.FailsOnFile (fs.file port.lockPath) := fun _ h => (h rfl).2
  obtain ⟨hrdy, hv⟩ := lockSystem_refines ha h
  exact ⟨hrdy, viewSystem.backed hv⟩

theorem LockStep.not_denied {allow : Files Text → FileOp Text → Bool → Prop} {x y : Served} {P : PeerName}
    {d : Bool} (hs : LockStep allow x (.accept P d .admitted) y) : d = false := by
  cases d with
  | false => rfl
  | true =>
    cases hs with
    | accept hr => exact absurd (runs_accept_cb_denied hr).1 (by decide)

theorem exists_other_peer (l : Text) : ∃ P : PeerName, P.name ≠ l := by
  by_cases h : peerA.name = l
  · exact ⟨peerB, fun hB => absurd (h.trans hB.symm) (by decide)⟩
  · exact ⟨peerA, h⟩

/-- The lock is enforced in every state of a run whose failing `fopen`s find a lock file; in a state of
any run it is enforced exactly if the holder, when live, has a lock file. -/
theorem lock_enforced (port : Port) (start : Option Inode → Prop) :
    (∀ x, (lockSystem port (ExistingOpenMayFail port) start).Reach x →
      LockEnforced (LockOpenMayFail port) x) ∧
    ∀ x, (lockSystem port (LockOpenMayFail port) start).Reach x →
      (LockEnforced (LockOpenMayFail port) x ↔
        ((∃ c ∈ x.server.connections, c.peer_ip = x.server.ip_lock.locked_ip) →
          x.files.file port.lockPath ≠ none)) := by
  refine ⟨fun x h => ?_, fun x h => ⟨fun henf hlive hnone => ?_, fun hfile hlive P d r y hP hs => ?_⟩⟩
  · obtain ⟨hrdy, hb⟩ := backed_of_reach h
    rintro ⟨c, hc, hcl⟩ P d r y hP hs rfl
    cases hs.not_denied
    have hacc := LockStep.accepts (mayFail _ port) hrdy hs
    exact hP (((hb.admitted_iff hacc).1 rfl _ (List.mem_map_of_mem hc)).symm.trans hcl)
  · obtain ⟨P, hP⟩ := exists_other_peer x.server.ip_lock.locked_ip
    have hs : LockStep (LockOpenMayFail port) x _ _ :=
      .of_accept (fun _ _ h => Bool.noConfusion (h : true = false)) x P false
    exact henf hlive P false _ _ hP hs ((admitted_iff_no_lock_file h hlive hP hs).2 hnone)
  · rintro rfl
    cases hs.not_denied
    exact hfile hlive ((admitted_iff_no_lock_file h hlive hP hs).1 rfl)

theorem lock_enforced_servingA : LockEnforced (LockOpenMayFail port8388) (servingA fun _ => true) := by
  refine (lock_enforced port8388 fun F => F = none).1 _ ?_
  have hok : ∀ fs o, ExistingOpenMayFail port8388 fs o true := fun _ _ h => Bool.noConfusion h
  exact reach_servingA hok hok rfl

def openFails : FileOp Text → Bool
  | .openW p => p ≠ port8388.lockPath
  | _ => true

theorem openFails_allowed (fs : Files Text) (o : FileOp Text) : LockOpenMayFail port8388 fs o (openFails o) := by
  intro h
  cases o <;> simp_all [openFails]

/-- `peerA` is admitted without a lock file, holds the lock in memory and is live; `peerB` is admitted. -/
theorem lock_not_enforced :
    (lockSystem port8388 (LockOpenMayFail port8388) fun F => F = none).Reach (servingA openFails) ∧
      (servingA openFails).server.connections = [⟨peerA.name⟩] ∧
      (servingA openFails).server.ip_lock.locked_ip = peerA.name ∧
      ((servingA openFails).accept openFails peerB false).1 = .admitted ∧
      ¬ LockEnforced (LockOpenMayFail port8388) (servingA openFails) := by
  have hc : (servingA openFails).server.connections = [⟨peerA.name⟩] := by decide
  have hl : (servingA openFails).server.ip_lock.locked_ip = peerA.name := by decide
  have hB : ((servingA openFails).accept openFails peerB false).1 = .admitted := by decide
  refine ⟨?_, hc, hl, hB, fun henf => ?_⟩
  · exact reach_servingA (fun _ _ h => Bool.noConfusion h) openFails_allowed rfl
  · refine henf ⟨_, hc ▸ List.mem_singleton_self _, hl.symm⟩ peerB false _ _ ?_
      (.of_accept openFails_allowed _ peerB false) hB
    rw [hl]
    decide

end OutlineServer
