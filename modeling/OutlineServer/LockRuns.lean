import OutlineServer.LockView
import OutlineServer.Lib.Trans

/-!
# Runs of one server with an IP lock

`lockSystem` is a server from `ip_lock_init` on: accepts, closes and status updates in any order, with
nobody else writing its lock file; `allow` says which `fopen`s for writing may fail. Its runs refine
`viewSystem`, the same runs on `LockView`s (`lockSystem_refines`), where the invariants live:

* `Fresh` holds whatever fails: the cached `st_mtime` is the one of the lock file;
* `Backed` needs that an `fopen` fails only on a lock file that exists: a lock that is taken has a file,
  and the live connections come from the locked address;
* `Written` needs that no `fopen` fails: the locked address is the text of the lock file.
-/

namespace OutlineServer
open Prog Files

/-! ### The sidecar files -/

/-- A port whose sidecar paths `snprintf` does not cut. -/
structure Port where
  text : Text
  fits : (IP_LOCK_RUNTIME_DIR ++ "/.shadowsocks_".toList ++ text ++ ['.'] ++ "ipstatus".toList).length < 512

namespace Port

def lockPath (p : Port) : Text := ip_lock_sidecar_path p.text "iplock".toList

def statusPath (p : Port) : Text := ip_lock_sidecar_path p.text "ipstatus".toList

theorem sidecar_eq (p : Port) {suffix : Text} (h : suffix.length ≤ 8) :
    ip_lock_sidecar_path p.text suffix =
      IP_LOCK_RUNTIME_DIR ++ "/.shadowsocks_".toList ++ p.text ++ ['.'] ++ suffix := by
  have hfit := p.fits
  simp only [ip_lock_sidecar_path, snprintf, size_t_sub, List.take_nil, List.nil_append]
  refine List.take_of_length_le ?_
  simp only [List.length_append, List.length_cons, List.length_nil] at hfit ⊢
  have : ("ipstatus".toList).length = 8 := rfl
  omega

theorem sidecar_length (p : Port) {suffix : Text} (h : suffix.length ≤ 8) :
    (ip_lock_sidecar_path p.text suffix).length < 512 := by
  have hfit := p.fits
  rw [p.sidecar_eq h]
  simp only [List.length_append] at hfit ⊢
  have : ("ipstatus".toList).length = 8 := rfl
  omega

theorem strncpyz_sidecar (p : Port) {suffix : Text} (h : suffix.length ≤ 8) :
    strncpyz 512 (ip_lock_sidecar_path p.text suffix) = ip_lock_sidecar_path p.text suffix :=
  List.take_of_length_le (by have := p.sidecar_length h; omega)

theorem lockPath_ne_nil (p : Port) : p.lockPath ≠ [] := by
  rw [lockPath, p.sidecar_eq (by decide)]
  simp

theorem statusPath_ne_nil (p : Port) : p.statusPath ≠ [] := by
  rw [statusPath, p.sidecar_eq (by decide)]
  simp

theorem lockPath_ne_statusPath (p : Port) : p.lockPath ≠ p.statusPath := by
  rw [lockPath, statusPath, p.sidecar_eq (by decide), p.sidecar_eq (by decide)]
  intro h
  exact absurd (List.append_cancel_left h) (by decide)

end Port

/-! ### The lock as a system of its own -/

inductive LockMove
  | accept (P : PeerName) (r : AcceptResult)
  | drop (i : Nat)
  | skip

namespace LockView

def boot (F : Option Inode) : LockView := ⟨[], 0, F, []⟩

def drop (v : LockView) (i : Nat) : LockView := { v with peers := v.peers.eraseIdx i }

def NeverFails (_ : Option Inode) : Prop := False

def FailsOnFile (F : Option Inode) : Prop := F ≠ none

def MayFail (_ : Option Inode) : Prop := True

inductive Step (fails : Option Inode → Prop) : LockView → LockMove → LockView → Prop
  | accept {P : PeerName} {v v' : LockView} {r : AcceptResult} (h : Accepts fails P.name v r v') :
      Step fails v (.accept P r) v'
  | drop (v : LockView) (i : Nat) : Step fails v (.drop i) (v.drop i)
  | skip (v : LockView) : Step fails v .skip v

/-- The cached time is the file's, and connections have an address. -/
structure Fresh (v : LockView) : Prop where
  cached : ∀ f, v.file = some f → f.mtime = v.cached
  peers_ne : ∀ p ∈ v.peers, p ≠ []

/-- A lock that is taken has a file; the live connections are its holder's. -/
structure Backed (v : LockView) : Prop extends Fresh v where
  file : v.locked ≠ [] → ∃ f, v.file = some f
  peers : ∀ p ∈ v.peers, p = v.locked

/-- A lock file as an administrator or the server writes it: one line. -/
def OneLine (content : Text) : Prop := ∃ l, IsLine l ∧ (content = l ∨ content = l ++ ['\n'])

/-- The lock file names the holder. -/
structure Written (v : LockView) : Prop extends Backed v where
  line : ∀ f, v.file = some f → OneLine f.content
  names : v.locked ≠ [] → ∀ f, v.file = some f → readLock f.content = v.locked

variable {v v' : LockView} {P : Text} {fails : Option Inode → Prop} {r : AcceptResult}

theorem Fresh.reload (h : v.Fresh) : v.reload.Fresh := by
  refine ⟨fun f hf => ?_, by simpa using h.peers_ne⟩
  rw [reload_file] at hf
  rw [reload_of_cached hf (h.cached f hf)]
  exact h.cached f hf

theorem Fresh.join (h : v.Fresh) (hP : P ≠ []) : (v.join P).Fresh := by
  refine ⟨h.cached, fun p hp => ?_⟩
  simp only [LockView.join, List.mem_append, List.mem_singleton] at hp
  rcases hp with hp | rfl
  · exact h.peers_ne p hp
  · exact hP

theorem Fresh.accepts (h : v.Fresh) (hP : P ≠ []) (ha : Accepts fails P v r v') : v'.Fresh := by
  cases ha with
  | refused => exact h.reload
  | same => exact h.reload.join hP
  | taken t => exact Fresh.join ⟨fun f hf => by cases hf; rfl, h.peers_ne⟩ hP
  | unwritten => exact Fresh.join ⟨h.reload.cached, h.reload.peers_ne⟩ hP

theorem Fresh.drop (h : v.Fresh) (i : Nat) : (v.drop i).Fresh :=
  ⟨h.cached, fun p hp => h.peers_ne p (List.mem_of_mem_eraseIdx hp)⟩

theorem boot_reload_fresh (F : Option Inode) : (boot F).reload.Fresh := by
  refine ⟨fun f hf => ?_, by simp [boot]⟩
  rw [reload_file] at hf
  simp only [boot] at hf
  subst hf
  by_cases hm : f.mtime = 0 <;> simp [boot, LockView.reload, hm]

theorem Backed.reload_locked (h : v.Backed) : v.reload.locked = v.locked := by
  by_cases hl : v.locked = []
  · cases hf : v.file with
    | none => rw [reload_of_no_file hf, hl]
    | some f => rw [reload_of_cached hf (h.cached f hf)]
  · obtain ⟨f, hf⟩ := h.file hl
    rw [reload_of_cached hf (h.cached f hf)]

theorem Backed.reload (h : v.Backed) : v.reload.Backed where
  toFresh := h.toFresh.reload
  file := by rw [reload_file, h.reload_locked]; exact h.file
  peers := by rw [reload_peers, h.reload_locked]; exact h.peers

theorem Backed.peers_eq_nil (h : v.Backed) (hf : v.Free P) : v.peers = [] := by
  refine List.eq_nil_iff_forall_not_mem.2 fun p hp => ?_
  have hpl := h.peers p hp
  rcases hf with hf | ⟨-, hf⟩
  · exact h.peers_ne p hp (hpl.trans hf)
  · exact hf (hpl ▸ hp)

/-- `P` is admitted exactly when no live connection is from another address. -/
theorem Backed.admitted_iff (h : v.Backed) (ha : Accepts fails P v r v') :
    r = .admitted ↔ ∀ p ∈ v.peers, p = P := by
  have hr := h.reload
  rw [ha.admitted_iff, ← reload_peers]
  constructor
  · rintro (hl | hf) p hp
    · exact (hr.peers p hp).trans hl
    · rw [hr.peers_eq_nil hf] at hp; cases hp
  · intro hall
    by_cases hl : v.reload.locked = P
    · exact .inl hl
    · exact .inr (.inr ⟨hl, fun hp => hl (hall _ hp)⟩)

theorem Backed.accepts_peers (h : v.Backed) (ha : Accepts fails P v r v') : ∀ p ∈ v'.peers, p = v'.locked := by
  intro p hp
  rw [ha.peers_eq] at hp
  by_cases hr : r = .admitted
  · subst hr
    rw [ha.locked_eq]
    simp only [↓reduceIte, List.mem_append, List.mem_singleton] at hp
    rcases hp with hp | rfl
    · exact (h.admitted_iff ha).1 rfl p hp
    · rfl
  · simp only [hr, ↓reduceIte] at hp
    cases ha with
    | refused => exact h.reload.peers p (by rwa [reload_peers])
    | _ => exact absurd rfl hr

theorem Backed.accepts (h : v.Backed) (hP : P ≠ []) (hfails : ∀ F, fails F → FailsOnFile F)
    (ha : Accepts fails P v r v') : v'.Backed := by
  refine { h.toFresh.accepts hP ha with file := fun hl => ?_, peers := h.accepts_peers ha }
  cases ha with
  | refused => exact h.reload.file hl
  | same => exact h.reload.file hl
  | taken t => exact ⟨_, rfl⟩
  | unwritten _ hf =>
    simp only [LockView.join, reload_file]
    exact Option.ne_none_iff_exists'.1 (hfails _ hf)

theorem Backed.drop (h : v.Backed) (i : Nat) : (v.drop i).Backed :=
  { h.toFresh.drop i with file := h.file, peers := fun p hp => h.peers p (List.mem_of_mem_eraseIdx hp) }

theorem boot_reload_backed (F : Option Inode) : (boot F).reload.Backed := by
  refine { boot_reload_fresh F with file := fun hl => ?_, peers := by simp [boot] }
  rw [reload_file]
  cases F with
  | none => exact absurd rfl hl
  | some f => exact ⟨f, rfl⟩

def trimmed (content : Text) : Text := content.rdropWhile isLockBlank

theorem OneLine.readLock_eq {content : Text} (h : OneLine content) : readLock content = trimmed content := by
  obtain ⟨l, hl, rfl | rfl⟩ := h
  · exact readLock_unterminated hl
  · rw [readLock_line hl, trimmed, rdropWhile_isLockBlank_newline]

theorem oneLine_of_peer (P : PeerName) : OneLine (P.name ++ ['\n']) := ⟨P.name, P.isLine, .inr rfl⟩

theorem Written.reload (h : v.Written) : v.reload.Written where
  toBacked := h.toBacked.reload
  line := by rw [reload_file]; exact h.line
  names := by rw [reload_file, h.reload_locked]; exact h.names

theorem Written.accepts {P : PeerName} (h : v.Written) (ha : Accepts NeverFails P.name v r v') :
    v'.Written := by
  have hb := h.toBacked.accepts P.ne (fun _ hf => hf.elim) ha
  cases ha with
  | refused => exact h.reload
  | same => exact { hb with line := h.reload.line, names := h.reload.names }
  | taken t =>
    refine { hb with line := fun f hf => ?_, names := fun _ f hf => ?_ }
    · cases hf; exact oneLine_of_peer P
    · cases hf; exact P.readLock_name []
  | unwritten _ hf => exact hf.elim

theorem Written.drop (h : v.Written) (i : Nat) : (v.drop i).Written :=
  { h.toBacked.drop i with line := h.line, names := h.names }

theorem boot_reload_written {F : Option Inode} (hF : ∀ f, F = some f → OneLine f.content) :
    (boot F).reload.Written := by
  refine { boot_reload_backed F with line := by rw [reload_file]; exact hF, names := fun hl f hf => ?_ }
  rw [reload_file] at hf
  simp only [boot] at hf
  subst hf
  by_cases hm : f.mtime = 0
  · simp [boot, LockView.reload, hm] at hl
  · simp [boot, LockView.reload, hm]

end LockView

/-- The lock alone: started over a file that `start` admits. -/
def viewSystem (fails : Option Inode → Prop) (start : Option Inode → Prop) : Lts LockView LockMove where
  init v := ∃ F, start F ∧ v = (LockView.boot F).reload
  step := LockView.Step fails

namespace viewSystem
open LockView

variable {fails start : Option Inode → Prop} {v : LockView}

theorem invariant {I : LockView → Prop} (h₀ : ∀ F, start F → I (boot F).reload)
    (ha : ∀ (P : PeerName) v r v', I v → Accepts fails P.name v r v' → I v')
    (hd : ∀ v i, I v → I (v.drop i)) (h : (viewSystem fails start).Reach v) : I v := by
  refine h.invariant ?_ ?_
  · rintro _ ⟨F, hF, rfl⟩
    exact h₀ F hF
  · intro v e v' _ hI hs
    cases hs with
    | accept h => exact ha _ _ _ _ hI h
    | drop _ i => exact hd _ i hI
    | skip => exact hI

theorem fresh (h : (viewSystem fails start).Reach v) : v.Fresh :=
  invariant (fun F _ => boot_reload_fresh F) (fun P _ _ _ hI ha => hI.accepts P.ne ha)
    (fun _ i hI => hI.drop i) h

theorem backed (h : (viewSystem LockView.FailsOnFile start).Reach v) : v.Backed :=
  invariant (fun F _ => boot_reload_backed F) (fun P _ _ _ hI ha => hI.accepts P.ne (fun _ hF => hF) ha)
    (fun _ i hI => hI.drop i) h

theorem written (hstart : ∀ f, start (some f) → OneLine f.content)
    (h : (viewSystem LockView.NeverFails start).Reach v) : v.Written := by
  refine invariant (fun F hF => boot_reload_written ?_) (fun _ _ _ _ hI ha => hI.accepts ha)
    (fun _ i hI => hI.drop i) h
  rintro f rfl
  exact hstart f hF

end viewSystem

/-! ### The server -/

structure Served where
  server : SsServer
  files : Files Text

/-- What happens to the server; an accept with the ACL's decision and its result. -/
inductive LockEvent
  | accept (P : PeerName) (aclDenies : Bool) (r : AcceptResult)
  | close (i : Nat)
  | stat_update

inductive LockStep (allow : Files Text → FileOp Text → Bool → Prop) : Served → LockEvent → Served → Prop
  | accept {s s' : SsServer} {fs fs' : Files Text} {P : PeerName} {d : Bool} {r : AcceptResult}
      (h : Runs (Files.Step allow) (accept_cb s (some P.name) d) fs (r, s') fs') :
      LockStep allow ⟨s, fs⟩ (.accept P d r) ⟨s', fs'⟩
  | close {s s' : SsServer} {fs fs' : Files Text} {i : Nat} (hi : i < s.connections.length)
      (h : Runs (Files.Step allow) (close_and_free_server s i) fs s' fs') :
      LockStep allow ⟨s, fs⟩ (.close i) ⟨s', fs'⟩
  | stat_update {s s' : SsServer} {fs fs' : Files Text}
      (h : Runs (Files.Step allow) (stat_update_cb s) fs s' fs') :
      LockStep allow ⟨s, fs⟩ .stat_update ⟨s', fs'⟩

/-- A server for `port`, started over files whose lock file `start` admits. -/
def lockSystem (port : Port) (allow : Files Text → FileOp Text → Bool → Prop)
    (start : Option Inode → Prop) : Lts Served LockEvent where
  init x := ∃ fs₀, start (fs₀.file port.lockPath) ∧
    Runs (Files.Step allow) (startLocked port.text) fs₀ x.server x.files
  step := LockStep allow

def AllSucceed (_ : Files Text) (_ : FileOp Text) (ok : Bool) : Prop := ok = true

/-- Only an `fopen` of the lock file for writing can fail. -/
def LockOpenMayFail (port : Port) (_ : Files Text) (o : FileOp Text) (ok : Bool) : Prop :=
  ok = false → o = .openW port.lockPath

/-- Only an `fopen` for writing of a lock file that exists can fail. -/
def ExistingOpenMayFail (port : Port) (fs : Files Text) (o : FileOp Text) (ok : Bool) : Prop :=
  ok = false → o = .openW port.lockPath ∧ fs.file port.lockPath ≠ none

namespace Served

def view (x : Served) : LockView := x.server.view x.files

def move : LockEvent → LockMove
  | .accept P false r => .accept P r
  | .accept _ true _ => .skip
  | .close i => .drop i
  | .stat_update => .skip

end Served

section
variable {port : Port} {allow : Files Text → FileOp Text → Bool → Prop}
  {start fails : Option Inode → Prop} {x y : Served} {e : LockEvent}

theorem startLocked_view {s : SsServer} {fs fs' : Files Text}
    (h : Runs (Files.Step allow) (startLocked port.text) fs s fs') :
    s.Ready port.lockPath ∧ s.view fs' = (LockView.boot (fs.file port.lockPath)).reload := by
  obtain ⟨L, fs₁, hi, h⟩ := runs_bind.1 h
  obtain ⟨rfl, rfl⟩ := runs_ret.1 h
  unfold ip_lock_init at hi
  obtain ⟨u, fs₂, hm, hi⟩ := runs_bind.1 hi
  have h₂ := step_mkdir (runs_op.1 hm)
  rw [port.strncpyz_sidecar (by decide), port.strncpyz_sidecar (by decide)] at hi
  generalize hs : ({ IpLock.static with
      ip_lock_enabled := true
      lock_file_path := ip_lock_sidecar_path port.text "iplock".toList
      status_file_path := ip_lock_sidecar_path port.text "ipstatus".toList } : IpLock) = s at hi
  have hc : s.Configured := by
    subst hs; exact ⟨rfl, port.lockPath_ne_nil, port.lockPath_ne_statusPath⟩
  have hp : s.lock_file_path = port.lockPath := by subst hs; rfl
  obtain ⟨hag, rfl⟩ := runs_ip_lock_reload hc.lock_path hi
  refine ⟨⟨IpLock.reloaded_configured hc _, (IpLock.reloaded_lock_path _ _).trans hp⟩, ?_⟩
  rw [view_reloaded ⟨s, []⟩ fs₂ fs' hag]
  congr 1
  simp only [SsServer.view, LockView.boot, hp, h₂.file_eq]
  subst hs
  rfl

theorem LockStep.refines (ha : ∀ fs, allow fs (.openW port.lockPath) false → fails (fs.file port.lockPath))
    (h : x.server.Ready port.lockPath) (hs : LockStep allow x e y) :
    y.server.Ready port.lockPath ∧ LockView.Step fails x.view (Served.move e) y.view := by
  cases hs with
  | @accept s s' fs fs' P d r hr =>
    cases d with
    | false =>
      obtain ⟨hrdy, hacc⟩ := runs_accept_cb h ha hr
      exact ⟨hrdy, .accept hacc⟩
    | true =>
      obtain ⟨rfl, rfl, rfl⟩ := runs_accept_cb_denied hr
      exact ⟨h, .skip _⟩
  | close _ hr =>
    obtain ⟨hrdy, hv⟩ := runs_close_and_free_server h hr
    refine ⟨hrdy, ?_⟩
    simp only [Served.view, hv]
    exact .drop _ _
  | stat_update hr =>
    obtain ⟨hrdy, hv⟩ := runs_stat_update_cb h hr
    refine ⟨hrdy, ?_⟩
    simp only [Served.view, hv]
    exact .skip _

theorem lockSystem_refines
    (ha : ∀ fs, allow fs (.openW port.lockPath) false → fails (fs.file port.lockPath))
    (h : (lockSystem port allow start).Reach x) :
    x.server.Ready port.lockPath ∧ (viewSystem fails start).Reach x.view := by
  induction h with
  | init h =>
    obtain ⟨fs₀, hstart, hr⟩ := h
    obtain ⟨hrdy, hv⟩ := startLocked_view hr
    exact ⟨hrdy, .init ⟨_, hstart, hv⟩⟩
  | step _ hs ih =>
    obtain ⟨hrdy, hstep⟩ := LockStep.refines ha ih.1 hs
    exact ⟨hrdy, ih.2.step hstep⟩

end

end OutlineServer
