import OutlineServer.IpLockSpec
import Mathlib.Data.List.InsertIdx

/-!
# The accept path as a transition of the lock

`LockView` is what the admission decision depends on: the locked address, the cached `st_mtime`, the
lock file and the addresses of the live connections. Every run of `accept_cb` for a peer `P` that the
ACL lets through is one of the four transitions of `LockView.Accepts` (`runs_accept_cb`); the other
callbacks of `server.c` only drop a connection or change nothing. The rest of the development reasons
about these transitions and never unfolds the callbacks.
-/

namespace OutlineServer
open Prog Files

/-- A name that `inet_ntop` produces. -/
structure PeerName where
  name : Text
  ne : name ≠ []
  len : name.length < INET6_ADDRSTRLEN
  plain : ∀ c ∈ name, isLockBlank c = false ∧ c ≠ '\x00'

namespace PeerName

theorem strncpyz_name (P : PeerName) : strncpyz INET6_ADDRSTRLEN P.name = P.name :=
  List.take_of_length_le (by have := P.len; simp only [INET6_ADDRSTRLEN] at this ⊢; omega)

end PeerName

theorem takeLine_append_newline {l : Text} (h : '\n' ∉ l) (rest : Text) {n : Nat} (hn : l.length ≤ n) :
    takeLine n (l ++ '\n' :: rest) = if l.length < n then l ++ ['\n'] else l := by
  induction l generalizing n with
  | nil => cases n <;> simp [takeLine]
  | cons c l ih =>
    obtain ⟨hc, hl⟩ := not_or.1 (List.mem_cons.not.1 h)
    obtain ⟨m, rfl⟩ : ∃ m, n = m + 1 := ⟨n - 1, by simp only [List.length_cons] at hn; omega⟩
    have hm : l.length ≤ m := by simpa using hn
    simp only [List.cons_append, takeLine, Ne.symm hc, ↓reduceIte, ih hl hm, List.length_cons,
      Nat.add_lt_add_iff_right]
    split <;> rfl

theorem takeLine_of_length_le {l : Text} (h : '\n' ∉ l) {n : Nat} (hn : l.length ≤ n) : takeLine n l = l := by
  induction l generalizing n with
  | nil => cases n <;> rfl
  | cons c l ih =>
    obtain ⟨hc, hl⟩ := not_or.1 (List.mem_cons.not.1 h)
    obtain ⟨m, rfl⟩ : ∃ m, n = m + 1 := ⟨n - 1, by simp only [List.length_cons] at hn; omega⟩
    simp only [takeLine, Ne.symm hc, ↓reduceIte, ih hl (by simpa using hn)]

/-- A line of at most 45 characters that no NUL cuts short. -/
structure IsLine (l : Text) : Prop where
  len : l.length < INET6_ADDRSTRLEN
  no_newline : '\n' ∉ l
  no_nul : '\x00' ∉ l

theorem PeerName.isLine (P : PeerName) : IsLine P.name :=
  ⟨P.len, fun h => by simpa [isLockBlank] using (P.plain _ h).1, fun h => (P.plain _ h).2 rfl⟩

theorem rdropWhile_isLockBlank_newline (l : Text) :
    (l ++ ['\n']).rdropWhile isLockBlank = l.rdropWhile isLockBlank :=
  List.rdropWhile_concat_pos isLockBlank l '\n' rfl

theorem PeerName.rdropWhile_name (P : PeerName) : P.name.rdropWhile isLockBlank = P.name := by
  refine List.rdropWhile_eq_self_iff.2 fun hl => ?_
  simp [(P.plain _ (List.getLast_mem hl)).1]

theorem takeWhile_no_nul {l : Text} (h : '\x00' ∉ l) : l.takeWhile (· ≠ '\x00') = l := by
  refine List.takeWhile_eq_self_iff.2 fun c hc => ?_
  simp only [ne_eq, decide_eq_true_eq]
  rintro rfl
  exact h hc

/-- A first line is read whole, whatever follows it, and stripped. -/
theorem readLock_line {l : Text} (h : IsLine l) (rest : Text) :
    readLock (l ++ '\n' :: rest) = l.rdropWhile isLockBlank := by
  have hlen : l.length ≤ INET6_ADDRSTRLEN - 1 := by have := h.len; simp only [INET6_ADDRSTRLEN] at this ⊢; omega
  simp only [readLock, fgets, List.append_eq_nil_iff, reduceCtorEq, and_false, ↓reduceIte,
    takeLine_append_newline h.no_newline rest hlen]
  split
  · rw [takeWhile_no_nul (by simpa using h.no_nul), rdropWhile_isLockBlank_newline]
  · rw [takeWhile_no_nul h.no_nul]

theorem readLock_unterminated {l : Text} (h : IsLine l) : readLock l = l.rdropWhile isLockBlank := by
  cases l with
  | nil => rfl
  | cons c l =>
    have hlen : (c :: l).length ≤ INET6_ADDRSTRLEN - 1 := by
      have := h.len; simp only [INET6_ADDRSTRLEN] at this ⊢; omega
    simp only [readLock, fgets, reduceCtorEq, ↓reduceIte, takeLine_of_length_le h.no_newline hlen]
    rw [takeWhile_no_nul h.no_nul]

theorem PeerName.readLock_name (P : PeerName) (rest : Text) : readLock (P.name ++ '\n' :: rest) = P.name := by
  rw [readLock_line P.isLine, P.rdropWhile_name]

/-! ### The lock seen abstractly -/

/-- What an admission depends on. -/
structure LockView where
  locked : Text
  cached : Nat
  file : Option Inode
  peers : List Text

namespace LockView

def reload (v : LockView) : LockView :=
  match v.file with
  | none => { v with locked := [], cached := 0 }
  | some f => if f.mtime = v.cached then v else { v with locked := readLock f.content, cached := f.mtime }

/-- The lock is open to `P`: not taken, or its holder is gone. -/
def Free (v : LockView) (P : Text) : Prop := v.locked = [] ∨ v.locked ≠ P ∧ v.locked ∉ v.peers

def join (v : LockView) (P : Text) : LockView := { v with peers := v.peers ++ [P] }

/-- An accept from `P`; `fails` says on which lock file the `fopen` of `ip_lock_set` can fail. -/
inductive Accepts (fails : Option Inode → Prop) (P : Text) (v : LockView) : AcceptResult → LockView → Prop
  | refused (h : ¬ v.reload.Free P) (hne : v.reload.locked ≠ P) : Accepts fails P v .blocked v.reload
  | same (hne : P ≠ []) (h : v.reload.locked = P) : Accepts fails P v .admitted (v.reload.join P)
  | taken (t : Nat) (h : v.reload.Free P) : Accepts fails P v .admitted
      ({ v with locked := P, cached := t, file := some ⟨P ++ ['\n'], t⟩ }.join P)
  | unwritten (h : v.reload.Free P) (hf : fails v.file) :
      Accepts fails P v .admitted ({ v.reload with locked := P }.join P)

variable {v v' : LockView} {P : Text} {fails : Option Inode → Prop} {r : AcceptResult}

@[simp] theorem reload_file (v : LockView) : v.reload.file = v.file := by
  unfold reload
  split
  · rfl
  · split <;> rfl

@[simp] theorem reload_peers (v : LockView) : v.reload.peers = v.peers := by
  unfold reload
  split
  · rfl
  · split <;> rfl

theorem reload_of_cached {f : Inode} (hf : v.file = some f) (hm : f.mtime = v.cached) : v.reload = v := by
  simp [reload, hf, hm]

theorem reload_of_no_file (hf : v.file = none) : v.reload.locked = [] := by
  simp [reload, hf]

/-- An accept is refused exactly when the reloaded lock is not open to `P` and not its own. -/
theorem Accepts.admitted_iff (h : Accepts fails P v r v') :
    r = .admitted ↔ v.reload.locked = P ∨ v.reload.Free P := by
  cases h with
  | refused h hne => simp [h, hne]
  | same _ h => simp [h]
  | taken _ h => simp [h]
  | unwritten h _ => simp [h]

theorem Accepts.locked_eq (h : Accepts fails P v .admitted v') : v'.locked = P := by
  cases h with
  | same _ h => exact h
  | taken => rfl
  | unwritten => rfl

theorem Accepts.peers_eq (h : Accepts fails P v r v') :
    v'.peers = if r = .admitted then v.peers ++ [P] else v.peers := by
  cases h <;> simp [join]

end LockView

def SsServer.view (s : SsServer) (fs : Files Text) : LockView where
  locked := s.ip_lock.locked_ip
  cached := s.ip_lock.lock_file_mtime
  file := fs.file s.ip_lock.lock_file_path
  peers := s.connections.map (·.peer_ip)

structure SsServer.Ready (path : Text) (s : SsServer) : Prop where
  configured : s.ip_lock.Configured
  path_eq : s.ip_lock.lock_file_path = path

/-! ### The callbacks -/

section
variable {allow : Files Text → FileOp Text → Bool → Prop} {fails : Option Inode → Prop} {path : Text}
  {fs fs' : Files Text} {s s' : SsServer}

theorem SsServer.Ready.of_sameLock {L : IpLock} (h : s.Ready path) (hl : s.ip_lock.SameLock L) (cs : List ServerConn) :
    SsServer.Ready path ⟨L, cs⟩ :=
  ⟨hl.configured h.configured, hl.lock_path.trans h.path_eq⟩

theorem view_of_sameLock {L : IpLock} (hl : s.ip_lock.SameLock L)
    (hf : fs'.file s.ip_lock.lock_file_path = fs.file s.ip_lock.lock_file_path) :
    SsServer.view ⟨L, s.connections⟩ fs' = s.view fs := by
  simp only [SsServer.view, hl.locked, hl.mtime, hl.lock_path, hf]

theorem runs_update_ip_lock_status (h : s.Ready path)
    (hr : Runs (Files.Step allow) (update_ip_lock_status s) fs s' fs') :
    s'.Ready path ∧ s'.view fs' = s.view fs := by
  obtain ⟨L, fs₁, hw, hr⟩ := runs_bind.1 hr
  obtain ⟨rfl, rfl⟩ := runs_ret.1 hr
  obtain ⟨hl, hq⟩ := runs_ip_lock_write_status hw
  exact ⟨h.of_sameLock hl _, view_of_sameLock hl (hq _ h.configured.ne)⟩

theorem count_connections_pos {cs : List ServerConn} {ip : Text} (hip : ip ≠ []) :
    0 < count_connections_for_ip cs ip ↔ ip ∈ cs.map (·.peer_ip) := by
  simp only [count_connections_for_ip, hip, ↓reduceIte, List.countP_pos_iff, List.mem_map, ne_eq,
    Bool.decide_and, decide_not, Bool.and_eq_true, Bool.not_eq_true', decide_eq_false_iff_not,
    decide_eq_true_eq]
  constructor
  · rintro ⟨c, hc, -, rfl⟩
    exact ⟨c, hc, rfl⟩
  · rintro ⟨c, hc, rfl⟩
    exact ⟨c, hc, hip, rfl⟩

theorem runs_ip_lock_set_view {P : PeerName} {L : IpLock} (h : s.Ready path)
    (ha : ∀ fs, allow fs (.openW path) false → fails (fs.file path))
    (hr : Runs (Files.Step allow) (ip_lock_set s.ip_lock P.name) fs L fs') :
    SsServer.Ready path ⟨L, s.connections⟩ ∧
      ((∃ t, SsServer.view ⟨L, s.connections⟩ fs' =
          { s.view fs with locked := P.name, cached := t, file := some ⟨P.name ++ ['\n'], t⟩ }) ∨
        fails (fs.file path) ∧
          SsServer.view ⟨L, s.connections⟩ fs' = { s.view fs with locked := P.name }) := by
  have hp := h.path_eq
  obtain ⟨hl, he, hlp, hsp, hf⟩ := runs_ip_lock_set P.ne h.configured.lock_path hr
  rw [P.strncpyz_name] at hl hf
  refine ⟨⟨⟨he.trans h.configured.enabled, hlp ▸ h.configured.lock_path, ?_⟩, hlp.trans hp⟩, ?_⟩
  · rw [hlp, hsp]; exact h.configured.ne
  rcases hf with hf | ⟨hm, hag, hno⟩
  · exact .inl ⟨L.lock_file_mtime, by simp only [SsServer.view, hl, hlp, hf]⟩
  · rw [hp] at hno
    have := ha _ hno
    rw [hag.file_eq] at this
    exact .inr ⟨this, by simp only [SsServer.view, hl, hlp, hm, hag.file_eq]⟩

theorem view_reloaded (s : SsServer) (fs fs' : Files Text) (hag : fs.Aged fs') :
    SsServer.view ⟨s.ip_lock.reloaded (fs.file s.ip_lock.lock_file_path), s.connections⟩ fs' =
      (s.view fs).reload := by
  simp only [SsServer.view, LockView.reload, IpLock.reloaded_lock_path, hag.file_eq]
  cases hF : fs.file s.ip_lock.lock_file_path with
  | none => rfl
  | some f =>
    by_cases hm : f.mtime = s.ip_lock.lock_file_mtime
    · simp only [IpLock.reloaded_of_mtime_eq hm, hm, ↓reduceIte]
    · simp only [IpLock.reloaded_of_mtime_ne hm, hm, ↓reduceIte]

/-- The transition of the lock in `check_ip_lock_allowed`; the connection is not yet in the list. -/
theorem runs_check_ip_lock_allowed {P : PeerName} {ok : Bool} (h : s.Ready path)
    (ha : ∀ fs, allow fs (.openW path) false → fails (fs.file path))
    (hr : Runs (Files.Step allow) (check_ip_lock_allowed s P.name) fs (ok, s') fs') :
    s'.Ready path ∧
      if ok then LockView.Accepts fails P.name (s.view fs) .admitted ((s'.view fs').join P.name)
      else LockView.Accepts fails P.name (s.view fs) .blocked (s'.view fs') := by
  unfold check_ip_lock_allowed at hr
  simp only [h.configured.enabled, Bool.not_true, Bool.false_eq_true, ↓reduceIte, P.ne] at hr
  obtain ⟨L, fs₁, hre, hr⟩ := runs_bind.1 hr
  obtain ⟨hag, rfl⟩ := runs_ip_lock_reload h.configured.lock_path hre
  have hv := view_reloaded s fs fs₁ hag
  generalize hs₁ : (⟨s.ip_lock.reloaded (fs.file s.ip_lock.lock_file_path), s.connections⟩ : SsServer) = s₁
    at hr hv
  have h₁ : s₁.Ready path := by
    subst hs₁
    exact ⟨IpLock.reloaded_configured h.configured _, (IpLock.reloaded_lock_path _ _).trans h.path_eq⟩
  have hlock : s₁.ip_lock.locked_ip = (s.view fs).reload.locked := by rw [← hv]; rfl
  have hpeers : s₁.connections.map (·.peer_ip) = (s.view fs).reload.peers := by rw [← hv]; rfl
  have hfile : fs₁.file path = (s.view fs).file := by
    rw [hag.file_eq, ← h.path_eq]; rfl
  -- the two calls of `ip_lock_set` are the same transition
  have hset : ∀ L fs₂, (s.view fs).reload.Free P.name →
      Runs (Files.Step allow) (ip_lock_set s₁.ip_lock P.name) fs₁ L fs₂ →
      SsServer.Ready path ⟨L, s₁.connections⟩ ∧ LockView.Accepts fails P.name (s.view fs) .admitted
        ((SsServer.view ⟨L, s₁.connections⟩ fs₂).join P.name) := by
    intro L fs₂ hfree hset
    obtain ⟨hrdy, ⟨t, ht⟩ | ⟨hno, ht⟩⟩ := runs_ip_lock_set_view h₁ ha hset
    · refine ⟨hrdy, ?_⟩
      rw [ht, hv]
      have htaken : LockView.Accepts fails P.name (s.view fs) .admitted _ := .taken t hfree
      simpa only [LockView.join, LockView.reload_peers] using htaken
    · refine ⟨hrdy, ?_⟩
      rw [ht, hv]
      exact .unwritten hfree (hfile ▸ hno)
  unfold decideLock at hr
  rw [hlock] at hr
  by_cases hnil : (s.view fs).reload.locked = []
  · simp only [hnil, ↓reduceIte] at hr
    obtain ⟨L, fs₂, hst, hr⟩ := runs_bind.1 hr
    obtain ⟨hr, rfl⟩ := runs_ret.1 hr
    cases hr
    exact hset L _ (.inl hnil) hst
  simp only [hnil, ↓reduceIte] at hr
  by_cases hP : P.name = (s.view fs).reload.locked
  · simp only [← hP, ↓reduceIte] at hr
    obtain ⟨hr, rfl⟩ := runs_ret.1 hr
    cases hr
    refine ⟨h₁, ?_⟩
    simp only [↓reduceIte, hv]
    exact .same P.ne hP.symm
  simp only [hP, ↓reduceIte, count_connections_pos hnil, hpeers] at hr
  by_cases hlive : (s.view fs).reload.locked ∈ (s.view fs).reload.peers
  · simp only [hlive, ↓reduceIte] at hr
    obtain ⟨hr, rfl⟩ := runs_ret.1 hr
    cases hr
    refine ⟨h₁, ?_⟩
    simp only [Bool.false_eq_true, ↓reduceIte, hv]
    refine .refused ?_ (Ne.symm hP)
    rintro (h' | ⟨-, h'⟩)
    · exact hnil h'
    · exact h' hlive
  · simp only [hlive, ↓reduceIte] at hr
    obtain ⟨L, fs₂, hst, hr⟩ := runs_bind.1 hr
    obtain ⟨hr, rfl⟩ := runs_ret.1 hr
    cases hr
    exact hset L _ (.inr ⟨Ne.symm hP, hlive⟩) hst

theorem runs_acceptServer {P : PeerName} {r : AcceptResult} (h : s.Ready path)
    (hr : Runs (Files.Step allow) (acceptServer s (some P.name)) fs (r, s') fs') :
    r = .admitted ∧ s'.Ready path ∧ s'.view fs' = (s.view fs).join P.name := by
  unfold acceptServer at hr
  obtain ⟨s₁, fs₁, hu, hr⟩ := runs_bind.1 hr
  obtain ⟨hr, rfl⟩ := runs_ret.1 hr
  cases hr
  obtain ⟨hrdy, hv⟩ := runs_update_ip_lock_status
    (s := { s with connections := s.connections ++ [⟨strncpyz INET6_ADDRSTRLEN P.name⟩] })
    ⟨h.configured, h.path_eq⟩ hu
  refine ⟨rfl, hrdy, hv.trans ?_⟩
  simp [SsServer.view, LockView.join, P.strncpyz_name]

/-- Every run of `accept_cb` for a peer that the ACL lets through is a transition of the lock. -/
theorem runs_accept_cb {P : PeerName} {r : AcceptResult} (h : s.Ready path)
    (ha : ∀ fs, allow fs (.openW path) false → fails (fs.file path))
    (hr : Runs (Files.Step allow) (accept_cb s (some P.name) false) fs (r, s') fs') :
    s'.Ready path ∧ LockView.Accepts fails P.name (s.view fs) r (s'.view fs') := by
  unfold accept_cb at hr
  simp only [Bool.false_eq_true, ↓reduceIte] at hr
  obtain ⟨⟨ok, s₁⟩, fs₁, hc, hr⟩ := runs_bind.1 hr
  obtain ⟨h₁, hacc⟩ := runs_check_ip_lock_allowed h ha hc
  cases ok with
  | false =>
    simp only [Bool.false_eq_true, ↓reduceIte, Bool.not_false, h₁.configured.enabled] at hr hacc
    obtain ⟨L, fs₂, hb, hr⟩ := runs_bind.1 hr
    obtain ⟨hl, hag⟩ := runs_ip_lock_record_blocked hb
    obtain ⟨s₂, fs₃, hu, hr⟩ := runs_bind.1 hr
    obtain ⟨hr, rfl⟩ := runs_ret.1 hr
    cases hr
    obtain ⟨hrdy, hv⟩ := runs_update_ip_lock_status (h₁.of_sameLock hl _) hu
    rw [hv, view_of_sameLock hl (hag.file_eq _)]
    exact ⟨hrdy, hacc⟩
  | true =>
    simp only [↓reduceIte, Bool.not_true, Bool.false_eq_true, h₁.configured.enabled] at hr hacc
    obtain ⟨L, fs₂, hi, hr⟩ := runs_bind.1 hr
    obtain ⟨hl, hag⟩ := runs_ip_lock_record_incoming hi
    obtain ⟨rfl, hrdy, hv⟩ := runs_acceptServer (h₁.of_sameLock hl _) hr
    rw [hv, view_of_sameLock hl (hag.file_eq _)]
    exact ⟨hrdy, hacc⟩

theorem runs_accept_cb_denied {peer : Text} {r : AcceptResult}
    (hr : Runs (Files.Step allow) (accept_cb s (some peer) true) fs (r, s') fs') :
    r = .denied ∧ s' = s ∧ fs' = fs := by
  obtain ⟨hr, rfl⟩ := runs_ret.1 hr
  cases hr
  exact ⟨rfl, rfl, rfl⟩

theorem runs_close_and_free_server {i : Nat} (h : s.Ready path)
    (hr : Runs (Files.Step allow) (close_and_free_server s i) fs s' fs') :
    s'.Ready path ∧ s'.view fs' = { s.view fs with peers := (s.view fs).peers.eraseIdx i } := by
  obtain ⟨hrdy, hv⟩ := runs_update_ip_lock_status
    (s := { s with connections := s.connections.eraseIdx i }) ⟨h.configured, h.path_eq⟩ hr
  refine ⟨hrdy, hv.trans ?_⟩
  simp only [SsServer.view, List.eraseIdx_map]

theorem runs_stat_update_cb (h : s.Ready path)
    (hr : Runs (Files.Step allow) (stat_update_cb s) fs s' fs') :
    s'.Ready path ∧ s'.view fs' = s.view fs := by
  unfold stat_update_cb at hr
  simp only [h.configured.enabled, ↓reduceIte] at hr
  exact runs_update_ip_lock_status h hr

end

end OutlineServer
