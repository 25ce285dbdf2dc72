import OutlineServer.IpLockSpec
import OutlineServer.LockView

/-!
# What the lock functions do whatever the files hold

The facts about `ip_lock.c` and the accept path that need nothing about the files, so that they hold
while another process writes the lock file: the configuration stays, nothing is unlinked, and whoever
`accept_cb` admits is the locked address and in the list.
-/

namespace OutlineServer
open Prog

structure IpLock.SameConfig (s s' : IpLock) : Prop where
  enabled : s'.ip_lock_enabled = s.ip_lock_enabled
  lock_path : s'.lock_file_path = s.lock_file_path
  status_path : s'.status_file_path = s.status_file_path

theorem IpLock.SameLock.sameConfig {s s' : IpLock} (h : s.SameLock s') : s.SameConfig s' :=
  ⟨h.enabled, h.lock_path, h.status_path⟩

theorem IpLock.SameConfig.refl (s : IpLock) : s.SameConfig s := ⟨rfl, rfl, rfl⟩

theorem IpLock.SameConfig.trans {s s' s'' : IpLock} (h : s.SameConfig s') (h' : s'.SameConfig s'') :
    s.SameConfig s'' :=
  ⟨h'.enabled.trans h.enabled, h'.lock_path.trans h.lock_path, h'.status_path.trans h.status_path⟩

/-- Operations of a program that removes no file. -/
def NoUnlink (o : FileOp Text) : Prop := ∀ p, o ≠ .unlink p

theorem within_ip_lock_reload (s : IpLock) : (ip_lock_reload s).Within NoUnlink s.SameConfig := by
  unfold ip_lock_reload
  split
  · exact within_pure (.refl s)
  refine within_op_bind (by simp [NoUnlink]) fun r => ?_
  cases r with
  | none =>
    refine within_pure ?_
    split <;> exact ⟨rfl, rfl, rfl⟩
  | some t =>
    simp only
    split
    · exact within_pure (.refl s)
    refine within_op_bind (by simp [NoUnlink]) fun r => ?_
    cases r with
    | none => exact within_pure ⟨rfl, rfl, rfl⟩
    | some f =>
      refine within_op_bind (by simp [NoUnlink]) fun content => ?_
      split <;> exact within_pure ⟨rfl, rfl, rfl⟩

theorem within_ip_lock_set (s : IpLock) (ip : Text) :
    (ip_lock_set s ip).Within NoUnlink fun s' =>
      s.SameConfig s' ∧ (ip ≠ [] → s'.locked_ip = strncpyz INET6_ADDRSTRLEN ip) := by
  unfold ip_lock_set
  split
  · rename_i h
    exact within_pure ⟨.refl s, fun hne => absurd h hne⟩
  have hs : s.SameConfig (if s.locked_ip ≠ [] ∧ s.locked_ip ≠ ip then s.ip_lock_reset_recent_lists else s) := by
    split <;> exact ⟨rfl, rfl, rfl⟩
  generalize (if s.locked_ip ≠ [] ∧ s.locked_ip ≠ ip then s.ip_lock_reset_recent_lists else s) = s₁ at hs ⊢
  have hset : ∀ t, s.SameConfig { s₁ with locked_ip := strncpyz INET6_ADDRSTRLEN ip, lock_file_mtime := t } ∧
      (ip ≠ [] → strncpyz INET6_ADDRSTRLEN ip = strncpyz INET6_ADDRSTRLEN ip) :=
    fun t => ⟨⟨hs.enabled, hs.lock_path, hs.status_path⟩, fun _ => rfl⟩
  simp only
  split
  · exact within_pure (hset _)
  refine within_op_bind (by simp [NoUnlink]) fun r => ?_
  cases r with
  | none => exact within_pure (hset _)
  | some f =>
    refine within_op_bind (by simp [NoUnlink]) fun _ => within_op_bind (by simp [NoUnlink]) fun r => ?_
    cases r <;> exact within_pure (hset _)

theorem within_ip_lock_record_incoming (s : IpLock) (ip : Text) :
    (ip_lock_record_incoming s ip).Within NoUnlink s.SameLock := by
  unfold ip_lock_record_incoming
  split
  · exact within_pure (.refl s)
  · exact within_op_bind (by simp [NoUnlink]) fun _ => within_pure ⟨rfl, rfl, rfl, rfl, rfl⟩

theorem within_ip_lock_record_blocked (s : IpLock) (ip : Text) :
    (ip_lock_record_blocked s ip).Within NoUnlink s.SameLock := by
  unfold ip_lock_record_blocked
  split
  · exact within_pure (.refl s)
  · exact within_op_bind (by simp [NoUnlink]) fun _ => within_pure ⟨rfl, rfl, rfl, rfl, rfl⟩

theorem within_ip_lock_write_status (s : IpLock) (total : Nat) (ips : List Text) :
    (ip_lock_write_status s total ips).Within NoUnlink s.SameLock := by
  unfold ip_lock_write_status
  refine within_op_bind (by simp [NoUnlink]) fun _ => ?_
  split
  · exact within_pure (.refl s)
  refine within_op_bind (by simp [NoUnlink]) fun r => ?_
  cases r with
  | none => exact within_pure ⟨rfl, rfl, rfl, rfl, rfl⟩
  | some f => exact within_op_bind (by simp [NoUnlink]) fun _ => within_pure ⟨rfl, rfl, rfl, rfl, rfl⟩

/-! ### The callbacks of `server.c` -/

theorem within_update_ip_lock_status (s : SsServer) :
    (update_ip_lock_status s).Within NoUnlink fun s' =>
      s.ip_lock.SameLock s'.ip_lock ∧ s'.connections = s.connections :=
  (within_ip_lock_write_status _ _ _).bind fun _ h => within_pure ⟨h, rfl⟩

theorem within_check_ip_lock_allowed {s : SsServer} (P : PeerName) (he : s.ip_lock.ip_lock_enabled = true) :
    (check_ip_lock_allowed s P.name).Within NoUnlink fun r =>
      s.ip_lock.SameConfig r.2.ip_lock ∧ r.2.connections = s.connections ∧
        (r.1 = true → r.2.ip_lock.locked_ip = P.name) := by
  unfold check_ip_lock_allowed
  simp only [he, Bool.not_true, Bool.false_eq_true, ↓reduceIte, P.ne]
  refine (within_ip_lock_reload s.ip_lock).bind fun L hL => ?_
  have hset : ((ip_lock_set L P.name >>= fun ip_lock =>
      pure (true, { s with ip_lock })) : FsProg (Bool × SsServer)).Within NoUnlink fun r =>
        s.ip_lock.SameConfig r.2.ip_lock ∧ r.2.connections = s.connections ∧
          (r.1 = true → r.2.ip_lock.locked_ip = P.name) :=
    (within_ip_lock_set L P.name).bind fun L' h =>
      within_pure ⟨hL.trans h.1, rfl, fun _ => (h.2 P.ne).trans P.strncpyz_name⟩
  unfold decideLock
  simp only
  split
  · exact hset
  split
  · rename_i h
    exact within_pure ⟨hL, rfl, fun _ => h.symm⟩
  split
  · exact within_pure ⟨hL, rfl, fun h => Bool.noConfusion h⟩
  · exact hset

/-- What an accept of `P` by `s` leaves, whatever the files hold. -/
structure SsServer.Accepted (s : SsServer) (P : PeerName) (r : AcceptResult) (s' : SsServer) : Prop where
  config : s.ip_lock.SameConfig s'.ip_lock
  admitted : r = .admitted → s'.connections = s.connections ++ [⟨P.name⟩] ∧ s'.ip_lock.locked_ip = P.name
  refused : r ≠ .admitted → s'.connections = s.connections

theorem within_acceptServer {s : SsServer} {P : PeerName} (h : s.ip_lock.locked_ip = P.name) :
    (acceptServer s (some P.name)).Within NoUnlink fun r => s.Accepted P r.1 r.2 := by
  refine (within_update_ip_lock_status _).bind fun s' hs' => within_pure ?_
  refine ⟨hs'.1.sameConfig, fun _ => ⟨?_, hs'.1.locked.trans h⟩, fun h => absurd rfl h⟩
  simp [hs'.2, P.strncpyz_name]

theorem within_accept_cb {s : SsServer} (P : PeerName) (d : Bool) (he : s.ip_lock.ip_lock_enabled = true) :
    (accept_cb s (some P.name) d).Within NoUnlink fun r => s.Accepted P r.1 r.2 := by
  unfold accept_cb
  simp only
  split
  · exact within_pure ⟨.refl _, fun h => AcceptResult.noConfusion h, fun _ => rfl⟩
  refine (within_check_ip_lock_allowed P he).bind fun r hr => ?_
  obtain ⟨ok, s₁⟩ := r
  obtain ⟨hc, hconn, hl⟩ := hr
  have he₁ : s₁.ip_lock.ip_lock_enabled = true := hc.enabled.trans he
  cases ok with
  | false =>
    simp only [Bool.not_false, ↓reduceIte, he₁]
    refine (within_ip_lock_record_blocked _ _).bind fun L hL => ?_
    refine (within_update_ip_lock_status _).bind fun s₂ hs₂ => within_pure ?_
    exact ⟨(hc.trans hL.sameConfig).trans hs₂.1.sameConfig, fun h => AcceptResult.noConfusion h,
      fun _ => hs₂.2.trans hconn⟩
  | true =>
    simp only [Bool.not_true, Bool.false_eq_true, ↓reduceIte, he₁]
    refine (within_ip_lock_record_incoming _ _).bind fun L hL => ?_
    refine (within_acceptServer (hL.locked.trans (hl rfl))).mono fun r hr => ?_
    exact ⟨(hc.trans hL.sameConfig).trans hr.config, fun h => hconn ▸ hr.admitted h,
      fun h => (hr.refused h).trans hconn⟩

theorem within_close_and_free_server (s : SsServer) (i : Nat) :
    (close_and_free_server s i).Within NoUnlink fun s' =>
      s.ip_lock.SameLock s'.ip_lock ∧ s'.connections = s.connections.eraseIdx i :=
  within_update_ip_lock_status { s with connections := s.connections.eraseIdx i }

theorem within_stat_update_cb (s : SsServer) :
    (stat_update_cb s).Within NoUnlink fun s' =>
      s.ip_lock.SameLock s'.ip_lock ∧ s'.connections = s.connections := by
  unfold stat_update_cb
  split
  · exact within_update_ip_lock_status s
  · exact within_pure ⟨.refl _, rfl⟩

end OutlineServer
