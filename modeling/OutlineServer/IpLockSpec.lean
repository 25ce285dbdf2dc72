import OutlineServer.Accept

/-!
# What the lock functions do to the lock and to the lock file

One lemma per function of `ip_lock.c` and of the accept path, about its runs with no other process
in between: the lock's state after it, and the lock file after it. Only `ip_lock_set` changes the
lock file; everything that writes the status file leaves `locked_ip`, the cached `st_mtime` and the
lock file alone (`IpLock.SameLock`).
-/

namespace OutlineServer
open Prog Files

/-- Everything but the recent-address lists is unchanged. -/
structure IpLock.SameLock (s s' : IpLock) : Prop where
  enabled : s'.ip_lock_enabled = s.ip_lock_enabled
  lock_path : s'.lock_file_path = s.lock_file_path
  status_path : s'.status_file_path = s.status_file_path
  locked : s'.locked_ip = s.locked_ip
  mtime : s'.lock_file_mtime = s.lock_file_mtime

structure IpLock.Configured (s : IpLock) : Prop where
  enabled : s.ip_lock_enabled = true
  lock_path : s.lock_file_path ≠ []
  ne : s.lock_file_path ≠ s.status_file_path

namespace IpLock
variable {s s' s'' : IpLock}

theorem SameLock.refl (s : IpLock) : s.SameLock s := ⟨rfl, rfl, rfl, rfl, rfl⟩

theorem SameLock.configured (h : s.SameLock s') (hc : s.Configured) : s'.Configured :=
  ⟨h.enabled.trans hc.enabled, by rw [h.lock_path]; exact hc.lock_path,
    by rw [h.lock_path, h.status_path]; exact hc.ne⟩

/-- The lock after `ip_lock_reload` has looked at the file `F`. -/
def reloaded (s : IpLock) (F : Option Inode) : IpLock :=
  match F with
  | none =>
    let s := if s.locked_ip ≠ [] then s.ip_lock_reset_recent_lists else s
    { s with locked_ip := [], lock_file_mtime := 0 }
  | some f =>
    if f.mtime = s.lock_file_mtime then s
    else
      let s' := { s with lock_file_mtime := f.mtime, locked_ip := readLock f.content }
      if s.locked_ip ≠ s'.locked_ip then s'.ip_lock_reset_recent_lists else s'

theorem reloaded_configured (hc : s.Configured) (F : Option Inode) : (s.reloaded F).Configured := by
  cases F with
  | none => simp only [reloaded]; split <;> exact ⟨hc.enabled, hc.lock_path, hc.ne⟩
  | some f =>
    simp only [reloaded]
    split
    · exact hc
    · split <;> exact ⟨hc.enabled, hc.lock_path, hc.ne⟩

theorem reloaded_lock_path (s : IpLock) (F : Option Inode) :
    (s.reloaded F).lock_file_path = s.lock_file_path := by
  cases F with
  | none => simp only [reloaded]; split <;> rfl
  | some f =>
    simp only [reloaded]
    split
    · rfl
    · split <;> rfl

theorem reloaded_of_mtime_eq {f : Inode} (h : f.mtime = s.lock_file_mtime) : s.reloaded (some f) = s := by
  simp [reloaded, h]

theorem reloaded_of_mtime_ne {f : Inode} (h : f.mtime ≠ s.lock_file_mtime) :
    (s.reloaded (some f)).locked_ip = readLock f.content ∧
      (s.reloaded (some f)).lock_file_mtime = f.mtime := by
  simp only [reloaded, h, ↓reduceIte]
  split <;> exact ⟨rfl, rfl⟩

end IpLock

section
variable {allow : Files Text → FileOp Text → Bool → Prop} {fs fs' : Files Text} {s s' : IpLock}

theorem runs_ip_lock_reload (hp : s.lock_file_path ≠ [])
    (h : Runs (Files.Step allow) (ip_lock_reload s) fs s' fs') :
    fs.Aged fs' ∧ s' = s.reloaded (fs.file s.lock_file_path) := by
  unfold ip_lock_reload at h
  simp only [hp, ↓reduceIte] at h
  obtain ⟨r, fs₁, hst, h⟩ := runs_bind.1 h
  obtain ⟨h₁, rfl⟩ := step_stat (runs_op.1 hst)
  cases hF : fs.file s.lock_file_path with
  | none =>
    rw [hF] at h
    obtain ⟨rfl, rfl⟩ := runs_ret.1 h
    exact ⟨h₁, rfl⟩
  | some f =>
    rw [hF] at h
    simp only [Option.map_some] at h
    by_cases hm : f.mtime = s.lock_file_mtime
    · simp only [hm, ↓reduceIte] at h
      obtain ⟨rfl, rfl⟩ := runs_ret.1 h
      exact ⟨h₁, (IpLock.reloaded_of_mtime_eq hm).symm⟩
    · simp only [hm, ↓reduceIte] at h
      obtain ⟨r, fs₂, hop, h⟩ := runs_bind.1 h
      obtain ⟨h₂, rfl⟩ := step_openR (runs_op.1 hop)
      cases hd : fs₁.dir s.lock_file_path with
      | none =>
        rw [h₁.dir_eq, ← file_eq_none, hF] at hd
        cases hd
      | some i =>
        rw [hd] at h
        obtain ⟨content, fs₃, hre, h⟩ := runs_bind.1 h
        obtain ⟨h₃, rfl⟩ := step_read (runs_op.1 hre)
        have hc : (fs₂.inode i).content = f.content := by
          rw [h₁.dir_eq] at hd
          rw [file_of_dir hd] at hF
          rw [h₂.inode_eq, h₁.inode_eq, Option.some.inj hF]
        rw [hc] at h
        have h₁₃ := (h₁.trans h₂).trans h₃
        simp only [IpLock.reloaded, hm, ↓reduceIte]
        split at h
        · obtain ⟨rfl, rfl⟩ := runs_ret.1 h
          exact ⟨h₁₃, by simp_all⟩
        · obtain ⟨rfl, rfl⟩ := runs_ret.1 h
          exact ⟨h₁₃, by simp_all⟩

/-- `ip_lock_set` locks to `ip` in memory. Then it either makes the lock file hold `ip` and caches
its new time, or its `fopen` fails and the file stays. -/
theorem runs_ip_lock_set {ip : Text} (hip : ip ≠ []) (hp : s.lock_file_path ≠ [])
    (h : Runs (Files.Step allow) (ip_lock_set s ip) fs s' fs') :
    s'.locked_ip = strncpyz INET6_ADDRSTRLEN ip ∧ s'.ip_lock_enabled = s.ip_lock_enabled ∧
      s'.lock_file_path = s.lock_file_path ∧ s'.status_file_path = s.status_file_path ∧
      ((fs'.file s.lock_file_path =
            some ⟨strncpyz INET6_ADDRSTRLEN ip ++ ['\n'], s'.lock_file_mtime⟩) ∨
        (s'.lock_file_mtime = s.lock_file_mtime ∧ fs.Aged fs' ∧
          allow fs' (.openW s.lock_file_path) false)) := by
  unfold ip_lock_set at h
  simp only [hip, ↓reduceIte] at h
  obtain ⟨s₁, hs₁, he, hl, hs, hm⟩ : ∃ s₁ : IpLock,
      s₁ = (if s.locked_ip ≠ [] ∧ s.locked_ip ≠ ip then s.ip_lock_reset_recent_lists else s) ∧
      s₁.ip_lock_enabled = s.ip_lock_enabled ∧ s₁.lock_file_path = s.lock_file_path ∧
      s₁.status_file_path = s.status_file_path ∧ s₁.lock_file_mtime = s.lock_file_mtime := by
    refine ⟨_, rfl, ?_⟩
    split <;> exact ⟨rfl, rfl, rfl, rfl⟩
  rw [← hs₁, hl] at h
  simp only [hp, ↓reduceIte] at h
  obtain ⟨r, fs₁, hop, h⟩ := runs_bind.1 h
  rcases step_openW (runs_op.1 hop) with ⟨rfl, h₁, ha⟩ | ⟨i, rfl, hd, hf, -⟩
  · obtain ⟨rfl, rfl⟩ := runs_ret.1 h
    exact ⟨rfl, he, rfl, hs, .inr ⟨hm, h₁, ha⟩⟩
  · obtain ⟨u, fs₂, hw, h⟩ := runs_bind.1 h
    obtain ⟨hw, -⟩ := step_write_empty hd hf (runs_op.1 hw)
    obtain ⟨r, fs₃, hst, h⟩ := runs_bind.1 h
    obtain ⟨h₃, rfl⟩ := step_stat (runs_op.1 hst)
    simp only [hw, Option.map_some] at h
    obtain ⟨rfl, rfl⟩ := runs_ret.1 h
    exact ⟨rfl, he, rfl, hs, .inl (by rw [h₃.file_eq, hw])⟩

theorem runs_ip_lock_record_incoming {ip : Text}
    (h : Runs (Files.Step allow) (ip_lock_record_incoming s ip) fs s' fs') :
    s.SameLock s' ∧ fs.Aged fs' := by
  unfold ip_lock_record_incoming at h
  split at h
  · obtain ⟨rfl, rfl⟩ := runs_ret.1 h
    exact ⟨.refl _, .refl _⟩
  · obtain ⟨now, fs₁, ht, h⟩ := runs_bind.1 h
    obtain ⟨rfl, rfl⟩ := runs_ret.1 h
    exact ⟨⟨rfl, rfl, rfl, rfl, rfl⟩, (step_time (runs_op.1 ht)).1⟩

theorem runs_ip_lock_record_blocked {ip : Text}
    (h : Runs (Files.Step allow) (ip_lock_record_blocked s ip) fs s' fs') :
    s.SameLock s' ∧ fs.Aged fs' := by
  unfold ip_lock_record_blocked at h
  split at h
  · obtain ⟨rfl, rfl⟩ := runs_ret.1 h
    exact ⟨.refl _, .refl _⟩
  · obtain ⟨now, fs₁, ht, h⟩ := runs_bind.1 h
    obtain ⟨rfl, rfl⟩ := runs_ret.1 h
    exact ⟨⟨rfl, rfl, rfl, rfl, rfl⟩, (step_time (runs_op.1 ht)).1⟩

theorem runs_ip_lock_write_status {total : Nat} {ips : List Text}
    (h : Runs (Files.Step allow) (ip_lock_write_status s total ips) fs s' fs') :
    s.SameLock s' ∧ ∀ q, q ≠ s.status_file_path → fs'.file q = fs.file q := by
  unfold ip_lock_write_status at h
  obtain ⟨now, fs₁, ht, h⟩ := runs_bind.1 h
  have h₁ := (step_time (runs_op.1 ht)).1
  split at h
  · obtain ⟨rfl, rfl⟩ := runs_ret.1 h
    exact ⟨.refl _, fun q _ => h₁.file_eq q⟩
  · obtain ⟨r, fs₂, hop, h⟩ := runs_bind.1 h
    rcases step_openW (runs_op.1 hop) with ⟨rfl, h₂, -⟩ | ⟨i, rfl, hd, hf, hq⟩
    · obtain ⟨rfl, rfl⟩ := runs_ret.1 h
      exact ⟨⟨rfl, rfl, rfl, rfl, rfl⟩, fun q _ => (h₁.trans h₂).file_eq q⟩
    · obtain ⟨u, fs₃, hw, h⟩ := runs_bind.1 h
      obtain ⟨rfl, rfl⟩ := runs_ret.1 h
      exact ⟨⟨rfl, rfl, rfl, rfl, rfl⟩, fun q hne => by
        rw [(step_write_empty hd hf (runs_op.1 hw)).2 q hne, hq q hne, h₁.file_eq]⟩

end

end OutlineServer
