import OutlineServer.SidecarFiles
import OutlineServer.Lib.Json

/-!
# What `ip_status` answers

`statusReply` is the reply as a function of the two sidecar files: the lock file as `readLockLine` finds it
and the status file as it is at the last operation of `read_port_status` (`rely_read_port_status`). The
address that a reply reports is the string after its first key (`reportedLock`).
-/

namespace OutlineServer
open Prog Files

/-- The lock file as `read_port_status` reads it. -/
def lockText (F : Option Inode) : Text := (F.map fun f => lockLine f.content).getD []

def statusReply (F status : Option Inode) : Text :=
  match status with
  | none => snprintf [] (IP_LOCK_STATUS_JSON_MAX + 128) 0 (statusFallback (lockText F))
  | some f =>
    if statusBody f.content ≠ [] then snprintf [] (IP_LOCK_STATUS_JSON_MAX + 128) 0 (statusBody f.content)
    else snprintf [] (IP_LOCK_STATUS_JSON_MAX + 128) 0 (statusFallback (lockText F))

/-! ### Reading the files -/

/-- What may happen to the files while the manager reads them: the lock file stays `F`, and nothing is
unlinked. -/
structure Spares (port : Port) (F : Option Inode) (fs fs' : Files Text) : Prop where
  lock : fs'.file port.lockPath = F
  lock_dir : ∀ i, fs.dir port.lockPath = some i → fs'.dir port.lockPath = some i
  status_dir : ∀ i, fs.dir port.statusPath = some i → fs'.dir port.statusPath = some i

theorem Spares.trans {port : Port} {F : Option Inode} {fs fs' fs'' : Files Text} (h : Spares port F fs fs')
    (h' : Spares port F fs' fs'') : Spares port F fs fs'' :=
  ⟨h'.lock, fun i hi => h'.lock_dir i (h.lock_dir i hi), fun i hi => h'.status_dir i (h.status_dir i hi)⟩

section
variable {port : Port} {allow : Files Text → FileOp Text → Bool → Prop} {F : Option Inode} {fs : Files Text}

theorem rely_readLockLine {Q : Text → Files Text → Prop}
    (hQ : ∀ fs', Spares port F fs fs' → Q (lockText F) fs') :
    (readLockLine port.lockPath).Rely (Files.Step allow) (Spares port F) Q fs := by
  unfold readLockLine
  refine rely_op_bind fun fs₁ r fs₂ h₁ hs => ?_
  obtain ⟨hage, rfl⟩ := step_openR hs
  have h₂ : Spares port F fs₁ fs₂ :=
    ⟨(hage.file_eq _).trans h₁.lock, fun i hi => (hage.dir_eq _).trans hi, fun i hi => (hage.dir_eq _).trans hi⟩
  cases hd : fs₁.dir port.lockPath with
  | none =>
    have hF : lockText F = [] := by rw [← h₁.lock, file_eq_none.2 hd]; rfl
    have := hQ fs₂ (h₁.trans h₂)
    rw [hF] at this
    exact this
  | some i =>
    refine rely_op_bind fun fs₃ content fs₄ h₃ hr => ?_
    obtain ⟨hage', rfl⟩ := step_read hr
    have hd₃ := h₃.lock_dir i (h₂.lock_dir i hd)
    have hF : lockText F = lockLine (fs₃.inode i).content := by rw [← h₃.lock, file_of_dir hd₃]; rfl
    have h₄ : Spares port F fs₃ fs₄ :=
      ⟨(hage'.file_eq _).trans h₃.lock, fun i hi => (hage'.dir_eq _).trans hi,
        fun i hi => (hage'.dir_eq _).trans hi⟩
    have := hQ fs₄ (((h₁.trans h₂).trans h₃).trans h₄)
    rw [hF] at this
    exact this

/-- The reply is made from the status file as it is at the last operation. -/
theorem rely_read_port_status :
    (read_port_status port.text (IP_LOCK_STATUS_JSON_MAX + 128)).Rely (Files.Step allow) (Spares port F)
      (fun out fs' => out = statusReply F (fs'.file port.statusPath)) fs := by
  have hpath : ip_lock_sidecar_path port.text "ipstatus".toList = port.statusPath := rfl
  unfold read_port_status
  rw [hpath]
  refine Rely.bind (rely_readLockLine fun fs' _ => ?_)
  refine rely_op_bind fun fs₁ r fs₂ h₁ hs => ?_
  obtain ⟨hage, rfl⟩ := step_openR hs
  cases hd : fs₁.dir port.statusPath with
  | none =>
    have hst : fs₂.file port.statusPath = none := (hage.file_eq _).trans (file_eq_none.2 hd)
    change _ = statusReply F _
    rw [hst]
    rfl
  | some i =>
    refine rely_op_bind fun fs₃ content fs₄ h₃ hr => ?_
    obtain ⟨hage', rfl⟩ := step_read hr
    have hd₃ := h₃.status_dir i ((hage.dir_eq _).trans hd)
    have hst : fs₄.file port.statusPath = some (fs₃.inode i) := (hage'.file_eq _).trans (file_of_dir hd₃)
    simp only
    split
    · rename_i hb
      change _ = statusReply F _
      rw [hst, statusReply, if_pos hb]
    · rename_i hb
      change _ = statusReply F _
      rw [hst, statusReply, if_neg hb]

end

/-! ### The address reported -/

def reportPrefix : Text := "\x7b\"locked_ip\":\"".toList

theorem reportPrefix_eq : reportPrefix = "\x7b\"locked_ip\":\"".toList := rfl

theorem length_reportPrefix : reportPrefix.length = 14 := by
  rw [reportPrefix_eq]
  simp

/-- The string after the first key of a reply. -/
def reportedLock (reply : Text) : Option Text :=
  if reportPrefix <+: reply then (Json.string (reply.drop reportPrefix.length)).map Prod.fst else none

/-- An address that needs no escape in a JSON string. -/
def PlainAddr (A : Text) : Prop := ∀ c ∈ A, c ≠ '"' ∧ c ≠ '\\' ∧ Json.isControl c = false

def NoControl (A : Text) : Prop := ∀ c ∈ A, Json.isControl c = false

instance (A : Text) : Decidable (PlainAddr A) := List.decidableBAll _ A

instance (A : Text) : Decidable (NoControl A) := List.decidableBAll _ A

theorem noControl_nul {A : Text} (h : NoControl A) : '\x00' ∉ A := fun hmem => by
  have := h _ hmem
  cases this

theorem reportedLock_append (t : Text) : reportedLock (reportPrefix ++ t) = (Json.string t).map Prod.fst := by
  rw [reportedLock, if_pos (List.prefix_append _ _), List.drop_left]

theorem json_escape_eq {L : Text} {n pos : Nat} (h : pos + 2 * L.length < n) :
    ip_lock_json_escape n L pos = Json.escape L := by
  induction L generalizing pos with
  | nil => rfl
  | cons c L ih =>
    simp only [List.length_cons] at h
    rw [ip_lock_json_escape, Json.escape, if_pos (by omega)]
    split
    · rw [if_neg (by omega), ih (by omega)]
    · rw [ih (by omega)]

/-- An escaped address that fits its array is whole. -/
theorem locked_esc_eq {L : Text} (h : L.length < INET6_ADDRSTRLEN) :
    ip_lock_json_escape (INET6_ADDRSTRLEN * 2) L 0 = Json.escape L :=
  json_escape_eq (by simp only [INET6_ADDRSTRLEN] at h ⊢; omega)

theorem length_escape_le (L : Text) : (Json.escape L).length ≤ 2 * L.length := by
  rw [Json.length_escape]
  have := List.countP_le_length (p := fun c : Char => decide (c = '"' ∨ c = '\\')) (l := L)
  omega

theorem mem_escape {L : Text} {c : Char} (h : c ∈ Json.escape L) : c ∈ L ∨ c = '\\' := by
  induction L with
  | nil => cases h
  | cons d L ih =>
    rw [Json.escape] at h
    split at h
    · rcases List.mem_cons.1 h with rfl | h
      · exact .inr rfl
      rcases List.mem_cons.1 h with rfl | h
      · exact .inl List.mem_cons_self
      · exact (ih h).imp_left (List.mem_cons_of_mem _)
    · rcases List.mem_cons.1 h with rfl | h
      · exact .inl List.mem_cons_self
      · exact (ih h).imp_left (List.mem_cons_of_mem _)

/-- What `snprintf` into the reply buffer keeps of a text that fits. -/
theorem snprintf_reply {t : Text} (h : t.length < IP_LOCK_STATUS_JSON_MAX + 128) :
    snprintf [] (IP_LOCK_STATUS_JSON_MAX + 128) 0 t = t := by
  simp only [snprintf, size_t_sub, IP_LOCK_STATUS_JSON_MAX] at h ⊢
  exact List.take_of_length_le (by omega)

theorem length_statusBody_le (content : Text) : (statusBody content).length < IP_LOCK_STATUS_JSON_MAX + 64 := by
  have h := (List.takeWhile_prefix (fun c : Char => decide (c ≠ '\x00'))
    (l := content.take (IP_LOCK_STATUS_JSON_MAX + 64 - 1))).length_le
  rw [List.length_take] at h
  simp only [statusBody, IP_LOCK_STATUS_JSON_MAX] at h ⊢
  omega

/-- The start of a status file that has no NUL is read whole if it fits. -/
theorem statusBody_append {u : Text} (hlen : u.length < IP_LOCK_STATUS_JSON_MAX + 64) (hnul : '\x00' ∉ u)
    (t : Text) : ∃ t', statusBody (u ++ t) = u ++ t' := by
  have hall : ∀ c ∈ u, decide (c ≠ '\x00') = true := by
    intro c hc
    simp only [ne_eq, decide_eq_true_eq]
    rintro rfl
    exact hnul hc
  rw [statusBody, List.take_append, List.take_of_length_le (by simp only [IP_LOCK_STATUS_JSON_MAX] at hlen ⊢; omega),
    List.takeWhile_append_of_pos hall]
  exact ⟨_, rfl⟩

theorem statusLine_eq (L : Text) (total : Nat) (active incoming blocked : Text) :
    ∃ t, statusLine L total active incoming blocked = reportPrefix ++ (L ++ '"' :: t) := by
  have hq : "\",\"connections\":".toList = '"' :: ",\"connections\":".toList := by simp
  refine ⟨",\"connections\":".toList ++ (Nat.repr total).toList ++ ",\"active_ips\":".toList ++ active ++
    ",\"recent_incoming\":".toList ++ incoming ++ ",\"blocked_ips\":".toList ++ blocked ++ "\x7d\n".toList, ?_⟩
  unfold statusLine
  simp only [hq, reportPrefix_eq, List.append_assoc, List.cons_append]

/-- A status file for `L` reports `L`, unless it has a control character: then it reports nothing. -/
theorem reportedLock_statusBody {L content : Text} (hlen : L.length < INET6_ADDRSTRLEN) (hnul : '\x00' ∉ L)
    (h : StatusOf L content) :
    statusBody content ≠ [] ∧ reportedLock (statusBody content) = if NoControl L then some L else none := by
  obtain ⟨total, active, incoming, blocked, rfl⟩ := h
  obtain ⟨t, ht⟩ := statusLine_eq (ip_lock_json_escape (INET6_ADDRSTRLEN * 2) L 0) total active incoming blocked
  rw [ht, locked_esc_eq hlen]
  have hesc := length_escape_le L
  have hpre := length_reportPrefix
  have hu : reportPrefix ++ (Json.escape L ++ '"' :: t) = (reportPrefix ++ Json.escape L ++ ['"']) ++ t := by simp
  obtain ⟨t', ht'⟩ := statusBody_append (u := reportPrefix ++ Json.escape L ++ ['"']) (by
    simp only [List.length_append, List.length_cons, List.length_nil, hpre, IP_LOCK_STATUS_JSON_MAX,
      INET6_ADDRSTRLEN] at hlen ⊢
    omega) (by
    have hp : '\x00' ∉ reportPrefix := by rw [reportPrefix_eq]; simp
    simp only [List.mem_append, List.mem_singleton, Char.reduceEq, or_false, not_or]
    refine ⟨hp, fun hmem => ?_⟩
    rcases mem_escape hmem with hmem | hmem
    · exact hnul hmem
    · cases hmem) t
  rw [hu, ht']
  refine ⟨by simp, ?_⟩
  rw [List.append_assoc, List.append_assoc, reportedLock_append, List.singleton_append]
  split
  · rename_i hc
    rw [Json.string_escape hc]
    rfl
  · rename_i hc
    have hex : ∃ c ∈ L, Json.isControl c = true := by
      simpa [NoControl] using hc
    rw [Json.string_escape_control hex]
    rfl

/-! ### The fallback -/

theorem statusFallback_eq (B : Text) : ∃ t, statusFallback B = reportPrefix ++ (B ++ '"' :: ',' :: '"' :: t) := by
  have hq : "\",\"connections\":0,\"active_ips\":[],\"recent_incoming\":[],\"blocked_ips\":[]\x7d".toList =
      '"' :: ',' :: '"' ::
        "connections\":0,\"active_ips\":[],\"recent_incoming\":[],\"blocked_ips\":[]\x7d".toList := by simp
  refine ⟨"connections\":0,\"active_ips\":[],\"recent_incoming\":[],\"blocked_ips\":[]\x7d".toList, ?_⟩
  unfold statusFallback
  simp only [hq, reportPrefix_eq, List.append_assoc]

theorem length_statusFallback (B : Text) : (statusFallback B).length = B.length + 86 := by
  unfold statusFallback
  simp only [List.length_append]
  simp
  omega

theorem escape_of_plain {A : Text} (h : PlainAddr A) : Json.escape A = A := by
  induction A with
  | nil => rfl
  | cons c A ih =>
    obtain ⟨hq, hb, -⟩ := h c List.mem_cons_self
    rw [Json.escape, if_neg (not_or.2 ⟨hq, hb⟩), ih fun d hd => h d (List.mem_cons_of_mem _ hd)]

/-- The fallback puts the text `B` between quotes as it is: it reports an address that `B` starts if and only
if this is `B`, and needs no escape. -/
theorem reportedLock_fallback {A B : Text} (h : B <+: A) :
    reportedLock (statusFallback B) = some A ↔ B = A ∧ PlainAddr A := by
  obtain ⟨t, ht⟩ := statusFallback_eq B
  rw [ht, reportedLock_append, Option.map_eq_some_iff]
  constructor
  · rintro ⟨r, hr, rfl⟩
    rcases Json.string_raw hr with ⟨hle, hplain⟩ | ⟨b, a, rfl, ha, hle⟩
    · have hBA : B = r.1 := h.eq_of_length_le hle
      exact ⟨hBA, hBA ▸ hplain (by rw [← hBA])⟩
    · -- a backslash cannot become a quote or a comma
      exfalso
      obtain ⟨d, hd⟩ := h
      rw [ha] at hd
      have hlen := congrArg List.length hd
      simp only [List.length_append, List.length_cons, List.length_nil] at hlen
      rcases d with _ | ⟨x, _ | ⟨y, d⟩⟩
      · rw [List.append_nil] at hd
        have hlast := congrArg List.getLast? hd
        simp at hlast
      · have hab : b = a := by
          refine (@List.append_inj_left _ _ (['\\', x]) _ (['"', ','])) (by simpa using hd) ?_
          simp only [List.length_cons, List.length_nil] at hlen
          omega
        subst hab
        simp at hd
      · simp only [List.length_cons] at hlen
        omega
  · rintro ⟨rfl, hplain⟩
    have := Json.string_escape (fun c hc => (hplain c hc).2.2) (',' :: '"' :: t)
    rw [escape_of_plain hplain] at this
    exact ⟨_, this, rfl⟩

end OutlineServer
