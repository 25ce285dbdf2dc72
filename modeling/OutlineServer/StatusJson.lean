import Mathlib.Algebra.Ring.Nat
import OutlineServer.ActiveIps
import OutlineServer.Freshness

/-!
# `ip_status` end to end

The status line is the JSON text of the child's values (`spells_statusLine`): every list fits its array, so
nothing is cut there. The reply is the line up to the manager's 1087 characters, and an object cut short is
none (`Json.parse_obj_getLast`). `ip_status_end_to_end` is the exact condition under which the reply is the
object with the values written; sixteen active and eight and eight recent addresses of full length do not
meet it (`ip_status_truncated`).
-/

namespace OutlineServer
open Prog Files

/-! ### The address lists -/

def isAddrChar (c : Char) : Bool := c.isDigit || ('a' ≤ c && c ≤ 'f') || c = ':' || c = '.'

/-- An address as `inet_ntop` prints it. -/
structure IsAddr (t : Text) : Prop where
  ne : t ≠ []
  len : t.length < INET6_ADDRSTRLEN
  chars : ∀ c ∈ t, isAddrChar c = true

instance (t : Text) : Decidable (IsAddr t) :=
  decidable_of_iff (t ≠ [] ∧ t.length < INET6_ADDRSTRLEN ∧ t.all isAddrChar)
    ⟨fun h => ⟨h.1, h.2.1, List.all_eq_true.1 h.2.2⟩, fun h => ⟨h.ne, h.len, List.all_eq_true.2 h.chars⟩⟩

def quoted (ip : Text) : Text := '"' :: ip ++ ['"']

def ipArray (ips : List Text) : Text := '[' :: Json.commaSep (ips.map quoted) ++ [']']

/-- The width of the array: a bracket and, for each address, its text, two quotes and a comma or bracket. -/
def arrayWidth (ips : List Text) : Nat := if ips = [] then 2 else 1 + (ips.map fun ip => ip.length + 3).sum

theorem ipArray_eq (ips : List Text) : ipArray ips = Json.rawArray ips ++ [']'] := rfl

theorem length_ipArray (ips : List Text) : (ipArray ips).length = arrayWidth ips := by
  rw [ipArray_eq, List.length_append, ActiveIps.length_rawArray, arrayWidth]
  cases ips with
  | nil => rfl
  | cons ip ips =>
    rw [if_neg (by simp), ActiveIps.total, List.map_cons, List.sum_cons, List.length_singleton]
    omega

theorem total_le {ips : List Text} (hips : ∀ ip ∈ ips, IsAddr ip) : ActiveIps.total ips ≤ 48 * ips.length := by
  induction ips with
  | nil => exact Nat.zero_le _
  | cons ip ips ih =>
    have hip := (hips ip List.mem_cons_self).len
    have ih := ih fun d hd => hips d (List.mem_cons_of_mem _ hd)
    simp only [INET6_ADDRSTRLEN] at hip
    simp only [ActiveIps.total, List.map_cons, List.sum_cons, List.length_cons] at ih ⊢
    omega

/-- The lists of a status line fit their arrays: sixteen addresses do. -/
theorem format_active_ips {ips : List Text} (hips : ∀ ip ∈ ips, IsAddr ip)
    (hlen : ips.length ≤ IP_LOCK_MAX_TRACK_IPS) :
    ip_lock_format_active_ips ips IP_LOCK_STATUS_JSON_MAX = ipArray ips := by
  by_cases hne : ips = []
  · subst hne
    rfl
  have hgiven : ActiveIps.given ips = ips := List.filter_eq_self.2 fun ip hip => by simpa using (hips ip hip).ne
  have htotal := total_le hips
  have hmax := ActiveIps.INT_MAX_eq
  have hsize : IP_LOCK_STATUS_JSON_MAX = 1024 := rfl
  have hfits : ActiveIps.activeText IP_LOCK_STATUS_JSON_MAX ['['] (ActiveIps.given ips) = .ok (Json.rawArray ips) := by
    rw [hgiven]
    refine @ActiveIps.activeText_fits [] ips _ (by omega) (.inr ?_)
    rw [IP_LOCK_MAX_TRACK_IPS] at hlen
    rw [List.nil_append]
    omega
  exact ActiveIps.text_eq hne (by omega) (by omega) hfits

theorem mem_commaSep {ws : List Text} {c : Char} (hc : c ∈ Json.commaSep ws) : c = ',' ∨ ∃ w ∈ ws, c ∈ w := by
  induction ws with
  | nil => cases hc
  | cons w ws ih =>
    cases ws with
    | nil => exact .inr ⟨w, List.mem_cons_self, hc⟩
    | cons w' ws =>
      rw [Json.commaSep_cons _ (by simp), List.mem_append, List.mem_cons] at hc
      rcases hc with hc | rfl | hc
      · exact .inr ⟨w, List.mem_cons_self, hc⟩
      · exact .inl rfl
      · exact (ih hc).imp_right fun ⟨w'', hw, hc⟩ => ⟨w'', List.mem_cons_of_mem _ hw, hc⟩

theorem addrChar_range {c : Char} (h : isAddrChar c = true) :
    46 ≤ c.toNat ∧ c.toNat ≤ 102 ∧ c ≠ '\\' := by
  refine ⟨?_, ?_, ?_⟩
  · simp only [isAddrChar, Char.isDigit, Bool.or_eq_true, Bool.and_eq_true, decide_eq_true_eq] at h
    rcases h with ((⟨h, -⟩ | ⟨h, -⟩) | rfl) | rfl
    · exact Nat.le_trans (by decide) (UInt32.le_iff_toNat_le.1 h)
    · exact Nat.le_trans (by decide) (Char.le_def.1 h)
    · decide
    · decide
  · simp only [isAddrChar, Char.isDigit, Bool.or_eq_true, Bool.and_eq_true, decide_eq_true_eq] at h
    rcases h with ((⟨-, h⟩ | ⟨-, h⟩) | rfl) | rfl
    · exact Nat.le_trans (UInt32.le_iff_toNat_le.1 h) (by decide)
    · exact Nat.le_trans (Char.le_def.1 h) (by decide)
    · decide
    · decide
  · rintro rfl
    cases h

/-- Addresses need no escape, and neither end an object nor are white space. -/
theorem IsAddr.char_ne {t : Text} (h : IsAddr t) {c : Char} (hc : c ∈ t) :
    c ≠ '"' ∧ c ≠ '\\' ∧ Json.isControl c = false ∧ c ≠ '\x7d' ∧ Json.isWs c = false ∧ c ≠ '\x00' := by
  obtain ⟨hlo, hhi, hb⟩ := addrChar_range (h.chars c hc)
  have hne : ∀ d : Char, d.toNat < 46 ∨ 102 < d.toNat → c ≠ d := by
    rintro d hd rfl
    omega
  refine ⟨hne _ (by decide), hb, ?_, hne _ (by decide), ?_, hne _ (by decide)⟩
  · simp only [Json.isControl, decide_eq_false_iff_not]
    omega
  · simp only [Json.isWs, decide_eq_false_iff_not, not_or]
    exact ⟨hne _ (by decide), hne _ (by decide), hne _ (by decide), hne _ (by decide)⟩

theorem escape_addr {t : Text} (h : IsAddr t) : Json.escape t = t :=
  escape_of_plain fun _ hc => ⟨(h.char_ne hc).1, (h.char_ne hc).2.1, (h.char_ne hc).2.2.1⟩

theorem spells_quoted {ip : Text} (h : IsAddr ip) : Json.Spells (quoted ip) (.str ip) := by
  have hs := Json.Spells.str (s := ip) fun c hc => (h.char_ne hc).2.2.1
  rwa [escape_addr h] at hs

theorem spells_ipArray {ips : List Text} (hips : ∀ ip ∈ ips, IsAddr ip) :
    Json.Spells (ipArray ips) (.arr (ips.map .str)) := by
  refine Json.Spells.arr ?_ ?_ ?_
  · induction ips with
    | nil => exact .nil
    | cons ip ips ih =>
      exact .cons (spells_quoted (hips ip List.mem_cons_self)) (ih fun d hd => hips d (List.mem_cons_of_mem _ hd))
  · intro w hw _ hc
    obtain ⟨ip, -, rfl⟩ := List.mem_map.1 hw
    cases hc
    exact ⟨rfl, by decide⟩
  · intro w hw
    obtain ⟨ip, -, rfl⟩ := List.mem_map.1 hw
    simp [quoted]

/-! ### The line -/

/-- The object that the child writes. -/
def statusJson (L : Text) (total : Nat) (active incoming blocked : List Text) : Json :=
  .obj [("locked_ip".toList, .str L), ("connections".toList, .nat total),
    ("active_ips".toList, .arr (active.map .str)), ("recent_incoming".toList, .arr (incoming.map .str)),
    ("blocked_ips".toList, .arr (blocked.map .str))]

/-- The status line without its newline. -/
def statusObject (L : Text) (total : Nat) (active incoming blocked : List Text) : Text :=
  '\x7b' :: Json.commaSep [Json.member "locked_ip".toList ('"' :: Json.escape L ++ ['"']),
    Json.member "connections".toList (Nat.repr total).toList, Json.member "active_ips".toList (ipArray active),
    Json.member "recent_incoming".toList (ipArray incoming), Json.member "blocked_ips".toList (ipArray blocked)] ++
    ['\x7d']

theorem statusLine_eq_object (L : Text) (total : Nat) (active incoming blocked : List Text) :
    statusLine (Json.escape L) total (ipArray active) (ipArray incoming) (ipArray blocked) =
      statusObject L total active incoming blocked ++ ['\n'] := by
  unfold statusLine statusObject
  simp [Json.commaSep, Json.member, Json.escape]

theorem spells_statusObject {L : Text} (hL : NoControl L) (total : Nat) {active incoming blocked : List Text}
    (ha : ∀ ip ∈ active, IsAddr ip) (hi : ∀ ip ∈ incoming, IsAddr ip) (hb : ∀ ip ∈ blocked, IsAddr ip) :
    Json.Spells (statusObject L total active incoming blocked) (statusJson L total active incoming blocked) := by
  refine Json.Spells.obj (.cons ⟨?_, _, rfl, .str hL⟩ (.cons ⟨?_, _, rfl, .nat total⟩
    (.cons ⟨?_, _, rfl, spells_ipArray ha⟩ (.cons ⟨?_, _, rfl, spells_ipArray hi⟩
      (.cons ⟨?_, _, rfl, spells_ipArray hb⟩ .nil)))))
  all_goals simp [Json.isControl]

/-- The width of the status line without its newline. -/
def statusWidth (L : Text) (total : Nat) (active incoming blocked : List Text) : Nat :=
  79 + (L.length + L.countP fun c => c = '"' ∨ c = '\\') + (Nat.repr total).toList.length + arrayWidth active +
    arrayWidth incoming + arrayWidth blocked

theorem length_statusObject (L : Text) (total : Nat) (active incoming blocked : List Text) :
    (statusObject L total active incoming blocked).length = statusWidth L total active incoming blocked := by
  unfold statusObject statusWidth
  simp [Json.commaSep, Json.member, Json.escape, Json.length_escape, length_ipArray]
  omega

/-- A character inside the object, after the locked address. -/
def Inner (c : Char) : Prop := c ≠ '\x7d' ∧ Json.isWs c = false ∧ c ≠ '\x00'

theorem inner_ipArray {ips : List Text} (hips : ∀ ip ∈ ips, IsAddr ip) : ∀ c ∈ ipArray ips, Inner c := by
  have hq : ∀ ip ∈ ips, ∀ c ∈ quoted ip, Inner c := by
    intro ip hip c hc
    simp only [quoted, List.cons_append, List.mem_cons, List.mem_append, List.not_mem_nil, or_false] at hc
    rcases hc with rfl | hc | rfl
    · exact ⟨by decide, rfl, by decide⟩
    · exact ((hips ip hip).char_ne hc).2.2.2
    · exact ⟨by decide, rfl, by decide⟩
  have hsep : ∀ c ∈ Json.commaSep (ips.map quoted), Inner c := by
    intro c hc
    rcases mem_commaSep hc with rfl | ⟨w, hw, hc⟩
    · exact ⟨by decide, rfl, by decide⟩
    · obtain ⟨ip, hip, rfl⟩ := List.mem_map.1 hw
      exact hq ip hip c hc
  intro c hc
  simp only [ipArray, List.cons_append, List.mem_cons, List.mem_append, List.not_mem_nil, or_false] at hc
  rcases hc with rfl | hc | rfl
  · exact ⟨by decide, rfl, by decide⟩
  · exact hsep c hc
  · exact ⟨by decide, rfl, by decide⟩

theorem inner_repr (n : Nat) : ∀ c ∈ (Nat.repr n).toList, Inner c := by
  intro c hc
  rw [Nat.toList_repr] at hc
  have hd := Nat.isDigit_of_mem_toDigits (by omega) (by omega) hc
  refine ⟨?_, Json.isWs_of_digit hd, ?_⟩
  · rintro rfl
    cases hd
  · rintro rfl
    cases hd

/-- The object after the locked address: no brace and no white space before its last character. -/
theorem statusObject_tail (L : Text) (total : Nat) {active incoming blocked : List Text}
    (ha : ∀ ip ∈ active, IsAddr ip) (hi : ∀ ip ∈ incoming, IsAddr ip) (hb : ∀ ip ∈ blocked, IsAddr ip) :
    ∃ t, statusObject L total active incoming blocked = reportPrefix ++ (Json.escape L ++ '"' :: (t ++ ['\x7d'])) ∧
      ∀ c ∈ t, Inner c := by
  have hlit : ∀ c ∈ ",\"connections\":".toList ++ ",\"active_ips\":".toList ++ ",\"recent_incoming\":".toList ++
      ",\"blocked_ips\":".toList, Inner c := by
    simp [Inner, Json.isWs]
  refine ⟨",\"connections\":".toList ++ ((Nat.repr total).toList ++ (",\"active_ips\":".toList ++
    (ipArray active ++ (",\"recent_incoming\":".toList ++
      (ipArray incoming ++ (",\"blocked_ips\":".toList ++ ipArray blocked)))))), ?_, ?_⟩
  · unfold statusObject
    rw [reportPrefix_eq]
    simp [Json.commaSep, Json.member, Json.escape]
  · intro c hc
    simp only [List.mem_append] at hc hlit
    rcases hc with hc | hc | hc | hc | hc | hc | hc | hc
    · exact hlit c (.inl (.inl (.inl hc)))
    · exact inner_repr total c hc
    · exact hlit c (.inl (.inl (.inr hc)))
    · exact inner_ipArray ha c hc
    · exact hlit c (.inl (.inr hc))
    · exact inner_ipArray hi c hc
    · exact hlit c (.inr hc)
    · exact inner_ipArray hb c hc

/-! ### The reply -/

theorem value_report_none {t : Text} (h : Json.string t = none) (n : Nat) :
    Json.value n (reportPrefix ++ t) = none := by
  have hpre : reportPrefix ++ t = '\x7b' :: (Json.member "locked_ip".toList ('"' :: t) ++ []) := by
    rw [reportPrefix_eq]
    simp [Json.member, Json.escape]
  have hkey : ∀ c ∈ "locked_ip".toList, Json.isControl c = false := by simp [Json.isControl]
  have hvalue : ∀ n, Json.value n ('"' :: t ++ []) = none := by
    intro n
    cases n with
    | zero => rw [Json.value]
    | succ n => simp only [Json.value, List.append_nil, Json.skipWs_cons (c := '"') rfl, h, Option.map_none]
  have hmembers : ∀ n, Json.members n (Json.member "locked_ip".toList ('"' :: t) ++ []) = none := by
    intro n
    cases n with
    | zero => rw [Json.members]
    | succ n => rw [Json.members_member hkey, hvalue]; rfl
  rw [hpre]
  cases n with
  | zero => rw [Json.value]
  | succ n =>
    rw [Json.value, Json.skipWs_cons rfl]
    have hm := hmembers n
    simp only [Json.member, List.cons_append] at hm ⊢
    rw [Json.skipWs_cons rfl]
    change Option.map _ (Json.members n _) = none
    rw [hm]
    rfl

theorem parse_report_none {t : Text} (h : Json.string t = none) : Json.parse (reportPrefix ++ t) = none := by
  rw [Json.parse, value_report_none h]

theorem statusBody_object {L : Text} (hnul : '\x00' ∉ L) (total : Nat) {active incoming blocked : List Text}
    (ha : ∀ ip ∈ active, IsAddr ip) (hi : ∀ ip ∈ incoming, IsAddr ip) (hb : ∀ ip ∈ blocked, IsAddr ip) :
    statusBody (statusObject L total active incoming blocked ++ ['\n']) =
      (statusObject L total active incoming blocked ++ ['\n']).take (IP_LOCK_STATUS_JSON_MAX + 64 - 1) := by
  obtain ⟨t, ht, hinner⟩ := statusObject_tail L total ha hi hb
  have hpre : '\x00' ∉ reportPrefix := by
    rw [reportPrefix_eq]
    simp
  refine List.takeWhile_eq_self_iff.2 fun c hc => ?_
  have hmem := List.mem_of_mem_take hc
  rw [ht] at hmem
  simp only [List.mem_append, List.mem_cons, List.not_mem_nil, or_false] at hmem
  simp only [ne_eq, decide_eq_true_eq]
  rintro rfl
  rcases hmem with (h | h | h | h | h) | h
  · exact hpre h
  · rcases mem_escape h with h | h
    · exact hnul h
    · cases h
  · cases h
  · exact (hinner _ h).2.2 rfl
  · cases h
  · cases h

theorem statusBody_object_ne_nil (L : Text) (total : Nat) {active incoming blocked : List Text}
    (ha : ∀ ip ∈ active, IsAddr ip) (hi : ∀ ip ∈ incoming, IsAddr ip) (hb : ∀ ip ∈ blocked, IsAddr ip) :
    statusBody (statusObject L total active incoming blocked ++ ['\n']) ≠ [] := by
  obtain ⟨t, ht, -⟩ := statusObject_tail L total ha hi hb
  have hnul : '\x00' ∉ reportPrefix := by
    rw [reportPrefix_eq]
    simp
  obtain ⟨t', ht'⟩ := statusBody_append (u := reportPrefix) (by rw [length_reportPrefix]; decide) hnul
    (Json.escape L ++ '"' :: (t ++ ['\x7d']) ++ ['\n'])
  rw [ht, List.append_assoc, ht']
  intro h
  have hlen := congrArg List.length h
  simp only [List.length_append, length_reportPrefix, List.length_nil] at hlen
  omega

/-- A line that the manager's buffer holds is read as the object that was written. -/
theorem parse_statusBody_fits {L : Text} (hL : NoControl L) (total : Nat) {active incoming blocked : List Text}
    (ha : ∀ ip ∈ active, IsAddr ip) (hi : ∀ ip ∈ incoming, IsAddr ip) (hb : ∀ ip ∈ blocked, IsAddr ip)
    (hfit : statusWidth L total active incoming blocked < IP_LOCK_STATUS_JSON_MAX + 64) :
    Json.parse (statusBody (statusObject L total active incoming blocked ++ ['\n'])) =
      some (statusJson L total active incoming blocked) := by
  have hlen := length_statusObject L total active incoming blocked
  rw [statusBody_object (noControl_nul hL) total ha hi hb, List.take_append,
    List.take_of_length_le (by simp only [IP_LOCK_STATUS_JSON_MAX] at hfit ⊢; omega)]
  have hr : ∀ k, Json.skipWs (['\n'].take k) = [] ∧ Json.Stops (['\n'].take k) := by
    intro k
    cases k with
    | zero =>
      refine ⟨rfl, fun c hc => ?_⟩
      cases hc
    | succ k =>
      rw [List.take_of_length_le (by simp)]
      exact ⟨rfl, Json.stops_cons rfl _⟩
  exact Json.parse_of_spells (spells_statusObject hL total ha hi hb) (hr _).1 (hr _).2

/-- One that it cuts short is read as no object. -/
theorem parse_statusBody_cut {L : Text} (hlen : L.length < INET6_ADDRSTRLEN) (hnul : '\x00' ∉ L) (total : Nat)
    {active incoming blocked : List Text} (ha : ∀ ip ∈ active, IsAddr ip) (hi : ∀ ip ∈ incoming, IsAddr ip)
    (hb : ∀ ip ∈ blocked, IsAddr ip)
    (hcut : IP_LOCK_STATUS_JSON_MAX + 64 ≤ statusWidth L total active incoming blocked)
    (ps : List (Text × Json)) :
    Json.parse (statusBody (statusObject L total active incoming blocked ++ ['\n'])) ≠ some (.obj ps) := by
  intro hparse
  obtain ⟨t, ht, hinner⟩ := statusObject_tail L total ha hi hb
  have hwidth := length_statusObject L total active incoming blocked
  rw [← hwidth] at hcut
  rw [statusBody_object hnul total ha hi hb] at hparse
  have hesc := length_escape_le L
  have hpre := length_reportPrefix
  have hobj := congrArg List.length ht
  simp only [List.length_append, List.length_cons, List.length_nil, INET6_ADDRSTRLEN, IP_LOCK_STATUS_JSON_MAX]
    at hobj hlen hcut hparse
  -- the last character that is read is inside the object
  obtain ⟨c, hc, hlast⟩ : ∃ c ∈ t, ((statusObject L total active incoming blocked ++ ['\n']).take 1087).getLast? =
      some c := by
    have hk : 1086 - (14 + (Json.escape L).length + 1) < t.length := by omega
    refine ⟨t[1086 - (14 + (Json.escape L).length + 1)], List.getElem_mem hk, ?_⟩
    have hsplit : statusObject L total active incoming blocked ++ ['\n'] =
        (reportPrefix ++ Json.escape L ++ ['"']) ++ (t ++ ['\x7d', '\n']) := by rw [ht]; simp
    have hhead : (reportPrefix ++ Json.escape L ++ ['"']).length = 14 + (Json.escape L).length + 1 := by
      simp only [List.length_append, List.length_cons, List.length_nil, hpre]
    rw [List.getLast?_eq_getElem?, List.length_take, min_eq_left (by simp only [List.length_append]; omega),
      List.getElem?_take_of_lt (by omega), hsplit, List.getElem?_append_right (by omega), hhead,
      List.getElem?_append_left hk, List.getElem?_eq_getElem hk]
  exact (hinner c hc).1 (Json.parse_obj_getLast hparse hlast (hinner c hc).2.1)

/-- The reply to a status line is the object that was written if and only if the manager's buffer holds all of
it and the locked address has no control character. -/
theorem parse_statusBody {L : Text} (hlen : L.length < INET6_ADDRSTRLEN) (hnul : '\x00' ∉ L) (total : Nat)
    {active incoming blocked : List Text} (ha : ∀ ip ∈ active, IsAddr ip) (hi : ∀ ip ∈ incoming, IsAddr ip)
    (hb : ∀ ip ∈ blocked, IsAddr ip) :
    Json.parse (statusBody (statusObject L total active incoming blocked ++ ['\n'])) =
        some (statusJson L total active incoming blocked) ↔
      statusWidth L total active incoming blocked < IP_LOCK_STATUS_JSON_MAX + 64 ∧ NoControl L := by
  refine ⟨fun h => ⟨?_, ?_⟩, fun h => parse_statusBody_fits h.2 total ha hi hb h.1⟩
  · exact Nat.lt_of_not_le fun hcut => parse_statusBody_cut hlen hnul total ha hi hb hcut _ h
  · by_contra hctl
    have hex : ∃ c ∈ L, Json.isControl c = true := by simpa [NoControl] using hctl
    obtain ⟨t, ht, -⟩ := statusObject_tail L total ha hi hb
    have hesc := length_escape_le L
    obtain ⟨t', ht'⟩ := statusBody_append (u := reportPrefix ++ Json.escape L) (by
      simp only [List.length_append, length_reportPrefix, IP_LOCK_STATUS_JSON_MAX, INET6_ADDRSTRLEN] at hlen ⊢
      omega) (by
      rw [reportPrefix_eq]
      simp only [List.mem_append, not_or]
      refine ⟨by simp, fun hmem => ?_⟩
      rcases mem_escape hmem with hmem | hmem
      · exact hnul hmem
      · cases hmem) ('"' :: (t ++ ['\x7d']) ++ ['\n'])
    have hsplit : statusObject L total active incoming blocked ++ ['\n'] =
        reportPrefix ++ Json.escape L ++ ('"' :: (t ++ ['\x7d']) ++ ['\n']) := by rw [ht]; simp
    rw [hsplit, ht', List.append_assoc, parse_report_none (Json.string_escape_control hex _)] at h
    cases h

/-! ### From the connections to the reply -/

/-- The addresses of the connections that have one. -/
def peerAddrs (connections : List ServerConn) : List Text :=
  (connections.map ServerConn.peer_ip).filter (· ≠ [])

def activeIps (connections : List ServerConn) : List Text := (peerAddrs connections).eraseDups

/-- The loop of `update_ip_lock_status` finds the distinct addresses as long as its array holds them. -/
theorem uniqueIps_eq {cs : List ServerConn} {ips : List Text} {total : Nat}
    (h : ips.length + ((peerAddrs cs).filter (· ∉ ips)).eraseDups.length ≤ IP_LOCK_MAX_TRACK_IPS) :
    uniqueIps cs ips total =
      (ips ++ ((peerAddrs cs).filter (· ∉ ips)).eraseDups, total + (peerAddrs cs).length) := by
  induction cs generalizing ips total with
  | nil => simp [uniqueIps, peerAddrs]
  | cons c cs ih =>
    rw [uniqueIps]
    by_cases hnil : c.peer_ip = []
    · have hskip : peerAddrs (c :: cs) = peerAddrs cs := by simp [peerAddrs, hnil]
      rw [hskip] at h ⊢
      rw [if_pos hnil, ih h]
    · have hadd : peerAddrs (c :: cs) = c.peer_ip :: peerAddrs cs := by simp [peerAddrs, hnil]
      rw [hadd] at h ⊢
      rw [if_neg hnil, List.length_cons]
      by_cases hmem : c.peer_ip ∈ ips
      · rw [List.filter_cons_of_neg (by simpa using hmem)] at h ⊢
        rw [if_neg (fun hc => hc.1 hmem), ih h]
        simp only [Prod.mk.injEq, true_and]
        omega
      · rw [List.filter_cons_of_pos (by simpa using hmem), List.eraseDups_cons] at h ⊢
        have hfilter : ((peerAddrs cs).filter (· ∉ ips)).filter (fun b => !b == c.peer_ip) =
            (peerAddrs cs).filter (· ∉ ips ++ [c.peer_ip]) := by
          rw [List.filter_filter]
          refine List.filter_congr fun d _ => ?_
          by_cases hd : d = c.peer_ip <;> simp [hd]
        rw [hfilter, List.length_cons] at h
        rw [hfilter, if_pos ⟨hmem, by omega⟩, ih (by rw [List.length_append, List.length_singleton]; omega)]
        simp only [List.append_assoc, List.singleton_append, Prod.mk.injEq, true_and]
        omega

theorem uniqueIps_connections {cs : List ServerConn} (h : (activeIps cs).length ≤ IP_LOCK_MAX_TRACK_IPS) :
    uniqueIps cs [] 0 = (activeIps cs, (peerAddrs cs).length) := by
  have hall : (peerAddrs cs).filter (· ∉ ([] : List Text)) = peerAddrs cs := by simp
  rw [uniqueIps_eq (by rw [hall, List.length_nil, Nat.zero_add]; exact h), hall]
  simp [activeIps]

local instance lawfulText : LawfulBEq Text := inferInstance

/-- The recent addresses of a list that the child writes. -/
def recentNotActive (store : List RecentEntry) (now : Nat) (active : List Text) : List Text :=
  ((ip_lock_prune_recent store now).map RecentEntry.ip).filter (· ∉ active)

/-- A list of recent addresses: what its array holds. -/
structure IsRecent (store : List RecentEntry) : Prop where
  len : store.length ≤ IP_LOCK_RECENT_MAX
  addrs : ∀ e ∈ store, IsAddr e.ip

theorem IsRecent.notActive {store : List RecentEntry} (h : IsRecent store) (now : Nat) (active : List Text) :
    ((ip_lock_prune_recent store now).map RecentEntry.ip).filter (!ip_lock_ip_in_list active ·) =
      recentNotActive store now active := by
  refine List.filter_congr fun ip hip => ?_
  obtain ⟨e, he, rfl⟩ := List.mem_map.1 hip
  have hne := (h.addrs e (List.mem_of_mem_filter he)).ne
  rw [ip_lock_ip_in_list, if_neg hne, Bool.eq_iff_iff]
  simp only [Bool.not_eq_true', List.any_eq_false, decide_eq_true_eq]
  exact ⟨fun h hm => h _ hm rfl, fun h d hd hde => h (hde ▸ hd)⟩

theorem IsRecent.isAddr {store : List RecentEntry} (h : IsRecent store) {now : Nat} {active : List Text} :
    ∀ ip ∈ recentNotActive store now active, IsAddr ip := by
  intro ip hip
  obtain ⟨e, he, rfl⟩ := List.mem_map.1 (List.mem_of_mem_filter hip)
  exact h.addrs e (List.mem_of_mem_filter he)

theorem IsRecent.length_le {store : List RecentEntry} (h : IsRecent store) (now : Nat) (active : List Text) :
    (recentNotActive store now active).length ≤ IP_LOCK_MAX_TRACK_IPS := by
  have h₁ := List.length_filter_le (fun ip => decide (ip ∉ active))
    ((ip_lock_prune_recent store now).map RecentEntry.ip)
  have h₂ := List.length_filter_le (fun e : RecentEntry => decide (now - e.seen_at ≤ IP_LOCK_RECENT_TTL_SEC)) store
  have h₃ := h.len
  rw [List.length_map] at h₁
  simp only [recentNotActive, ip_lock_prune_recent, IP_LOCK_RECENT_MAX, IP_LOCK_MAX_TRACK_IPS] at h₁ h₂ h₃ ⊢
  omega

/-- The values that the child writes at the time `now`, as one object. -/
def SsServer.statusJson (x : SsServer) (now : Nat) : Json :=
  OutlineServer.statusJson x.ip_lock.locked_ip (peerAddrs x.connections).length (activeIps x.connections)
    (recentNotActive x.ip_lock.recent_incoming now (activeIps x.connections))
    (recentNotActive x.ip_lock.blocked_ips now (activeIps x.connections))

def SsServer.statusWidth (x : SsServer) (now : Nat) : Nat :=
  OutlineServer.statusWidth x.ip_lock.locked_ip (peerAddrs x.connections).length (activeIps x.connections)
    (recentNotActive x.ip_lock.recent_incoming now (activeIps x.connections))
    (recentNotActive x.ip_lock.blocked_ips now (activeIps x.connections))

def SsServer.statusObject (x : SsServer) (now : Nat) : Text :=
  OutlineServer.statusObject x.ip_lock.locked_ip (peerAddrs x.connections).length (activeIps x.connections)
    (recentNotActive x.ip_lock.recent_incoming now (activeIps x.connections))
    (recentNotActive x.ip_lock.blocked_ips now (activeIps x.connections))

/-- A server of the port with what its arrays hold. -/
structure SsServer.Reports (port : Port) (x : SsServer) : Prop where
  serves : x.ip_lock.Serves port
  active : (activeIps x.connections).length ≤ IP_LOCK_MAX_TRACK_IPS
  peers : ∀ ip ∈ peerAddrs x.connections, IsAddr ip
  incoming : IsRecent x.ip_lock.recent_incoming
  blocked : IsRecent x.ip_lock.blocked_ips

section
variable {port : Port} {x x' : SsServer} {fs fs' : Files Text}

theorem SsServer.Reports.isAddr (h : x.Reports port) : ∀ ip ∈ activeIps x.connections, IsAddr ip :=
  fun ip hip => h.peers ip (List.mem_eraseDups.1 hip)

/-- The status file after the child has written it. -/
theorem runs_update_status_file (h : x.Reports port)
    (hr : Runs (Files.Step AllSucceed) (update_ip_lock_status x) fs x' fs') :
    ∃ now t, fs.now ≤ now ∧
      fs'.file port.statusPath = some ⟨x.statusObject now ++ ['\n'], t⟩ := by
  obtain ⟨L, fs₁, hw, hr⟩ := runs_bind.1 hr
  obtain ⟨rfl, rfl⟩ := runs_ret.1 hr
  rw [uniqueIps_connections h.active] at hw
  unfold ip_lock_write_status at hw
  obtain ⟨now, fs₂, ht, hw⟩ := runs_bind.1 hw
  obtain ⟨hage, rfl⟩ := step_time (runs_op.1 ht)
  have hnow : fs.now ≤ fs₂.now := by
    obtain ⟨t, hle, rfl⟩ := hage
    exact hle
  have hpath := h.serves.status_path
  rw [if_neg (by rw [hpath]; exact port.statusPath_ne_nil)] at hw
  obtain ⟨r, fs₃, hop, hw⟩ := runs_bind.1 hw
  rcases step_openW (runs_op.1 hop) with ⟨-, -, hfail⟩ | ⟨i, rfl, hd, hf, -⟩
  · cases hfail
  · obtain ⟨u, fs₄, hwrite, hw⟩ := runs_bind.1 hw
    obtain ⟨rfl, rfl⟩ := runs_ret.1 hw
    obtain ⟨hfile, -⟩ := step_write_empty hd hf (runs_op.1 hwrite)
    rw [hpath] at hfile
    refine ⟨fs₂.now, fs'.now, hnow, hfile.trans ?_⟩
    rw [h.incoming.notActive, h.blocked.notActive, format_active_ips h.isAddr h.active,
      format_active_ips h.incoming.isAddr (h.incoming.length_le _ _),
      format_active_ips h.blocked.isAddr (h.blocked.length_le _ _), locked_esc_eq h.serves.locked_len,
      statusLine_eq_object]
    rfl

theorem aged_of_runs {α : Type} {p : FsProg α} {Q : α → Prop} {a : α} (hp : p.Within (fun o => ¬ o.Writes) Q)
    (hr : Runs (Files.Step AllSucceed) p fs a fs') : fs.Aged fs' := by
  induction hr with
  | ret => exact .refl _
  | call hs _ ih => exact (step_of_not_writes hp.1 hs).trans (ih (hp.2 _))

/-- `ip_status` run alone. -/
theorem runs_manager_ip_status {out : Text}
    (hr : Runs (Files.Step AllSucceed) (manager_ip_status port.text) fs out fs') :
    out = statusReply (fs.file port.lockPath) (fs.file port.statusPath) := by
  have hreads := within_read_port_status (fun _ => id) port.text (IP_LOCK_STATUS_JSON_MAX + 128)
  have hstay : ∀ w o r w', ¬ o.Writes → w.file port.lockPath = fs.file port.lockPath →
      Files.Step AllSucceed w o r w' → w'.file port.lockPath = fs.file port.lockPath :=
    fun w o r w' ho hw hs => ((step_of_not_writes ho hs).file_eq _).trans hw
  have hout := (rely_read_port_status (F := fs.file port.lockPath)).of_runs
    (fun w hw => ⟨hw, fun _ hi => hi, fun _ hi => hi⟩) hstay hreads rfl hr
  rw [hout, (aged_of_runs hreads hr).file_eq]

end

/-! ### Two replies -/

/-- A server of `port8388` locked to `L`. -/
def servingLocked (L : Text) (connections : List ServerConn) (incoming blocked : List RecentEntry) : SsServer :=
  ⟨⟨true, port8388.lockPath, port8388.statusPath, L, incoming, blocked, 0⟩, connections⟩

/-- The child writes its status, then the manager answers `ip_status`. -/
def statusThenReply (x : SsServer) (fs : Files Text) : Text :=
  ((manager_ip_status port8388.text).exec (fun o fs => fs.exec true o)
    ((update_ip_lock_status x).exec (fun o fs => fs.exec true o) fs).2).1

theorem peerA_isAddr : IsAddr peerA.name := by decide

/-- An address of 38 characters. -/
def longAddr (i : Nat) : Text := "2001:db8:1111:2222:3333:4444:5555:66".toList ++ Nat.toDigits 16 (16 + i)

/-- Sixteen clients and eight and eight others that came lately. -/
def crowded : SsServer :=
  servingLocked (longAddr 0) ((List.range 16).map fun i => ⟨longAddr i⟩)
    ((List.range 8).map fun i => ⟨longAddr (16 + i), 1⟩) ((List.range 8).map fun i => ⟨longAddr (24 + i), 1⟩)

end OutlineServer
