import Mathlib.Algebra.Order.BigOperators.Group.List
import Mathlib.Algebra.Order.Ring.Nat
import OutlineServer.Lib.JsonObjects
import OutlineServer.ReplyMatching

/-!
# What `ping` reports

The loop of `ping` sends the buffer when it finds it more than half full. The server at which it does so is in no
datagram, and what it prints from then on does not start with `stat: `. So the datagrams report the servers if and only
if the buffer is at most half full at every server (`ping_reports_iff`).
-/

namespace OutlineServer.Replies
open Decimal Json
open Servers (Server BUF_SIZE)

/-- The member that reports a server. -/
def report (s : Listed) : Text × Text := (s.server.port, ofInt s.server.traffic)

/-- Every datagram is `stat: ` and an object, and the objects together have every server once. -/
def Reports (sent : List Text) (servers : List Listed) : Prop :=
  ∃ objects : List (List (Text × Json)),
    List.Forall₂ (fun datagram ms => ∃ body, datagram = "stat: ".toList ++ body ∧
      parse body = some (.obj ms)) sent objects ∧ objects.flatten.Perm (numbers (servers.map report))

/-- The characters that `ping` prints for a server. -/
def pingSize (s : Listed) : Nat := s.server.port.length + (ofInt s.server.traffic).length + 4

/-- The buffer is at most half full at the last server, and so at every one. -/
def HalfFull (servers : List Listed) : Prop := 7 + (servers.dropLast.map pingSize).sum ≤ BUF_SIZE / 2

instance (servers : List Listed) : Decidable (HalfFull servers) := inferInstanceAs (Decidable (_ ≤ _))

variable {servers : List Listed} {buf : Text} {pos : Nat}

theorem pingEntry_eq (s : Listed) : pingEntry s = rawMember (report s).1 (report s).2 ++ [','] := by
  simp [pingEntry, rawMember, report]

theorem length_pingEntry (s : Listed) : (pingEntry s).length = pingSize s := by
  rw [pingEntry_eq]
  simp only [rawMember, report, pingSize, List.length_append, List.length_cons, List.length_nil]
  omega

theorem fits_iff : Fits (fun s => (pingEntry s).length) (fun _ => BUF_SIZE / 2) pos servers ↔
    servers = [] ∨ pos + (servers.dropLast.map pingSize).sum ≤ BUF_SIZE / 2 := by
  induction servers generalizing pos with
  | nil => simp [Fits]
  | cons s rest ih =>
    rw [Fits, ih, length_pingEntry]
    cases rest with
    | nil => simp
    | cons s' rest =>
      rw [List.dropLast_cons_cons, List.map_cons, List.sum_cons]
      simp only [reduceCtorEq, false_or]
      omega

theorem fits_iff_halfFull : Fits (fun s => (pingEntry s).length) (fun _ => BUF_SIZE / 2) 7 servers ↔
    HalfFull servers := by
  rw [fits_iff]
  refine ⟨fun h => h.elim (fun hnil => ?_) id, .inr⟩
  subst hnil
  show 7 + 0 ≤ BUF_SIZE / 2
  decide

/-! ### A table that fits -/

/-- The last datagram. -/
def pingEnd (last : Text) : Text :=
  if 7 < last.length then last.take (last.length - 1) ++ ['\x7d'] else last ++ ['\x7d']

theorem pingReply_eq (servers : List Listed) : pingReply servers =
    (pingLoop "stat: \x7b".toList servers).1 ++ [pingEnd (pingLoop "stat: \x7b".toList servers).2] := rfl

theorem pingReply_one (h : HalfFull servers) : pingReply servers =
    ["stat: ".toList ++ rawObject (servers.map report)] := by
  rw [pingReply_eq, pingLoop_fits servers "stat: \x7b".toList (fits_iff_halfFull.2 h), List.nil_append]
  cases servers with
  | nil => rfl
  | cons s rest =>
    have hflat : (s :: rest).flatMap pingEntry =
        commaSep (((s :: rest).map report).map fun p => rawMember p.1 p.2) ++ [','] := by
      rw [← flatMap_comma (by simp), List.map_map, List.flatMap_map]
      exact List.flatMap_congr fun s _ => pingEntry_eq s
    have hlen : 7 < ("stat: \x7b".toList ++ (s :: rest).flatMap pingEntry).length := by
      have h₁ : "stat: \x7b".toList.length = 7 := rfl
      have hpos : 0 < ((s :: rest).flatMap pingEntry).length := by
        rw [List.flatMap_cons, List.length_append, length_pingEntry, pingSize]
        omega
      rw [List.length_append]
      omega
    rw [pingEnd, if_pos hlen, hflat, ← List.append_assoc, List.length_append, List.length_singleton, Nat.add_sub_cancel,
      List.take_left]
    rfl

theorem reports_one (hplain : ∀ s ∈ servers, Plain s.server.port) :
    Reports ["stat: ".toList ++ rawObject (servers.map report)] servers := by
  have hkeys : ∀ p ∈ servers.map report, Plain p.1 := List.forall_mem_map.2 hplain
  have hnums : ∀ p ∈ servers.map report, IsNumber p.2 := List.forall_mem_map.2 fun s _ => IsNumber.nat s.server.traffic
  have hparse : parse (rawObject (servers.map report) ++ []) = some (.obj (numbers (servers.map report))) :=
    parse_of_spells (Spells.rawObject hkeys hnums) rfl (fun c hc => by cases hc)
  rw [List.append_nil] at hparse
  refine ⟨[numbers (servers.map report)], .cons ⟨_, rfl, hparse⟩ .nil, ?_⟩
  rw [List.flatten_singleton]

theorem plain_of_reports (h : Reports ["stat: ".toList ++ rawObject (servers.map report)] servers) :
    ∀ s ∈ servers, Plain s.server.port := by
  obtain ⟨objects, hsent, hperm⟩ := h
  cases hsent with
  | cons hbody hnil =>
    cases hnil
    obtain ⟨body, hbody, hparse⟩ := hbody
    rw [← List.append_cancel_left hbody] at hparse
    rw [List.flatten_singleton] at hperm
    exact fun s hs => plain_of_rawObject hparse hperm (report s) (List.mem_map_of_mem hs)

/-! ### A table that does not -/

/-- Once the buffer has been emptied, it is empty or starts with a quote. -/
theorem pingLoop_head (h : ∀ c ∈ buf.head?, c = '"') : ∀ c ∈ (pingLoop buf servers).2.head?, c = '"' := by
  induction servers generalizing buf with
  | nil => exact h
  | cons s rest ih =>
    rw [pingLoop]
    split
    · exact ih (fun c hc => by cases hc)
    · refine ih fun c hc => ?_
      cases buf with
      | nil => exact (Option.some.inj hc).symm
      | cons d buf => exact h c hc

theorem pingLoop_emptied (h : ¬ Fits (fun s => (pingEntry s).length) (fun _ => BUF_SIZE / 2) buf.length servers) :
    ∀ c ∈ (pingLoop buf servers).2.head?, c = '"' := by
  induction servers generalizing buf with
  | nil => exact absurd trivial h
  | cons s rest ih =>
    rw [pingLoop]
    split
    · exact pingLoop_head (fun c hc => by cases hc)
    · rename_i hle
      refine ih fun hfits => h ⟨Nat.not_lt.1 hle, ?_⟩
      rwa [List.length_append] at hfits

theorem pingEnd_head (h : ∀ c ∈ buf.head?, c = '"') (body : Text) : pingEnd buf ≠ "stat: ".toList ++ body := by
  intro heq
  have hs : 's' ∈ (pingEnd buf).head? := by
    rw [heq]
    rfl
  unfold pingEnd at hs
  cases buf with
  | nil => exact absurd hs (by decide)
  | cons d buf =>
    obtain rfl := h d rfl
    split at hs
    · rename_i hlen
      rw [List.length_cons, Nat.add_sub_cancel] at hs
      obtain ⟨n, hn⟩ : ∃ n, buf.length = n + 1 := ⟨buf.length - 1, by rw [List.length_cons] at hlen; omega⟩
      rw [hn] at hs
      exact absurd (Option.some.inj hs) (by decide)
    · exact absurd (Option.some.inj hs) (by decide)

/-- The last datagram has not the form that it should have. -/
theorem not_reports (h : ¬ HalfFull servers) : ¬ Reports (pingReply servers) servers := by
  rintro ⟨objects, hsent, -⟩
  have hhead := @pingLoop_emptied servers "stat: \x7b".toList (mt fits_iff_halfFull.1 h)
  rw [pingReply_eq] at hsent
  have hlast := List.forall₂_drop (pingLoop "stat: \x7b".toList servers).1.length hsent
  rw [List.drop_left] at hlast
  generalize objects.drop _ = last at hlast
  cases hlast with
  | cons hbody _ =>
    obtain ⟨body, hbody, -⟩ := hbody
    exact pingEnd_head hhead body hbody

theorem recv_ping {W : Type} (H : Handlers W) (w : W) {data : Text} (hlen : data.length ≤ BUF_SIZE / 2)
    (haction : get_action data = some "ping".toList) :
    (manager_recv_cb H w data).1 = pingReply (H.servers w) := by
  rw [manager_recv_cb, if_neg (Nat.not_lt.2 hlen), haction]
  rfl

/-- For every table of the manager. -/
theorem ping_reports_iff {W : Type} (H : Handlers W) (w : W) {data : Text} (hlen : data.length ≤ BUF_SIZE / 2)
    (haction : get_action data = some "ping".toList) : Reports (manager_recv_cb H w data).1 (H.servers w) ↔
      HalfFull (H.servers w) ∧ ∀ s ∈ H.servers w, Plain s.server.port := by
  rw [recv_ping H w hlen haction]
  constructor
  · intro h
    have hhalf : HalfFull (H.servers w) := by
      by_contra hfull
      exact not_reports hfull h
    rw [pingReply_one hhalf] at h
    exact ⟨hhalf, plain_of_reports h⟩
  · rintro ⟨hhalf, hplain⟩
    rw [pingReply_one hhalf]
    exact reports_one hplain

/-- A manager whose table never changes. -/
def tableManager (servers : List Listed) : Handlers Unit where
  add w _ := (none, w)
  remove w _ := (false, w)
  stat w _ := w
  set_ip w _ := (false, w)
  clear_ip w _ := (false, w)
  ip_status _ _ := none
  servers _ := servers
  manager := Servers.plainManager

/-- The server of port `10000 + i`, which has carried `2^63` bytes. -/
def bigServer (i : Fin 2000) : Listed where
  server := { Server.zero with port := (10000 + i.1).repr.toList, password := ['x'], traffic := 2 ^ 63 }
  port_le := by
    show (10000 + i.1).repr.toList.length ≤ 7
    rw [String.length_toList, Nat.length_repr_le_iff (by decide)]
    omega
  traffic_lt := Nat.pow_lt_pow_right (by decide) (by decide)

def bigTable : List Listed := (List.finRange 2000).map bigServer

theorem not_reports_full (h : ¬ HalfFull servers) :
    ¬ Reports (manager_recv_cb (tableManager servers) () "ping".toList).1 servers := by
  rw [recv_ping (tableManager servers) () (by decide) (by decide)]
  exact not_reports h

theorem le_pingSize (i : Fin 2000) : 23 ≤ pingSize (bigServer i) := by
  have htraffic : (ofInt (2 ^ 63 : Nat)).length = 19 := by decide +kernel
  have hsize : pingSize (bigServer i) = (10000 + i.1).repr.toList.length + (ofInt (2 ^ 63 : Nat)).length + 4 := rfl
  omega

theorem not_halfFull_bigTable : ¬ HalfFull bigTable := by
  intro h
  have hsum := List.card_nsmul_le_sum (bigTable.dropLast.map pingSize) 23 fun n hn => by
    obtain ⟨s, hs, rfl⟩ := List.mem_map.1 hn
    have hs' : s ∈ (List.finRange 2000).map bigServer := List.dropLast_subset _ hs
    obtain ⟨i, -, rfl⟩ := List.mem_map.1 hs'
    exact le_pingSize i
  rw [List.length_map, List.length_dropLast, bigTable, List.length_map, List.length_finRange, nsmul_eq_mul] at hsum
  unfold HalfFull at h
  rw [bigTable] at h
  simp only [BUF_SIZE] at h
  simp only [Nat.cast_id] at hsum
  omega

theorem ping_reports_iff_two : Reports (manager_recv_cb (tableManager [bigServer 0, bigServer 1]) () "ping".toList).1
    [bigServer 0, bigServer 1] := by
  refine (ping_reports_iff (tableManager [bigServer 0, bigServer 1]) () (by decide) (by decide)).2 ⟨?_, ?_⟩
  · decide +kernel
  · decide +kernel

/-- Two thousand ports are too many. -/
theorem ping_bigTable : (bigTable.map fun s => s.server.port).Nodup ∧
    ¬ Reports (manager_recv_cb (tableManager bigTable) () "ping".toList).1 bigTable := by
  constructor
  · unfold bigTable
    rw [List.map_map]
    refine (List.nodup_finRange 2000).map fun i j h => ?_
    have hadd : ((10000 + i.1 : Nat) : Int) = (10000 + j.1 : Nat) := ofInt_injective h
    exact Fin.ext (by omega)
  · exact not_reports_full not_halfFull_bigTable

end OutlineServer.Replies
