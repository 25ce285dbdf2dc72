import OutlineServer.AclFile
import OutlineServer.CorkAddress
import OutlineServer.Outbound

/-!
# The outbound block list of a file

`init_acl` reads the file of characters, and the relays ask for strings of bytes. Both call one `cork_ip_init`: what the
relays refuse is what the lines of `[outbound_block_list]` cover (`blocks_iff`), and over TCP no address of an entry is
contacted unless it escapes (`connectsTo_file`).
-/

namespace OutlineServer

/-- The characters of a string of bytes. -/
def textOf (s : Bytes) : Text := s.map fun b => Char.ofNat b.toNat

/-- The bytes of an address in network order, as one number. -/
def wordOf (w : Nat) (addr : Bytes) : BitVec w := BitVec.ofNat w (addr.foldl (fun v b => v * 256 + b.toNat) 0)

def CorkIp.word : CorkIp → AclFile.CorkIp
  | .v4 addr => .v4 (wordOf 32 addr)
  | .v6 addr => .v6 (wordOf 128 addr)

namespace AclFile

variable {L : AclLib} {acl : Acl L} {N : NetLib} {content : Text}

/-- `outbound_block_match_host` -/
def outbound_block_match_host (acl : Acl L) (host : Text) : Int :=
  match L.cork_ip_init host with
  | none => if (lookup_rule (acl.lists .outbound_block_list).rules host).isSome then 1 else 0
  | some (.v4 addr) => if L.ipv4.contains (acl.lists .outbound_block_list).list_ipv4 addr then 1 else 0
  | some (.v6 addr) => if L.ipv6.contains (acl.lists .outbound_block_list).list_ipv6 addr then 1 else 0

/-- The lists that the relays look into. -/
def Acl.outbound (acl : Acl L) : OutlineServer.Acl where
  outbound_block_list_ipv4 addr := L.ipv4.contains (acl.lists .outbound_block_list).list_ipv4 (wordOf 32 addr)
  outbound_block_list_ipv6 addr := L.ipv6.contains (acl.lists .outbound_block_list).list_ipv6 (wordOf 128 addr)
  outbound_block_list_rules host := (lookup_rule (acl.lists .outbound_block_list).rules (textOf host)).isSome

/-- Both models call the same `cork_ip_init`, and the relays have the list of the file. -/
structure Serves (L : AclLib) (content : Text) (N : NetLib) : Prop where
  init : ∀ host, L.cork_ip_init (textOf host) = (N.cork_ip_init host).map CorkIp.word
  acl : N.acl = some fun host => decide (outbound_block_match_host (init_acl L content) (textOf host) = 1)

/-! ### What is refused -/

theorem ite_one_iff {b : Bool} : (if b then 1 else 0 : Int) = 1 ↔ b = true := by
  cases b <;> decide

theorem outbound_block_match_host_iff {es : Entry → Prop} (h : (acl.lists .outbound_block_list).Holds es)
    (host : Text) : outbound_block_match_host acl host = 1 ↔ ∃ e, es e ∧ e.Covers L host := by
  unfold outbound_block_match_host Entry.Covers
  cases L.cork_ip_init host with
  | none => exact ite_one_iff.trans (h.rules host)
  | some ip =>
    cases ip with
    | v4 addr => exact ite_one_iff.trans (h.ipv4 addr)
    | v6 addr => exact ite_one_iff.trans (h.ipv6 addr)

/-- On the bytes of a string it is the check of the relays. -/
theorem outbound_match (hinit : ∀ host, L.cork_ip_init (textOf host) = (N.cork_ip_init host).map CorkIp.word)
    (host : Bytes) : acl.outbound.outbound_block_match_host N.cork_ip_init host =
      decide (outbound_block_match_host acl (textOf host) = 1) := by
  rw [OutlineServer.Acl.outbound_block_match_host, outbound_block_match_host, hinit]
  cases N.cork_ip_init host with
  | none => simp only [Option.map_none, ite_one_iff, Bool.decide_eq_true, Acl.outbound]
  | some ip =>
    cases ip <;> simp only [Option.map_some, CorkIp.word, ite_one_iff, Bool.decide_eq_true, Acl.outbound]

theorem Serves.outbound (h : Serves L content N) :
    N.acl = some ((init_acl L content).outbound.outbound_block_match_host N.cork_ip_init) := by
  rw [h.acl]
  exact congrArg some (funext fun host => (outbound_match h.init host).symm)

theorem Serves.blocks_iff (h : Serves L content N) (host : Bytes) :
    N.blocks host = true ↔ Listed L (interpreted content) .outbound_block_list (textOf host) := by
  rw [NetLib.blocks, h.acl]
  simp only [decide_eq_true_eq]
  exact outbound_block_match_host_iff (init_acl_holds L content .outbound_block_list) (textOf host)

/-- The only literal is `1.2.3.4`. -/
def plainNet (content : Text) : NetLib where
  cork_ip_init host := if textOf host = "1.2.3.4".toList then some (.v4 [1, 2, 3, 4]) else none
  inet_ntop _ := []
  inet_pton _ _ := none
  acl := some fun host => decide (outbound_block_match_host (init_acl plainLib content) (textOf host) = 1)

theorem serves_plain (content : Text) : Serves plainLib content (plainNet content) where
  init host := by
    simp only [plainLib, plainNet]
    split <;> rfl
  acl := rfl

example : (plainNet "[outbound_block_list]\n1.2.3.4".toList).blocks (asciiBytes "1.2.3.4") = true := by decide +kernel

/-- A name, with a character that no literal has, is matched against the rules alone. -/
theorem outbound_block_match_host_name (hlit : ∀ s, (L.cork_ip_init s).isSome = CorkAddress.cork_ip_init s)
    {host : Text} {c : Char} (hc : c ∈ host) (hchar : CorkAddress.isLiteralChar c = false) :
    outbound_block_match_host (init_acl L content) host = 1 ↔
      ∃ e, (.outbound_block_list, e) ∈ entries L .black_list (interpreted content) ∧ e.HasName L host := by
  have hnone : L.cork_ip_init host = none := by
    rw [← Option.not_isSome_iff_eq_none, hlit]
    intro h
    rw [CorkAddress.init_chars h c hc] at hchar
    cases hchar
  rw [outbound_block_match_host_iff (init_acl_holds L content .outbound_block_list) host]
  simp only [Entry.Covers, hnone]

/-! ### What is contacted -/

/-- An entry of the outbound block list has the IPv4 address that the system contacts for `ip`. -/
def Blocked (L : AclLib) (content : Text) (ip : OutlineServer.CorkIp) : Prop :=
  ∃ a, ip.ipv4 = some a ∧
    ∃ e, (.outbound_block_list, e) ∈ entries L .black_list (interpreted content) ∧ e.HasIp (.v4 (wordOf 32 a))

theorem lists_outbound_iff (ip : OutlineServer.CorkIp) :
    (init_acl L content).outbound.lists ip = true ↔ Blocked L content ip := by
  simp only [OutlineServer.Acl.lists, Option.any_eq_true, Acl.outbound, Blocked,
    (init_acl_holds L content .outbound_block_list).ipv4]

/-- Of the file's addresses `connect_to_remote` contacts those that escape. -/
theorem Serves.connectsTo_file (h : Serves L content N)
    (hip : ∀ ip : OutlineServer.CorkIp, ip.Sized → N.cork_ip_init (N.inet_ntop ip) = some ip) (addr : SockAddr)
    (t : Tcp.Connect) : (∀ dst ∈ Tcp.connectsTo N addr t, ¬ Blocked L content dst.ip) ↔
      (t ≠ .noSocket → (init_acl L content).outbound.escapes addr.ip = false) := by
  rw [← Tcp.connectsTo_unlisted h.outbound hip]
  simp only [← lists_outbound_iff, Bool.not_eq_true]

end AclFile

end OutlineServer
