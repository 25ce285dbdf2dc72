import OutlineServer.Acl
import OutlineServer.Contacts

/-!
# The outbound block list is enforced

`connect_to_remote` looks for the address it is about to contact in the set of its family: an IPv4-mapped IPv6 address
of a listed IPv4 address is not found. `udprelay.c` does not look at all.
-/

namespace OutlineServer

variable {acl : Acl}

/-- Of what the histories have in addition, no destination is on the list. -/
def Admits (acl : Acl) (old new : List SockAddr) : Prop :=
  ∃ contacted, new = contacted ++ old ∧ ∀ addr ∈ contacted, acl.lists addr.ip = false

theorem admits_append {old contacted : List SockAddr} :
    Admits acl old (contacted ++ old) ↔ ∀ addr ∈ contacted, acl.lists addr.ip = false := by
  constructor
  · rintro ⟨contacted', heq, h⟩
    rw [List.append_cancel_right heq]
    exact h
  · intro h
    exact ⟨contacted, rfl, h⟩

theorem not_admits_singleton {addr : SockAddr} (h : acl.lists addr.ip = true) : ¬ Admits acl [] [addr] := by
  intro hadmits
  have hnot := ((@admits_append _ ([]) ([addr]))).1 hadmits addr List.mem_cons_self
  rw [h] at hnot
  cases hnot

/-- A listed destination passes the check of `connect_to_remote` if it is listed as an IPv4 address only. -/
theorem Tcp.connectsTo_unlisted {N : NetLib} (hacl : N.acl = some (acl.outbound_block_match_host N.cork_ip_init))
    (hip : ∀ ip : CorkIp, ip.Sized → N.cork_ip_init (N.inet_ntop ip) = some ip) {addr : SockAddr} {t : Tcp.Connect} :
    (∀ dst ∈ Tcp.connectsTo N addr t, acl.lists dst.ip = false) ↔ (t ≠ .noSocket → acl.escapes addr.ip = false) := by
  by_cases ht : t = .noSocket
  · subst ht
    simp [Tcp.connectsTo]
  have hmem : (∀ dst ∈ Tcp.connectsTo N addr t, acl.lists dst.ip = false) ↔
      (N.blocks (N.inet_ntop addr.ip) = false → acl.lists addr.ip = false) := by
    cases t with
    | noSocket => exact absurd rfl ht
    | _ =>
      simp only [Tcp.connectsTo]
      split <;> simp_all
  rw [hmem]
  cases hlist : acl.lists addr.ip with
  | false =>
    have hescapes : acl.escapes addr.ip = false := by
      cases hip : addr.ip with
      | v4 a => rfl
      | v6 a => rw [Acl.escapes, ← hip, hlist, Bool.false_and]
    simp [hescapes]
  | true => simp [ht, NetLib.blocks_of_lists hacl hip hlist]

/-- Over TCP no listed IPv4 address is contacted unless the client asks for its IPv4-mapped form, and this is not listed
itself. Over UDP any one is that the client asks for. -/
theorem outbound_blocked {N : NetLib} (hacl : N.acl = some (acl.outbound_block_match_host N.cork_ip_init))
    (hip : ∀ ip : CorkIp, ip.Sized → N.cork_ip_init (N.inet_ntop ip) = some ip) (resolv_mode : ResolvMode) :
    (∀ {Ctx G : Type} (K : CryptoT Ctx G) (r r' : Resolver (Tcp.World Ctx G)) (e : Tcp.Event Ctx),
      (Tcp.loop K N resolv_mode).step r e r' →
        (Admits acl r.app.connects r'.app.connects ↔ ∀ addr t, Tcp.asks K N resolv_mode r e = some (addr, t) →
          t ≠ .noSocket → acl.escapes addr.ip = false)) ∧
      ∀ {G : Type} (A : Udp.CryptoAll G) (r r' : Resolver (Udp.World G)) (e : Udp.Event),
        (Udp.loop A N resolv_mode).step r e r' →
          (Admits acl r.app.destinations r'.app.destinations ↔
            ∀ addr, Udp.asks A N resolv_mode r e = some addr → acl.lists addr.ip = false) := by
  refine ⟨fun K r r' e ⟨_, hfire⟩ => ?_, fun A r r' e ⟨_, hfire⟩ => ?_⟩
  · rw [Tcp.fire_contacts hfire, admits_append]
    cases Tcp.asks K N resolv_mode r e with
    | none => simp [Tcp.contacts]
    | some asked =>
      obtain ⟨addr, t⟩ := asked
      simp only [Tcp.contacts, Option.some.injEq, Prod.mk.injEq, and_imp]
      rw [Tcp.connectsTo_unlisted hacl hip]
      constructor
      · rintro h _ _ rfl rfl
        exact h
      · exact fun h => h addr t rfl rfl
  · rw [Udp.fire_sends hfire, admits_append]
    simp

/-! ### `acl/server_block_local.acl` -/

def asciiBytes (s : String) : Bytes := s.toList.map fun c => UInt8.ofNat c.toNat

def addrBits (addr : Bytes) : List Bool := addr.flatMap fun b => (List.range 8).map fun i => b.toNat.testBit (7 - i)

/-- A set to which `ipset_ipv4_add_network` and `ipset_ipv6_add_network` have added networks. -/
def inNetworks (nets : List (Bytes × Nat)) (addr : Bytes) : Bool :=
  nets.any fun net => (addrBits net.1).take net.2 = (addrBits addr).take net.2

def mapped (addr : Bytes) : Bytes := List.replicate 10 0 ++ [255, 255] ++ addr

def server_block_local : Acl where
  outbound_block_list_ipv4 := inNetworks [
    ([0, 0, 0, 0], 8), ([10, 0, 0, 0], 8), ([100, 64, 0, 0], 10), ([127, 0, 0, 0], 8), ([169, 254, 0, 0], 16),
    ([172, 16, 0, 0], 12), ([192, 0, 0, 0], 24), ([192, 0, 2, 0], 24), ([192, 88, 99, 0], 24), ([192, 168, 0, 0], 16),
    ([198, 18, 0, 0], 15), ([198, 51, 100, 0], 24), ([203, 0, 113, 0], 24), ([224, 0, 0, 0], 4), ([240, 0, 0, 0], 4),
    ([255, 255, 255, 255], 32)]
  outbound_block_list_ipv6 := inNetworks [
    (List.replicate 15 0 ++ [1], 128), (mapped [127, 0, 0, 1], 104), (252 :: List.replicate 15 0, 7),
    (254 :: 128 :: List.replicate 14 0, 10)]
  outbound_block_list_rules _ := false

/-- Two addresses as text; the other ones are marked with their family. -/
def blockTexts : List (CorkIp × Bytes) :=
  [(.v4 [10, 0, 0, 1], asciiBytes "10.0.0.1"), (.v6 (mapped [10, 0, 0, 1]), asciiBytes "::ffff:10.0.0.1")]

def block_cork_ip_init (host : Bytes) : Option CorkIp :=
  match blockTexts.find? (·.2 = host), host with
  | some (ip, _), _ => some ip
  | none, 4 :: addr => some (.v4 addr)
  | none, 6 :: addr => some (.v6 addr)
  | none, _ => none

def blockNet : NetLib where
  cork_ip_init := block_cork_ip_init
  inet_ntop ip :=
    match blockTexts.find? (·.1 = ip), ip with
    | some (_, text), _ => text
    | none, .v4 addr => 4 :: addr
    | none, .v6 addr => 6 :: addr
  inet_pton f host :=
    match f, block_cork_ip_init host with
    | .AF_INET, some (.v4 addr) => some addr
    | .AF_INET6, some (.v6 addr) => some addr
    | _, _ => none
  acl := some (server_block_local.outbound_block_match_host block_cork_ip_init)

theorem blockNet_inet_ntop (ip : CorkIp) : blockNet.cork_ip_init (blockNet.inet_ntop ip) = some ip := by
  by_cases h4 : ip = .v4 [10, 0, 0, 1]
  · subst h4
    decide
  by_cases h6 : ip = .v6 (mapped [10, 0, 0, 1])
  · subst h6
    decide
  have hfind : blockTexts.find? (·.1 = ip) = none := by
    simp only [blockTexts, List.find?_cons, List.find?_nil, decide_eq_false (Ne.symm h4), decide_eq_false (Ne.symm h6)]
  -- the texts start with the digit 1 and with a colon
  have hother : ∀ b addr, b ≠ 49 → b ≠ 58 → blockTexts.find? (·.2 = b :: addr) = none := by
    intro b addr h1 hcolon
    have h49 : asciiBytes "10.0.0.1" = 49 :: asciiBytes "0.0.0.1" := by decide
    have h58 : asciiBytes "::ffff:10.0.0.1" = 58 :: asciiBytes ":ffff:10.0.0.1" := by decide
    simp [blockTexts, h49, h58, h1.symm, hcolon.symm]
  cases ip with
  | v4 addr =>
    have hnot := hother 4 addr (by decide) (by decide)
    simp only [blockNet, block_cork_ip_init, hfind, hnot]
  | v6 addr =>
    have hnot := hother 6 addr (by decide) (by decide)
    simp only [blockNet, block_cork_ip_init, hfind, hnot]

def blockTcp : Lts (Resolver (Tcp.World AeadCtx CryptoState)) (Tcp.Event AeadCtx) :=
  Tcp.loop (aeadCrypto (tagLib fun _ _ => true)) blockNet .MODE_IPV4_FIRST

def blockStep? : Resolver (Tcp.World AeadCtx CryptoState) → Tcp.Event AeadCtx →
    Option (Resolver (Tcp.World AeadCtx CryptoState)) :=
  Tcp.step? (aeadCrypto (tagLib fun _ _ => true)) blockNet .MODE_IPV4_FIRST fun _ _ => true

/-- A client that asks for port 80. -/
def blockRequest (header : Bytes) : Tcp.Event AeadCtx :=
  Tcp.tagRecv (.data (List.replicate 16 2 ++ tagChunk (header ++ [0, 80, 65])))

/-- A datagram for 10.0.0.1:80. -/
def blockDatagram : Udp.Event :=
  .serverRecv (fun _ => 0) ⟨0, true, true⟩ none none ⟨.v4 [192, 0, 2, 1], [15, 160]⟩
    (some (List.replicate 16 2 ++ [1, 10, 0, 0, 1, 0, 80, 65] ++ List.replicate 16 0))

/-- The first request of the first client. -/
theorem blockTcp_request {header : Bytes} {old new : List SockAddr}
    (h : ((blockStep? (Tcp.initial .start) Tcp.tagAccept).bind fun r =>
      (blockStep? r (blockRequest header)).map fun r' => (r.app.connects, r'.app.connects)) = some (old, new)) :
    ∃ r r', blockTcp.Reach r ∧ blockTcp.step r (blockRequest header) r' ∧ r.app.connects = old ∧
      r'.app.connects = new := by
  obtain ⟨r, hr, h⟩ := Option.bind_eq_some_iff.1 h
  obtain ⟨r', hr', h⟩ := Option.map_eq_some_iff.1 h
  obtain ⟨rfl, rfl⟩ := Prod.mk.inj h
  have hinit : blockTcp.Reach (Tcp.initial .start) := .init ⟨_, rfl⟩
  exact ⟨r, r', hinit.step (Tcp.of_step? hr).2, (Tcp.of_step? hr').2, rfl, rfl⟩

/-- A client that asks for 10.0.0.1 itself. -/
theorem outbound_blocked_blockNet :
    ∃ r r', blockTcp.Reach r ∧ blockTcp.step r (blockRequest (1 :: [10, 0, 0, 1])) r' ∧
      (Admits server_block_local r.app.connects r'.app.connects ↔ ∀ addr t,
        Tcp.asks (aeadCrypto (tagLib fun _ _ => true)) blockNet .MODE_IPV4_FIRST r (blockRequest (1 :: [10, 0, 0, 1])) =
          some (addr, t) → t ≠ .noSocket → server_block_local.escapes addr.ip = false) := by
  obtain ⟨r, r', hr, hstep, -⟩ := (@blockTcp_request (1 :: [10, 0, 0, 1]) ([]) ([])) (by
    decide +kernel)
  refine ⟨r, r', hr, hstep, ?_⟩
  exact (outbound_blocked rfl (fun ip _ => blockNet_inet_ntop ip) .MODE_IPV4_FIRST).1 _ r r' _ hstep

/-- The list has 10.0.0.0/8. A client that asks for ::ffff:10.0.0.1 gets there over TCP, and one that asks for 10.0.0.1
over UDP. -/
theorem outbound_not_blocked :
    (∃ r r', blockTcp.Reach r ∧ blockTcp.step r (blockRequest (4 :: mapped [10, 0, 0, 1])) r' ∧
      ¬ Admits server_block_local r.app.connects r'.app.connects) ∧
      ∃ r r' e, (Udp.loop Udp.tagAll blockNet .MODE_IPV4_FIRST).Reach r ∧
        (Udp.loop Udp.tagAll blockNet .MODE_IPV4_FIRST).step r e r' ∧
        ¬ Admits server_block_local r.app.destinations r'.app.destinations := by
  constructor
  · obtain ⟨r, r', hr, hstep, hold, hnew⟩ :=
      (@blockTcp_request (4 :: mapped [10, 0, 0, 1]) ([]) ([⟨.v6 (mapped [10, 0, 0, 1]), [0, 80]⟩])) (by decide +kernel)
    refine ⟨r, r', hr, hstep, ?_⟩
    rw [hold, hnew]
    exact not_admits_singleton (by decide)
  · have hrun : (Lts.tryStep Udp.enabled (Udp.fire Udp.tagAll blockNet .MODE_IPV4_FIRST) (Udp.initial .start)
        blockDatagram).map (fun r' => r'.app.destinations) = some [⟨.v4 [10, 0, 0, 1], [0, 80]⟩] := by
      decide +kernel
    obtain ⟨r', hr', hdest⟩ := Option.map_eq_some_iff.1 hrun
    refine ⟨Udp.initial .start, r', blockDatagram, .init ⟨_, rfl⟩, Lts.of_tryStep hr', ?_⟩
    rw [hdest]
    exact not_admits_singleton (by decide)

end OutlineServer
