import OutlineServer.Request

/-!
# The outbound block list (`acl.c`)

`init_acl` puts the networks of `[outbound_block_list]` into a set of libcorkipset for each family, and the other lines
into rules. `server.c` asks for an address in text form, as `inet_ntop` writes it or as the client sent it.
-/

namespace OutlineServer

/-- What `ipset_contains_ipv4`, `ipset_contains_ipv6` and `lookup_rule` find in the three lists. -/
structure Acl where
  outbound_block_list_ipv4 : Bytes → Bool
  outbound_block_list_ipv6 : Bytes → Bool
  outbound_block_list_rules : Bytes → Bool

/-- `outbound_block_match_host(host) == 1`. -/
def Acl.outbound_block_match_host (acl : Acl) (cork_ip_init : Bytes → Option CorkIp) (host : Bytes) : Bool :=
  match cork_ip_init host with
  | none => acl.outbound_block_list_rules host
  | some (.v4 addr) => acl.outbound_block_list_ipv4 addr
  | some (.v6 addr) => acl.outbound_block_list_ipv6 addr

/-! ### Destinations -/

def CorkIp.Sized : CorkIp → Prop
  | .v4 addr => addr.length = 4
  | .v6 addr => addr.length = 16

/-- The IPv4 address that the system contacts, directly or for `::ffff:a.b.c.d`. -/
def CorkIp.ipv4 : CorkIp → Option Bytes
  | .v4 addr => if addr.length = 4 then some addr else none
  | .v6 addr =>
    if addr.length = 16 ∧ addr.take 12 = List.replicate 10 0 ++ [255, 255] then some (addr.drop 12) else none

/-- The IPv4 address contacted is on the list. -/
def Acl.lists (acl : Acl) (ip : CorkIp) : Bool := ip.ipv4.any acl.outbound_block_list_ipv4

/-- An IPv4-mapped address of a listed one that is not listed itself. -/
def Acl.escapes (acl : Acl) : CorkIp → Bool
  | .v4 _ => false
  | .v6 addr => acl.lists (.v6 addr) && !acl.outbound_block_list_ipv6 addr

variable {acl : Acl} {N : NetLib} {ip : CorkIp}

theorem CorkIp.sized_of_ipv4 {a : Bytes} (h : ip.ipv4 = some a) : ip.Sized := by
  cases ip with
  | v4 addr =>
    by_cases hlen : addr.length = 4
    · exact hlen
    · rw [ipv4, if_neg hlen] at h
      cases h
  | v6 addr =>
    by_cases hmapped : addr.length = 16 ∧ addr.take 12 = List.replicate 10 0 ++ [255, 255]
    · exact hmapped.1
    · rw [ipv4, if_neg hmapped] at h
      cases h

/-- The check of `connect_to_remote`, for an address that the list has. -/
theorem NetLib.blocks_of_lists (hacl : N.acl = some (acl.outbound_block_match_host N.cork_ip_init))
    (hip : ∀ ip, ip.Sized → N.cork_ip_init (N.inet_ntop ip) = some ip) (h : acl.lists ip = true) :
    N.blocks (N.inet_ntop ip) = !acl.escapes ip := by
  obtain ⟨a, ha, hlist⟩ := (Option.any_eq_true _ _).1 h
  have hback := hip ip (CorkIp.sized_of_ipv4 ha)
  simp only [blocks, hacl, Acl.outbound_block_match_host, hback]
  cases ip with
  | v4 addr =>
    have haddr : addr = a := by
      rw [CorkIp.ipv4] at ha
      split at ha
      · exact Option.some.inj ha
      · cases ha
    subst addr
    simp [Acl.escapes, hlist]
  | v6 addr => simp [Acl.escapes, h]

end OutlineServer
