import OutlineServer.Crypto

/-!
# The request header

What `server_recv_cb` makes of the first decrypted bytes of a client: an address and a port, followed by
payload. A C string is an array in which functions look for the NUL; they fault if they leave the array.
-/

namespace OutlineServer

inductive Family
  | AF_INET
  | AF_INET6
deriving DecidableEq

inductive CorkIp
  | v4 (addr : Bytes)
  | v6 (addr : Bytes)
deriving DecidableEq

def CorkIp.family : CorkIp → Family
  | .v4 _ => .AF_INET
  | .v6 _ => .AF_INET6

def CorkIp.ofBytes : Family → Bytes → CorkIp
  | .AF_INET => .v4
  | .AF_INET6 => .v6

def Family.size : Family → Nat
  | .AF_INET => 4
  | .AF_INET6 => 16

/-- An address and a port in network order, `struct sockaddr_storage`. -/
structure SockAddr where
  ip : CorkIp
  port : Bytes
deriving DecidableEq

/-- The `strlen(s)` bytes of a C string. -/
def cstring (s : Bytes) : C Bytes :=
  match s.findIdx? (· = 0) with
  | none => .error .bounds
  | some k => .ok (s.take k)

/-- libcork's parser, `inet_ntop`, `inet_pton` (`none` unless it returns 1) and, if there is an ACL,
`outbound_block_match_host`, on the bytes of a C string. -/
structure NetLib where
  cork_ip_init : Bytes → Option CorkIp
  inet_ntop : CorkIp → Bytes
  inet_pton : Family → Bytes → Option Bytes
  acl : Option (Bytes → Bool)

/-- `acl && outbound_block_match_host(s) == 1` -/
def NetLib.blocks (N : NetLib) (s : Bytes) : Bool :=
  match N.acl with
  | none => false
  | some outbound_block_match_host => outbound_block_match_host s

/-- The same for an array. -/
def NetLib.blocked (N : NetLib) (host : Bytes) : C Bool := do
  if N.acl.isNone then
    return false
  return N.blocks (← cstring host)

/-- What `inet_pton` leaves in an address of the family that `cork_ip_init` has found; it was zero before. -/
def NetLib.literal (N : NetLib) (f : Family) (s : Bytes) : CorkIp :=
  .ofBytes f ((N.inet_pton f s).getD (List.replicate f.size 0))

def strchr (s : Bytes) (c : UInt8) : C (Option Nat) :=
  match s.findIdx? fun b => b = c ∨ b = 0 with
  | none => .error .bounds
  | some k => .ok (if s[k]? = some c then some k else none)

def strspn (s accept : Bytes) : C Nat :=
  match s.findIdx? fun b => b ∉ accept with
  | none => .error .bounds
  | some k => .ok k

/-! ### `validate_hostname` -/

def valid_label_bytes : Bytes :=
  "-0123456789ABCDEFGHIJKLMNOPQRSTUVWXYZ_abcdefghijklmnopqrstuvwxyz".toList.map fun c => UInt8.ofNat c.toNat

/-- The loop of `validate_hostname`: `label` is the array from the label on, and `n` of its bytes belong to the
host name. A round takes two bytes at least. -/
def validateLabels : Nat → Bytes → Nat → C Bool
  | 0, _, _ => .ok true
  | fuel + 1, label, n => do
    if n = 0 then
      return true
    let next_dot ← strchr label 0x2e
    let label_len := next_dot.getD n
    if n < label_len then
      return false
    if 63 < label_len ∨ label_len < 1 then
      return false
    if label[0]? = some 0x2d ∨ label[label_len - 1]? = some 0x2d then
      return false
    let span ← strspn label valid_label_bytes
    if span < label_len then
      return false
    validateLabels fuel (label.drop (label_len + 1)) (n - (label_len + 1))

def validate_hostname (hostname : Bytes) (hostname_len : Nat) : C Bool :=
  if hostname_len < 1 ∨ 255 < hostname_len then .ok false
  else if hostname[0]? = some 0x2e then .ok false
  else validateLabels hostname_len hostname hostname_len

/-! ### `server_recv_cb` in `STAGE_INIT` -/

/-- What becomes of a request: `stop_server`, a blocked host name, a connection or a DNS query; `offset` is the
length of the header. -/
inductive Request
  | stop
  | blocked
  | connect (addr : SockAddr) (offset : Nat)
  | query (host port : Bytes) (offset : Nat)
deriving DecidableEq

/-- The end of the header, whose port is at `offset`. -/
def requestPort (buf : Buffer) (offset : Nat) (request : Bytes → Nat → Request) : C Request := do
  let port ← buf.get offset 2
  if buf.len < offset + 2 then
    return .stop
  return request port (offset + 2)

/-- A header with a host name. -/
def requestName (N : NetLib) (buf : Buffer) : C Request := do
  let name_len := (buf.data 1).toNat
  if buf.len < name_len + 4 then
    return .stop
  let name ← buf.get 2 name_len
  let host := name ++ List.replicate (255 - name_len) 0
  if ← N.blocked host then
    return .blocked
  -- `cork_ip_init` reads up to the NUL, and prints a string that is no address
  let s ← cstring host
  match N.cork_ip_init s with
  | some ip => requestPort buf (name_len + 2) fun port => .connect ⟨N.literal ip.family s, port⟩
  | none =>
    if ← validate_hostname host name_len then
      requestPort buf (name_len + 2) (.query host)
    else
      return .stop

def serverRequest (N : NetLib) (buf : Buffer) : C Request := do
  let atyp := (buf.data 0).toNat % 16
  if atyp = 1 then
    if 4 + 3 ≤ buf.len then
      let addr ← buf.get 1 4
      requestPort buf 5 fun port => .connect ⟨.v4 addr, port⟩
    else
      return .stop
  else if atyp = 3 then
    requestName N buf
  else if atyp = 4 then
    if 16 + 3 ≤ buf.len then
      let addr ← buf.get 1 16
      requestPort buf 17 fun port => .connect ⟨.v6 addr, port⟩
    else
      return .stop
  else
    return .stop

/-- The length of the header of a request that is carried out. -/
def Request.offset? : Request → Option Nat
  | .connect _ offset | .query _ _ offset => some offset
  | .stop | .blocked => none

/-- The payload starts inside the buffer: `server->buf->len -= offset` does not wrap. -/
theorem serverRequest_offset {N : NetLib} {buf : Buffer} {q : Request} (h : serverRequest N buf = .ok q) :
    ∀ offset ∈ q.offset?, offset ≤ buf.len := by
  have hport : ∀ {off : Nat} {request : Bytes → Nat → Request} {q : Request},
      (∀ port off', (request port off').offset? = some off') → requestPort buf off request = .ok q →
      ∀ offset ∈ q.offset?, offset ≤ buf.len := by
    intro off request q hreq h offset hmem
    obtain ⟨port, -, h⟩ := C.bind_eq_ok h
    split at h
    · cases h
      cases hmem
    · cases h
      rw [hreq] at hmem
      cases hmem
      omega
  have hstop : ∀ {q : Request}, (.ok .stop : C Request) = .ok q → ∀ offset ∈ q.offset?, offset ≤ buf.len := by
    intro q h offset hmem
    cases h
    cases hmem
  simp only [serverRequest] at h
  split at h
  · split at h
    · obtain ⟨addr, -, h⟩ := C.bind_eq_ok h
      exact hport (fun _ _ => rfl) h
    · exact hstop h
  split at h
  · simp only [requestName] at h
    split at h
    · exact hstop h
    obtain ⟨name, -, h⟩ := C.bind_eq_ok h
    obtain ⟨blocked, -, h⟩ := C.bind_eq_ok h
    split at h
    · cases h
      simp [Request.offset?]
    obtain ⟨s, -, h⟩ := C.bind_eq_ok h
    split at h
    · exact hport (fun _ _ => rfl) h
    · obtain ⟨valid, -, h⟩ := C.bind_eq_ok h
      split at h
      · exact hport (fun _ _ => rfl) h
      · exact hstop h
  split at h
  · split at h
    · obtain ⟨addr, -, h⟩ := C.bind_eq_ok h
      exact hport (fun _ _ => rfl) h
    · exact hstop h
  · exact hstop h

end OutlineServer
