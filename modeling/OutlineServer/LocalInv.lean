import OutlineServer.Local

/-!
# The invariant of a connection of ss-local

Where the client is in its stream decides about the replies, and the bytes that have been encrypted are the address and
the payload that have arrived: a part of the wire has been accepted by `remote`, the rest is in `abuf` or `remote->buf`.
-/

namespace OutlineServer

/-! ### Buffers -/

section
variable {b : Buffer}

theorem Buffer.byte_ok {i : Nat} {x : UInt8} (h : b.bytes[i]? = some x) (hb : b.len ≤ b.capacity) :
    b.byte i = .ok x := by
  obtain ⟨hi, hx⟩ := List.getElem?_eq_some_iff.1 h
  have hlt : i < b.capacity := by
    rw [b.length_bytes] at hi
    omega
  rw [Buffer.byte, if_pos hlt, ← hx]
  simp [Buffer.bytes, Block.read]

theorem Buffer.append_ok (b : Buffer) (bs : Bytes) (h : b.len + bs.length ≤ b.capacity) :
    ∃ b', b.append bs = .ok b' ∧ b'.bytes = b.bytes ++ bs ∧ b'.len = b.len + bs.length ∧ b'.capacity = b.capacity := by
  simp only [Buffer.append, Buffer.put_ok h, C.ok_bind]
  refine ⟨_, rfl, ?_, rfl, rfl⟩
  have hread := Block.read_write_append b.data b.len 0 bs (Nat.zero_le _)
  rw [Nat.sub_zero] at hread
  exact hread

theorem Buffer.shift_ok {n : Nat} (h : n ≤ b.len) (hb : b.len ≤ b.capacity) :
    ∃ b', b.shift n = .ok b' ∧ b'.bytes = b.bytes.drop n ∧ b'.len = b.len - n ∧ b'.capacity = b.capacity := by
  have hrest : ((b.bytes.drop n).take (b.len - n)).length = b.len - n := by simp
  simp only [Buffer.shift, Buffer.get_bytes hb (show n + (b.len - n) ≤ b.len by omega), C.ok_bind]
  rw [Buffer.put_ok (by omega), C.ok_bind]
  refine ⟨_, rfl, ?_, rfl, rfl⟩
  have hread := Block.read_write_same b.data 0 ((b.bytes.drop n).take (b.len - n))
  rw [hrest] at hread
  simp only [Buffer.bytes] at hread ⊢
  rw [hread, List.take_of_length_le (by simp)]

theorem bprepend_ok {dst src : Buffer} {capacity : Nat} (hd : dst.Hands capacity) (hs : src.len ≤ src.capacity) :
    ∃ b', bprepend dst src capacity = .ok b' ∧ b'.bytes = src.bytes ++ dst.bytes ∧ b'.Hands capacity := by
  obtain ⟨n, hn, hcap, hroom⟩ := brealloc_eq dst (dst.len + src.len) capacity
  have hfits := hd.fits
  have hcap₀ := hd.room
  have hmoved : (dst.data.read 0 dst.len).length = dst.len := dst.data.length_read _ _
  have hhead : (src.data.read 0 src.len).length = src.len := src.data.length_read _ _
  simp only [bprepend, hn]
  rw [Buffer.get_ok (by simp only; omega), C.ok_bind, Buffer.put_ok (by simp only; omega), C.ok_bind,
    Buffer.get_ok (by omega), C.ok_bind, Buffer.put_ok (by simp only; omega), C.ok_bind]
  refine ⟨_, rfl, ?_, hcap₀.trans hcap, hroom⟩
  have hread := Block.read_write_same (dst.data.write src.len (dst.data.read 0 dst.len)) 0 (src.data.read 0 src.len)
  have hafter := Block.read_write_after (dst.data.write src.len (dst.data.read 0 dst.len)) 0 dst.len src.len
    (src.data.read 0 src.len) (by omega)
  have hsame := Block.read_write_same dst.data src.len (dst.data.read 0 dst.len)
  rw [hhead] at hread
  rw [hmoved] at hsame
  rw [hsame] at hafter
  simp only [Buffer.bytes]
  rw [Nat.add_comm, Block.read_add, hread, Nat.zero_add, hafter]

end

namespace Local

/-! ### What the client sends -/

/-- `atyp`, an address and a port. -/
inductive IsAddress : Bytes → Destination → Prop
  | ipv4 {addr port : Bytes} (ha : addr.length = 4) (hp : port.length = 2) :
      IsAddress (SOCKS5_ATYP_IPV4 :: addr ++ port) (.ip (.v4 addr))
  | domain {n : UInt8} {name port : Bytes} (hn : name.length = n.toNat) (hp : port.length = 2) :
      IsAddress (SOCKS5_ATYP_DOMAIN :: n :: name ++ port) (.name name)
  | ipv6 {addr port : Bytes} (ha : addr.length = 16) (hp : port.length = 2) :
      IsAddress (SOCKS5_ATYP_IPV6 :: addr ++ port) (.ip (.v6 addr))

theorem IsAddress.length_le {a : Bytes} {dst : Destination} (h : IsAddress a dst) : 4 ≤ a.length ∧ a.length ≤ 259 := by
  cases h with
  | ipv4 ha hp | ipv6 ha hp =>
    simp only [List.cons_append, List.length_cons, List.length_append]
    omega
  | @domain n name port hn hp =>
    have hn' := n.toNat_lt
    simp only [List.cons_append, List.length_cons, List.length_append]
    omega

/-- The methods offered, among them `METHOD_NOAUTH`, the destination and the payload of a client. -/
structure ClientStream where
  methods : Bytes
  ver : UInt8
  rsv : UInt8
  address : Bytes
  dst : Destination
  payload : Bytes
  methods_lt : methods.length < 256
  noauth : METHOD_NOAUTH ∈ methods
  is_address : IsAddress address dst

namespace ClientStream
variable (q : ClientStream)

/-- `struct method_select_request`. -/
def select : Bytes := [SVERSION, UInt8.ofNat q.methods.length] ++ q.methods

/-- `struct socks5_request` and the address. -/
def request : Bytes := [q.ver, SOCKS5_CMD_CONNECT, q.rsv] ++ q.address

def bytes : Bytes := q.select ++ (q.request ++ q.payload)

/-- The replies to the first `n` bytes. -/
def answers (n : Nat) : List Bytes :=
  (if q.select.length ≤ n then [[SVERSION, METHOD_NOAUTH]] else []) ++
    if q.select.length + q.request.length ≤ n then
      [socks5_response SOCKS5_REP_SUCCEEDED ++ List.replicate 6 0] else []

/-- The payload in the bytes `received`. -/
def body (received : Bytes) : Bytes := received.drop (q.select.length + q.request.length)

/-- What `received` makes of the stream for the server, or for the destination. -/
def plain (direct : Bool) (received : Bytes) : Bytes :=
  if direct then q.body received else q.address ++ q.body received

theorem length_select : q.select.length = 2 + q.methods.length := by
  simp only [select, List.length_append, List.length_cons, List.length_nil]

theorem length_request : q.request.length = 3 + q.address.length := by
  simp only [request, List.length_append, List.length_cons, List.length_nil]

end ClientStream

section
variable {buf abuf : Buffer} {rest x : Bytes} {dst : Destination}

theorem get_of_prefix {a pre : Bytes} (hb : buf.bytes <+: pre ++ (a ++ rest)) (hcap : buf.len ≤ buf.capacity)
    (hlen : pre.length + a.length ≤ buf.len) (off n : Nat) (h : off + n ≤ a.length) :
    buf.get (pre.length + off) n = .ok ((a.drop off).take n) := by
  rw [Buffer.get_bytes hcap (by omega)]
  have hall : pre ++ a <+: buf.bytes := by
    refine List.prefix_of_prefix_length_le ?_ hb (by simpa using hlen)
    rw [← List.append_assoc]
    exact List.prefix_append _ _
  obtain ⟨more, hmore⟩ := hall
  rw [← hmore, List.append_assoc, List.drop_length_add_append, List.drop_append_of_le_length (by omega),
    List.take_append_of_le_length (by rw [List.length_drop]; omega)]

theorem byte_of_prefix {l : Bytes} (hb : buf.bytes <+: l) (hcap : buf.len ≤ buf.capacity) {i : Nat} (hi : i < buf.len)
    {t : UInt8} (ht : l[i]? = some t) : buf.byte i = .ok t := by
  refine Buffer.byte_ok ?_ hcap
  have hi' : i < buf.bytes.length := by rwa [Buffer.length_bytes]
  rw [List.getElem?_eq_getElem hi', hb.getElem hi', ← ht, List.getElem?_eq_getElem]

/-- The first byte of an address goes into `abuf` in any case. -/
theorem requestAddress_atyp (habuf : abuf.Hands SOCKET_BUF_SIZE) (t : UInt8) :
    ∃ abuf', { abuf with idx := 0, len := 0 }.append [t] = .ok abuf' ∧ abuf'.bytes = [t] ∧ abuf'.len = 1 ∧
      SOCKET_BUF_SIZE ≤ abuf'.capacity := by
  have hsize : SOCKET_BUF_SIZE = 16383 := rfl
  have hroom := habuf.room
  obtain ⟨abuf', happ, hbytes, hlen, hcap⟩ := Buffer.append_ok { abuf with idx := 0, len := 0 } [t]
    (by simp only [List.length_singleton]; omega)
  exact ⟨abuf', happ, hbytes, hlen, hcap ▸ hroom⟩

/-- An address is found when all of it is there. -/
structure Finds (buf : Buffer) (a : Bytes) (dst : Destination) (x : C (Buffer × Address)) : Prop where
  more : buf.len < 3 + a.length → ∃ abuf', x = .ok (abuf', .more) ∧ abuf'.Hands SOCKET_BUF_SIZE
  found : 3 + a.length ≤ buf.len →
    ∃ abuf', x = .ok (abuf', .found dst) ∧ abuf'.Hands SOCKET_BUF_SIZE ∧ abuf'.bytes = a

theorem requestIp_finds {t : UInt8} {addr port pre : Bytes} {n : Nat} (ha : addr.length = n) (hp : port.length = 2)
    (hn : n ≤ 16) (hpre : pre.length = 3) (hb : buf.bytes <+: pre ++ (t :: addr ++ port ++ rest))
    (hcap : buf.len ≤ buf.capacity) (hab : abuf.bytes = [t]) (hlen : abuf.len = 1)
    (hroom : SOCKET_BUF_SIZE ≤ abuf.capacity) (ip : Bytes → CorkIp) :
    Finds buf (t :: addr ++ port) (.ip (ip addr)) (requestIp abuf buf n ip) := by
  have hsize : SOCKET_BUF_SIZE = 16383 := rfl
  have hall : (t :: addr ++ port).length = n + 3 := by
    simp only [List.cons_append, List.length_cons, List.length_append]
    omega
  constructor
  · intro hlt
    rw [requestIp, if_pos (by omega)]
    exact ⟨abuf, rfl, hroom, by omega⟩
  · intro hle
    have hget := get_of_prefix hb hcap (by omega) 1 (n + 2) (by omega)
    have hrest : ((t :: addr ++ port).drop 1).take (n + 2) = addr ++ port := by
      rw [List.cons_append, List.drop_succ_cons, List.drop_zero]
      exact List.take_of_length_le (by rw [List.length_append]; omega)
    rw [hpre, hrest] at hget
    obtain ⟨abuf', happ, hab', hlen', hcap'⟩ := Buffer.append_ok abuf (addr ++ port)
      (by rw [List.length_append]; omega)
    rw [requestIp, if_neg (by omega), hget, C.ok_bind, happ, C.ok_bind, List.take_left' ha]
    refine ⟨abuf', rfl, ⟨by omega, ?_⟩, by rw [hab', hab]; rfl⟩
    rw [hlen', hcap', List.length_append]
    omega

theorem requestAddress_finds {a : Bytes} (ha : IsAddress a dst) {pre : Bytes} (hpre : pre.length = 3)
    (hb : buf.bytes <+: pre ++ (a ++ rest)) (hbuf : buf.Hands SOCKET_BUF_SIZE) (h4 : 4 ≤ buf.len)
    (habuf : abuf.Hands SOCKET_BUF_SIZE) : Finds buf a dst (requestAddress abuf buf) := by
  have hsize : SOCKET_BUF_SIZE = 16383 := rfl
  have hcap := hbuf.fits
  have hroom := hbuf.room
  have hatyp : ∀ {t : UInt8} {w : Bytes}, a = t :: w → buf.byte 3 = .ok t := by
    rintro t w rfl
    exact byte_of_prefix hb hcap (by omega) (by rw [List.getElem?_append_right (by omega), hpre]; rfl)
  cases ha with
  | @ipv4 addr port ha hp =>
    obtain ⟨ab, happ, hab, hlen, hroom⟩ := requestAddress_atyp habuf SOCKS5_ATYP_IPV4
    simp only [requestAddress, hatyp rfl, C.ok_bind, happ, ↓reduceIte]
    exact requestIp_finds ha hp (by omega) hpre hb hcap hab hlen hroom .v4
  | @ipv6 addr port ha hp =>
    obtain ⟨ab, happ, hab, hlen, hroom⟩ := requestAddress_atyp habuf SOCKS5_ATYP_IPV6
    have h14 : SOCKS5_ATYP_IPV6 ≠ SOCKS5_ATYP_IPV4 := by decide
    have h34 : SOCKS5_ATYP_IPV6 ≠ SOCKS5_ATYP_DOMAIN := by decide
    simp only [requestAddress, hatyp rfl, C.ok_bind, happ, h14, h34, ↓reduceIte]
    exact requestIp_finds ha hp (by omega) hpre hb hcap hab hlen hroom .v6
  | @domain n name port hn hp =>
    obtain ⟨ab, happ, hab, hlen, habroom⟩ := requestAddress_atyp habuf SOCKS5_ATYP_DOMAIN
    have h13 : SOCKS5_ATYP_DOMAIN ≠ SOCKS5_ATYP_IPV4 := by decide
    have hn' := n.toNat_lt
    have hall : (SOCKS5_ATYP_DOMAIN :: n :: name ++ port).length = n.toNat + 4 := by
      simp only [List.cons_append, List.length_cons, List.length_append]
      omega
    simp only [requestAddress, hatyp rfl, C.ok_bind, happ, h13, ↓reduceIte]
    by_cases h5 : buf.len = 4
    · -- whatever the byte behind the four is
      have hbyte : buf.byte 4 = .ok (buf.data 4) := if_pos (by omega)
      rw [hbyte, C.ok_bind, if_pos (by omega)]
      exact ⟨fun _ => ⟨ab, rfl, habroom, by omega⟩, fun hle => absurd hle (by omega)⟩
    · have hbyte : buf.byte 4 = .ok n :=
        byte_of_prefix hb hcap (by omega) (by rw [List.getElem?_append_right (by omega), hpre]; rfl)
      rw [hbyte, C.ok_bind]
      constructor
      · intro hlt
        rw [if_pos (by omega)]
        exact ⟨ab, rfl, habroom, by omega⟩
      · intro hle
        have hget := get_of_prefix hb hcap (by omega) 2 (n.toNat + 2) (by omega)
        have hrest : ((SOCKS5_ATYP_DOMAIN :: n :: name ++ port).drop 2).take (n.toNat + 2) = name ++ port := by
          simp only [List.cons_append, List.drop_succ_cons, List.drop_zero]
          exact List.take_of_length_le (by rw [List.length_append]; omega)
        rw [hpre, hrest] at hget
        obtain ⟨ab₁, happ₁, hab₁, hlen₁, hcap₁⟩ := Buffer.append_ok ab [n]
          (by rw [List.length_singleton]; omega)
        rw [List.length_singleton] at hlen₁
        obtain ⟨ab₂, happ₂, hab₂, hlen₂, hcap₂⟩ := Buffer.append_ok ab₁ (name ++ port)
          (by rw [List.length_append]; omega)
        rw [if_neg (by omega), happ₁, C.ok_bind, hget, C.ok_bind, happ₂, C.ok_bind, List.take_left' hn]
        refine ⟨ab₂, rfl, ⟨by omega, ?_⟩, by rw [hab₂, hab₁, hab]; rfl⟩
        rw [hlen₂, hcap₂, List.length_append]
        omega

end

/-! ### The invariant -/

section
variable {Ctx G : Type}

/-- What has been made of `plain`, with or without encryption. -/
def Carries (sends : Bytes → Bytes → Ctx → Prop) (direct : Bool) (plain wire : Bytes) (ctx : Ctx) : Prop :=
  if direct then wire = plain else sends plain wire ctx

/-- What is to be put in front of `remote->buf`. -/
def ServerT.header (server : ServerT Ctx) (direct : Bool) : Bytes :=
  if direct then [] else server.abuf.elim [] Buffer.bytes

structure Streams (q : ClientStream) (c : Conn Ctx G) (server : ServerT Ctx) (remote : RemoteT) : Prop where
  stage : server.stage = .STREAM
  direct : remote.direct = c.direct
  arrived : q.select.length + q.request.length ≤ c.received.length
  room : SOCKET_BUF_SIZE ≤ remote.buf.capacity
  abuf : ∀ b ∈ server.abuf, b.len ≤ b.capacity

/-- `remote->buf` holds the payload that is missing on the wire. -/
structure Ready (q : ClientStream) (sends : Bytes → Bytes → Ctx → Prop) (c : Conn Ctx G) (server : ServerT Ctx)
    (remote : RemoteT) : Prop extends Streams q c server remote where
  recv_io : server.recv_io = true
  send_io : remote.send_io = false
  delayed : server.delayed_connect = true → remote.connected = false
  fits : remote.buf.len ≤ SOCKET_BUF_SIZE
  carries : ∃ plain, plain ++ remote.buf.bytes = q.plain c.direct c.received ∧
    Carries sends c.direct plain (c.toRemote ++ server.header c.direct) server.e_ctx

/-- `remote->buf` holds the rest of the wire, and the callback that sends it is to be started. -/
structure Encoded (q : ClientStream) (sends : Bytes → Bytes → Ctx → Prop) (c : Conn Ctx G) (server : ServerT Ctx)
    (remote : RemoteT) : Prop extends Streams q c server remote where
  recv_io : server.recv_io = true
  send_io : remote.send_io = false
  delayed : server.delayed_connect = false
  busy : remote.connected = true → 0 < remote.buf.len
  fits : remote.buf.len ≤ remote.buf.capacity
  header : server.header c.direct = []
  carries : Carries sends c.direct (q.plain c.direct c.received) (c.toRemote ++ remote.buf.bytes) server.e_ctx

/-- It has been started, over the rest of the wire. -/
structure Sending (q : ClientStream) (sends : Bytes → Bytes → Ctx → Prop) (c : Conn Ctx G) (server : ServerT Ctx)
    (remote : RemoteT) : Prop extends Streams q c server remote where
  recv_io : server.recv_io = false
  send_io : remote.send_io = true
  delayed : server.delayed_connect = false
  busy : remote.connected = true → 0 < remote.buf.len
  fits : remote.buf.idx + remote.buf.len ≤ remote.buf.capacity
  header : server.header c.direct = []
  carries : Carries sends c.direct (q.plain c.direct c.received) (c.toRemote ++ remote.buf.pending) server.e_ctx

/-- The request has not been read. -/
structure Unsent (sends : Bytes → Bytes → Ctx → Prop) (c : Conn Ctx G) (server : ServerT Ctx) : Prop where
  remote : c.remote = none
  toRemote : c.toRemote = []
  direct : c.direct = false
  sends : sends [] [] server.e_ctx
  room : SOCKET_BUF_SIZE ≤ server.buf.capacity
  fits : server.buf.len ≤ SOCKET_BUF_SIZE
  abuf : ∃ b, server.abuf = some b ∧ b.Hands SOCKET_BUF_SIZE
  recv_io : server.recv_io = true
  delayed : server.delayed_connect = false

inductive Phase (q : ClientStream) (sends : Bytes → Bytes → Ctx → Prop) (c : Conn Ctx G) (server : ServerT Ctx) : Prop
  | init (hst : server.stage = .INIT) (hbuf : server.buf.bytes = c.received) (hlt : c.received.length < q.select.length)
      (h : Unsent sends c server)
  | handshake (hst : server.stage = .HANDSHAKE) (hbuf : c.received = q.select ++ server.buf.bytes)
      (hlt : server.buf.len < q.request.length) (h : Unsent sends c server)
  | listening (remote : RemoteT) (hr : c.remote = some remote) (hlen : remote.buf.len = 0)
      (h : Ready q sends c server remote)
  | sending (remote : RemoteT) (hr : c.remote = some remote) (h : Sending q sends c server remote)

/-- The ACL lets the client connect to `dst` itself. -/
def Bypasses (A : Option AclT) (dst : Destination) : Prop := ∃ acl ∈ A, ∃ resolved, acl.bypass dst resolved = true

/-- What has been read and answered. -/
structure Told (q : ClientStream) (A : Option AclT) (c : Conn Ctx G) : Prop where
  received : c.received <+: q.bytes
  replies : c.replies = q.answers c.received.length
  bypassed : c.direct = true → Bypasses A q.dst

/-- `remote` has accepted a part of what a part of the stream has been made into. -/
def Uploaded (q : ClientStream) (sends : Bytes → Bytes → Ctx → Prop) (c : Conn Ctx G) : Prop :=
  ∃ plain wire ctx, Carries sends c.direct plain wire ctx ∧ c.toRemote <+: wire ∧ plain <+: q.plain c.direct c.received

/-- What remains when the connection is closed. -/
structure Past (q : ClientStream) (A : Option AclT) (sends : Bytes → Bytes → Ctx → Prop) (c : Conn Ctx G) : Prop
    extends Told q A c where
  uploaded : Uploaded q sends c

structure Inv (q : ClientStream) (A : Option AclT) (sends : Bytes → Bytes → Ctx → Prop) (c : Conn Ctx G) : Prop
    extends Past q A sends c where
  server : ∀ server, c.server = some server → Phase q sends c server
  closed : c.server = none → c.remote = none

/-- The computation ends in a connection that keeps the invariant, and is open if `good`. -/
def Ends (q : ClientStream) (A : Option AclT) (sends : Bytes → Bytes → Ctx → Prop) (good : Prop) (x : C (Conn Ctx G)) :
    Prop :=
  ∃ c', x = .ok c' ∧ Inv q A sends c' ∧ (good → c'.server ≠ none)

variable {q : ClientStream} {A : Option AclT} {sends : Bytes → Bytes → Ctx → Prop} {c c' : Conn Ctx G}
  {server : ServerT Ctx} {remote : RemoteT}

theorem Ends.mono {good good' : Prop} {x : C (Conn Ctx G)} (h : Ends q A sends good x) (hg : good' → good) :
    Ends q A sends good' x := by
  obtain ⟨c', hx, hinv, ho⟩ := h
  exact ⟨c', hx, hinv, fun hgood => ho (hg hgood)⟩

theorem Past.closeBoth (h : Past q A sends c) : Inv q A sends c.closeBoth :=
  ⟨⟨⟨h.received, h.replies, h.bypassed⟩, h.uploaded⟩, by rintro _ ⟨⟩, fun _ => rfl⟩

theorem sendRemote_ok {buf : Buffer} {off n : Nat} (h : off + n ≤ buf.capacity) :
    c.sendRemote buf off n = .ok { c with toRemote := c.toRemote ++ buf.data.read off n } := by
  rw [Conn.sendRemote, Buffer.get_ok h, C.ok_bind]
  rfl

theorem Carries.uploaded {plain wire : Bytes} {ctx : Ctx} (h : Carries sends c.direct plain wire ctx)
    (hw : c.toRemote <+: wire) (hp : plain <+: q.plain c.direct c.received) : Uploaded q sends c :=
  ⟨plain, wire, ctx, h, hw, hp⟩

/-! ### `server_stream` -/

/-- The rest of what is on the way waits for the callback. -/
theorem Encoded.wait (h : Encoded q sends c server remote) (ht : Told q A c) {toRemote : Bytes} {idx len : Nat}
    (hsplit : toRemote ++ remote.buf.data.read idx len = c.toRemote ++ remote.buf.bytes)
    (hfits : idx + len ≤ remote.buf.len) (hbusy : remote.connected = true → 0 < len) :
    Inv q A sends { c with
      toRemote
      server := some { server with recv_io := false }
      remote := some { remote with buf := { remote.buf with idx, len }, send_io := true } } := by
  have hcar := h.carries
  rw [← hsplit] at hcar
  refine ⟨⟨⟨ht.received, ht.replies, ht.bypassed⟩, ⟨_, _, _, hcar, List.prefix_append _ _, List.prefix_rfl⟩⟩, ?_, nofun⟩
  rintro _ ⟨⟩
  exact .sending _ rfl ⟨⟨h.stage, h.direct, h.arrived, h.room, h.abuf⟩, rfl, rfl, h.delayed, hbusy, hfits.trans h.fits,
    h.header, hcar⟩

theorem streamSend_ends (h : Encoded q sends c server remote) (ht : Told q A c) (io : StreamIo) :
    Ends q A sends io.Good (streamSend c server remote io) := by
  have hpast : Past q A sends c := ⟨ht, ⟨_, _, _, h.carries, List.prefix_append _ _, List.prefix_rfl⟩⟩
  have hfits := h.fits
  have hall : Inv q A sends { c with
      server := some { server with recv_io := false }
      remote := some { remote with buf := { remote.buf with idx := 0 }, send_io := true } } :=
    h.wait ht rfl (by omega) h.busy
  have hpart : ∀ n ≤ remote.buf.len, (remote.connected = true → n < remote.buf.len) → Inv q A sends { c with
      toRemote := c.toRemote ++ remote.buf.data.read 0 n
      server := some { server with recv_io := false }
      remote := some { remote with
        buf := { remote.buf with len := remote.buf.len - n, idx := n }, send_io := true } } := by
    intro n hn hlt
    refine h.wait ht ?_ (by omega) (fun hc => Nat.sub_pos_of_lt (hlt hc))
    rw [List.append_assoc, Buffer.bytes_eq_append _ hn]
  rw [streamSend]
  split
  · rename_i hconn
    rw [Bool.not_eq_true'] at hconn
    split
    · split
      · rename_i hfail
        refine ⟨_, rfl, hpast.closeBoth, fun hgood => ?_⟩
        rw [hgood.1] at hfail
        cases hfail
      · exact ⟨_, rfl, hall, fun _ => nofun⟩
    · split
      · exact ⟨_, rfl, hall, fun _ => nofun⟩
      · rename_i hsend
        exact ⟨_, rfl, hpast.closeBoth, fun hgood => absurd hsend hgood.2⟩
      · rename_i n _
        simp only
        rw [sendRemote_ok (by simp only; omega), C.ok_bind]
        refine ⟨_, rfl, hpart _ (Nat.min_le_right _ _) ?_, fun _ => nofun⟩
        rw [hconn]
        exact nofun
  · split
    · exact ⟨_, rfl, hall, fun _ => nofun⟩
    · rename_i hsend
      exact ⟨_, rfl, hpast.closeBoth, fun hgood => absurd hsend hgood.2⟩
    · split
      · rename_i hlt
        rw [sendRemote_ok (by omega), C.ok_bind]
        exact ⟨_, rfl, hpart _ (by omega) fun _ => hlt, fun _ => nofun⟩
      · rw [sendRemote_ok (by omega), C.ok_bind]
        refine ⟨_, rfl, ⟨⟨⟨ht.received, ht.replies, ht.bypassed⟩, ⟨_, _, _, h.carries, List.prefix_rfl,
          List.prefix_rfl⟩⟩, ?_,
          nofun⟩, fun _ => nofun⟩
        rintro _ ⟨⟩
        refine .listening _ rfl rfl ⟨⟨h.stage, h.direct, h.arrived, h.room, h.abuf⟩, h.recv_io, h.send_io, ?_,
          Nat.zero_le _, ?_⟩
        · rw [h.delayed]
          exact nofun
        · refine ⟨_, List.append_nil _, ?_⟩
          rw [h.header, List.append_nil]
          exact h.carries

theorem ClientStream.body_prefix {received : Bytes} (h : received <+: q.bytes) : q.body received <+: q.payload := by
  have hdrop := h.drop (q.select.length + q.request.length)
  rwa [ClientStream.bytes, List.drop_length_add_append, List.drop_left] at hdrop

theorem ClientStream.plain_prefix {received : Bytes} (h : received <+: q.bytes) :
    q.plain false received <+: q.address ++ q.payload :=
  (List.prefix_append_right_inj _).2 (ClientStream.body_prefix h)

theorem prependHeader_ok {buf : Buffer} (hbuf : buf.Hands SOCKET_BUF_SIZE)
    (h : ∀ b ∈ server.abuf, b.len ≤ b.capacity) :
    ∃ b', prependHeader buf server.abuf = .ok b' ∧ b'.bytes = server.header false ++ buf.bytes ∧
      b'.Hands SOCKET_BUF_SIZE := by
  rw [ServerT.header, if_neg (by decide)]
  cases habuf : server.abuf with
  | none => exact ⟨buf, rfl, rfl, hbuf⟩
  | some abuf => exact bprepend_ok hbuf (h abuf habuf)

section
variable {K : CryptoT Ctx G} {fresh : Ctx → G → Prop} {d_ctx : Ctx} {Counts : Nat → Prop} {Whole : List Bytes → Prop}

theorem server_stream_ends (hK : Encodes K fresh d_ctx Counts q.address Whole sends)
    (hcount : ∀ n ≤ (q.address ++ q.payload).length, Counts n) (h : Ready q sends c server remote)
    (hr : c.remote = some remote) (hdel : server.delayed_connect = false)
    (hbusy : remote.connected = true → 0 < remote.buf.len) (ht : Told q A c) (io : StreamIo) :
    Ends q A sends io.Good (server_stream K c server io) := by
  obtain ⟨plain, hplain, hcar⟩ := h.carries
  have hroom := h.room
  have hfits := h.fits
  simp only [server_stream, hr, h.direct]
  cases hdirect : c.direct with
  | true =>
    rw [hdirect, Carries, if_pos rfl, ServerT.header, if_pos rfl, List.append_nil] at hcar
    rw [if_pos rfl]
    refine streamSend_ends ⟨h.toStreams, h.recv_io, h.send_io, hdel, hbusy, hfits.trans hroom, ?_, ?_⟩ ht io
    · rw [hdirect, ServerT.header, if_pos rfl]
    · rw [← hplain, hdirect, Carries, if_pos rfl, hcar]
  | false =>
    rw [hdirect, Carries, if_neg (by decide)] at hcar
    rw [if_neg (by decide)]
    rw [hdirect] at hplain
    have hlen : plain.length + remote.buf.len ≤ (q.address ++ q.payload).length := by
      have hle := (ClientStream.plain_prefix ht.received).length_le
      rwa [← hplain, List.length_append, Buffer.length_bytes] at hle
    have hfirst : plain = [] → q.address <+: remote.buf.bytes := by
      rintro rfl
      exact ⟨q.body c.received, hplain.symm⟩
    obtain ⟨b, e_ctx, g, hcall, hb, hgrow, hsends⟩ :=
      hK.encrypt c.g hcar ⟨hroom, hfits.trans hroom⟩ hfits (hcount _ hlen) hfirst
    obtain ⟨b', hprep, hbytes, hb'⟩ := prependHeader_ok hb h.abuf
    rw [hcall, C.ok_bind, if_neg (fun hne => hne rfl), hprep, C.ok_bind]
    rw [hplain, List.append_assoc, ← hbytes] at hsends
    have hready : Encoded q sends { c with g } { server with abuf := none, e_ctx } { remote with buf := b' } := by
      have hlen' := congrArg List.length hbytes
      rw [Buffer.length_bytes, List.length_append, Buffer.length_bytes] at hlen'
      refine ⟨⟨h.stage, h.direct, h.arrived, hb'.room, by simp⟩, h.recv_io, h.send_io, hdel, ?_, hb'.fits, ?_, ?_⟩
      · intro hconn
        have hpos := hbusy hconn
        simp only
        omega
      · rw [ServerT.header]
        split <;> rfl
      · simp only [hdirect, Carries]
        exact hsends
    have hd : remote.direct = false := h.direct.trans hdirect
    simpa only [hr, hdirect, hd] using streamSend_ends hready ⟨ht.received, ht.replies, ht.bypassed⟩ io

/-! ### `server_handshake` -/

theorem chooseRemote_new {dst : Destination} {io : HandshakeIo}
    (h : chooseRemote A dst io = some remote) :
    ∃ direct, remote = new_remote io.junk direct ∧ (direct = true → Bypasses A dst) := by
  have hnew : ∀ {ok direct}, create_remote ok io.junk direct = some remote → remote = new_remote io.junk direct := by
    intro ok direct h
    rw [create_remote] at h
    split at h
    · cases h
      rfl
    · cases h
  rw [chooseRemote] at h
  split at h
  · rename_i hacl
    rw [Bool.and_eq_true, Option.any_eq_true] at hacl
    obtain ⟨⟨acl, hA, hbypass⟩, -⟩ := hacl
    rcases Option.or_eq_some_iff.1 h with h | ⟨-, h⟩
    · exact ⟨true, hnew h, fun _ => ⟨acl, hA, _, hbypass⟩⟩
    · exact ⟨false, hnew h, nofun⟩
  · exact ⟨false, hnew h, nofun⟩

theorem chooseRemote_some (A : Option AclT) (dst : Destination) {io : HandshakeIo} (h : io.remote = true) :
    chooseRemote A dst io ≠ none := by
  have hnew : create_remote io.remote io.junk false = some (new_remote io.junk false) := if_pos h
  rw [chooseRemote, hnew]
  split
  · rw [ne_eq, Option.or_eq_none_iff]
    exact fun hnone => nomatch hnone.2
  · exact nofun

/-- After a round of the loop: the callback is done, or the next round is that of `STAGE_STREAM`. -/
inductive Next (q : ClientStream) (A : Option AclT) (sends : Bytes → Bytes → Ctx → Prop) (good : Prop) :
    Conn Ctx G × Bool → Prop
  | done {c : Conn Ctx G} (h : Inv q A sends c) (ho : good → c.server ≠ none) : Next q A sends good (c, false)
  | more {c : Conn Ctx G} {server : ServerT Ctx} {remote : RemoteT} (hs : c.server = some server)
      (hr : c.remote = some remote) (hdel : server.delayed_connect = false)
      (hconn : remote.connected = false) (ht : Told q A c) (h : Ready q sends c server remote) :
      Next q A sends good (c, true)

/-- The connection as `server_handshake` goes on after the reply. -/
structure Granted (q : ClientStream) (sends : Bytes → Bytes → Ctx → Prop) (c : Conn Ctx G) (server : ServerT Ctx) : Prop
    extends Unsent sends c server where
  received : c.received <+: q.bytes
  replies : c.replies = q.answers c.received.length
  arrived : q.select.length + q.request.length ≤ c.received.length
  stage : server.stage = .STREAM
  bytes : server.buf.bytes = q.body c.received

theorem Unsent.past (h : Unsent sends c server) (hrec : c.received <+: q.bytes)
    (hrep : c.replies = q.answers c.received.length) : Past q A sends c := by
  have hbypass : c.direct = true → Bypasses A q.dst := by
    rw [h.direct]
    exact nofun
  refine ⟨⟨hrec, hrep, hbypass⟩, [], [], server.e_ctx, ?_, by rw [h.toRemote], List.nil_prefix⟩
  rw [h.direct, Carries, if_neg (by decide)]
  exact h.sends

/-- `remote` gets the payload; the address has been encrypted if it is to go there. -/
theorem Granted.next (h : Granted q sends c server) (direct : Bool) {g : G} {abuf : Buffer} {e_ctx : Ctx}
    (habuf : abuf.len ≤ abuf.capacity) (hbypass : direct = true → Bypasses A q.dst) (junk : Block)
    (hcar : Carries sends direct (if direct then [] else q.address) (if direct then [] else abuf.bytes) e_ctx)
    {rbuf : Buffer} (hrbuf : rbuf.bytes = server.buf.bytes) (hroom : SOCKET_BUF_SIZE ≤ rbuf.capacity) (good : Prop) :
    Next q A sends good ({ c with
      g
      server := some { server with abuf := some abuf, e_ctx, delayed_connect := server.buf.len = 0 }
      remote := some { new_remote junk direct with buf := rbuf }
      direct }, 0 < server.buf.len) := by
  have hlen : rbuf.len = server.buf.len := by
    rw [← rbuf.length_bytes, hrbuf, Buffer.length_bytes]
  have hready : Ready q sends { c with
      g
      server := some { server with abuf := some abuf, e_ctx, delayed_connect := server.buf.len = 0 }
      remote := some { new_remote junk direct with buf := rbuf }
      direct } { server with abuf := some abuf, e_ctx, delayed_connect := server.buf.len = 0 }
      { new_remote junk direct with buf := rbuf } := by
    refine ⟨⟨h.stage, rfl, h.arrived, hroom, ?_⟩, h.recv_io, rfl, fun _ => rfl, hlen ▸ h.fits,
      if direct then [] else q.address, ?_, ?_⟩
    · rintro _ ⟨⟩
      exact habuf
    · simp only [ClientStream.plain]
      rw [hrbuf, h.bytes]
      split <;> rfl
    · simp only [h.toRemote, ServerT.header, Option.elim_some, List.nil_append]
      exact hcar
  by_cases h0 : server.buf.len = 0
  · have hmore : decide (0 < server.buf.len) = false := by simp [h0]
    rw [hmore]
    obtain ⟨plain, hplain, hcar'⟩ := hready.carries
    refine .done ⟨⟨⟨h.received, h.replies, hbypass⟩, plain, _, _, hcar', List.prefix_append _ _,
      hplain ▸ List.prefix_append _ _⟩, ?_, nofun⟩ fun _ => nofun
    rintro _ ⟨⟩
    exact .listening _ rfl (hlen.trans h0) hready
  · have hmore : decide (0 < server.buf.len) = true := by
      simp only [decide_eq_true_eq]
      omega
    rw [hmore]
    exact .more rfl rfl (by simp [h0]) rfl ⟨h.received, h.replies, hbypass⟩ hready

theorem handshakeConnect_next (hK : Encodes K fresh d_ctx Counts q.address Whole sends)
    (hcount : ∀ n ≤ (q.address ++ q.payload).length, Counts n) (h : Granted q sends c server) {abuf : Buffer}
    (habuf : abuf.Hands SOCKET_BUF_SIZE) (hab : abuf.bytes = q.address) (A : Option AclT)
    (io : HandshakeIo) : ∃ r, handshakeConnect K A c server abuf q.dst io = .ok r ∧ Next q A sends io.Good r := by
  have hsize : SOCKET_BUF_SIZE = 16383 := rfl
  have hroom := h.room
  have hfits := h.fits
  rw [handshakeConnect]
  cases hchoose : chooseRemote A q.dst io with
  | none =>
    have hpast := h.past (A := A) h.received h.replies
    exact ⟨_, rfl, .done ⟨⟨⟨hpast.received, hpast.replies, hpast.bypassed⟩, hpast.uploaded⟩, by rintro _ ⟨⟩,
      fun _ => h.remote⟩ fun hgood => absurd hchoose (chooseRemote_some A q.dst hgood.2)⟩
  | some remote =>
    obtain ⟨direct, rfl, hbypass⟩ := chooseRemote_new hchoose
    have hget : server.buf.get 0 server.buf.len = .ok (server.buf.data.read 0 server.buf.len) :=
      Buffer.get_ok (by omega)
    obtain ⟨rbuf, happ, hbytes, -, hcap⟩ := Buffer.append_ok (balloc io.junk SOCKET_BUF_SIZE)
      (server.buf.data.read 0 server.buf.len)
      (by rw [Block.length_read]; simp only [balloc]; omega)
    have happ' : (new_remote io.junk direct).buf.append (server.buf.data.read 0 server.buf.len) = .ok rbuf := happ
    cases direct with
    | true =>
      simp only [new_remote, ↓reduceIte, C.ok_bind, hget] at happ' ⊢
      simp only [ne_eq, not_true_eq_false, ↓reduceIte, happ', C.ok_bind]
      exact ⟨_, rfl, h.next true habuf.fits hbypass io.junk rfl hbytes hcap.ge io.Good⟩
    | false =>
      have hlen : abuf.len = q.address.length := by rw [← hab, Buffer.length_bytes]
      have hle := q.is_address.length_le
      obtain ⟨b, e_ctx, g, hcall, hb, -, hsends⟩ := hK.encrypt c.g h.sends habuf (by omega)
        (hcount _ (by rw [List.length_append, List.length_nil, hlen]; omega)) fun _ => hab ▸ List.prefix_rfl
      simp only [new_remote, Bool.false_eq_true, ↓reduceIte, hcall, C.ok_bind, hget] at happ' ⊢
      simp only [ne_eq, not_true_eq_false, ↓reduceIte, happ', C.ok_bind]
      rw [hab] at hsends
      exact ⟨_, rfl, h.next false hb.fits hbypass io.junk hsends hbytes hcap.ge io.Good⟩

/-- `server_handshake` is called for the bytes behind the method selection, which has been answered. -/
structure Selected (q : ClientStream) (sends : Bytes → Bytes → Ctx → Prop) (c : Conn Ctx G) (server : ServerT Ctx) :
    Prop extends Unsent sends c server where
  received : c.received <+: q.bytes
  replies : c.replies = [[SVERSION, METHOD_NOAUTH]]
  stage : server.stage = .HANDSHAKE
  bytes : c.received = q.select ++ server.buf.bytes

theorem ClientStream.answers_none {n : Nat} (h : n < q.select.length) : q.answers n = [] := by
  rw [answers, if_neg (by omega), if_neg (by omega)]
  rfl

theorem ClientStream.answers_selected {n : Nat} (h : q.select.length ≤ n)
    (hlt : n < q.select.length + q.request.length) : q.answers n = [[SVERSION, METHOD_NOAUTH]] := by
  rw [answers, if_pos h, if_neg (by omega)]
  rfl

theorem ClientStream.answers_all {n : Nat} (h : q.select.length + q.request.length ≤ n) :
    q.answers n = [[SVERSION, METHOD_NOAUTH], socks5_response SOCKS5_REP_SUCCEEDED ++ List.replicate 6 0] := by
  rw [answers, if_pos (by omega), if_pos h]
  rfl

/-- The request is not all there. -/
theorem Selected.wait (h : Selected q sends c server) (hlt : server.buf.len < q.request.length) :
    Inv q A sends { c with server := some server } := by
  have hlen := congrArg List.length h.bytes
  rw [List.length_append, Buffer.length_bytes] at hlen
  have hrep : c.replies = q.answers c.received.length := by
    rw [h.replies, ClientStream.answers_selected (by omega) (by omega)]
  have hpast := h.past (A := A) h.received hrep
  refine ⟨⟨⟨hpast.received, hpast.replies, hpast.bypassed⟩, hpast.uploaded⟩, ?_, nofun⟩
  rintro _ ⟨⟩
  exact .handshake h.stage h.bytes hlt ⟨h.remote, h.toRemote, h.direct, h.sends, h.room, h.fits, h.abuf, h.recv_io,
    h.delayed⟩

theorem Selected.bytes_prefix (h : Selected q sends c server) :
    server.buf.bytes <+: [q.ver, SOCKS5_CMD_CONNECT, q.rsv] ++ (q.address ++ q.payload) := by
  have hrec := h.received
  rw [h.bytes, ClientStream.bytes, List.prefix_append_right_inj, ClientStream.request, List.append_assoc] at hrec
  exact hrec

theorem server_handshake_next (hK : Encodes K fresh d_ctx Counts q.address Whole sends)
    (hcount : ∀ n ≤ (q.address ++ q.payload).length, Counts n) (h : Selected q sends c server) (A : Option AclT)
    (io : HandshakeIo) : ∃ r, server_handshake K A c server io = .ok r ∧ Next q A sends io.Good r := by
  have hreq := q.length_request
  have haddr := q.is_address.length_le
  have hcap : server.buf.len ≤ server.buf.capacity := h.fits.trans h.room
  rw [server_handshake]
  by_cases h4 : server.buf.len < 4
  · rw [if_pos h4]
    exact ⟨_, rfl, .done (h.wait (by omega)) fun _ => nofun⟩
  have hcmd : server.buf.byte 1 = .ok SOCKS5_CMD_CONNECT := byte_of_prefix h.bytes_prefix hcap (by omega) rfl
  have hudp : SOCKS5_CMD_CONNECT ≠ SOCKS5_CMD_UDP_ASSOCIATE := by decide
  obtain ⟨abuf₀, habuf₀, hands₀⟩ := h.abuf
  have hfinds := requestAddress_finds q.is_address rfl h.bytes_prefix ⟨h.room, hcap⟩ (by omega) hands₀
  simp only [h4, hcmd, C.ok_bind, hudp, habuf₀, ne_eq, not_true_eq_false, ↓reduceIte]
  by_cases hlt : server.buf.len < 3 + q.address.length
  · obtain ⟨abuf, hcall, hands⟩ := hfinds.more hlt
    simp only [hcall, C.ok_bind]
    refine ⟨_, rfl, .done ?_ fun _ => nofun⟩
    have hnew : Selected q sends c { server with abuf := some abuf } :=
      ⟨⟨h.remote, h.toRemote, h.direct, h.sends, h.room, h.fits, ⟨abuf, rfl, hands⟩, h.recv_io, h.delayed⟩, h.received,
        h.replies, h.stage, h.bytes⟩
    exact hnew.wait (by simp only; omega)
  · obtain ⟨abuf, hcall, hands, hab⟩ := hfinds.found (by omega)
    have habuf : abuf.len = q.address.length := by rw [← hab, Buffer.length_bytes]
    have hlen := congrArg List.length h.bytes
    rw [List.length_append, Buffer.length_bytes] at hlen
    have hrep : c.replies ++ [socks5_response SOCKS5_REP_SUCCEEDED ++ List.replicate 6 0] =
        q.answers c.received.length := by
      rw [h.replies, ClientStream.answers_all (by omega)]
      rfl
    simp only [hcall, C.ok_bind, server_handshake_reply, h.stage, ne_eq, not_true_eq_false, Bool.false_eq_true,
      ↓reduceIte]
    cases hsent : io.sent with
    | false =>
      have hunsent : Unsent sends (c.reply (socks5_response SOCKS5_REP_SUCCEEDED ++ List.replicate 6 0)) server :=
        ⟨h.remote, h.toRemote, h.direct, h.sends, h.room, h.fits, h.abuf, h.recv_io, h.delayed⟩
      refine ⟨_, rfl, .done (hunsent.past h.received hrep).closeBoth fun hgood => ?_⟩
      rw [HandshakeIo.Good, hsent] at hgood
      cases hgood.1
    | true =>
      obtain ⟨buf, hshift, hbytes, hbuf, hbufcap⟩ :=
        Buffer.shift_ok (b := server.buf) (n := 3 + abuf.len) (by omega) hcap
      have hgranted : Granted q sends (c.reply (socks5_response SOCKS5_REP_SUCCEEDED ++ List.replicate 6 0))
          { server with stage := .STREAM, buf } := by
        refine ⟨⟨h.remote, h.toRemote, h.direct, h.sends, hbufcap ▸ h.room, ?_, ⟨abuf₀, habuf₀, hands₀⟩, h.recv_io,
          h.delayed⟩, h.received, hrep, ?_, rfl, ?_⟩
        · have hfits := h.fits
          simp only
          omega
        · simp only [Conn.reply]
          omega
        · have hdrop : c.received.drop (q.select.length + q.request.length) = buf.bytes := by
            rw [h.bytes, List.drop_length_add_append, hbytes, habuf, hreq]
          exact hdrop.symm
      simp only [Bool.not_true, Bool.false_eq_true, ↓reduceIte, Bool.not_false, hshift, C.ok_bind]
      have hnext := handshakeConnect_next hK hcount hgranted hands hab A io
      rwa [habuf₀] at hnext

end

end

end Local

end OutlineServer
