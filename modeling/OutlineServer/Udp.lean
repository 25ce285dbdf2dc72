import OutlineServer.Cache
import OutlineServer.Lib.Trans
import OutlineServer.Resolv

/-!
# The UDP relay of ss-server (`udprelay.c`, `MODULE_REMOTE`)

One `server_ctx_t` with its connection cache, the `remote_ctx_t` it has opened and the `query_ctx` that wait for
`resolv.c`. A `query_ctx` keeps a bare pointer to a `remote_ctx_t`, which its timer or the cache may free in the
meantime; to follow it then is a fault. The static `conn_cache` and the buffers are data; time, sockets and `sendto`
are what each event brings along.
-/

namespace OutlineServer.Udp

def DEFAULT_PACKET_SIZE : Nat := 1397
def buf_size : Nat := DEFAULT_PACKET_SIZE * 2
def MAX_UDP_CONN_NUM : Nat := 512
def MAX_HOSTNAME_LEN : Nat := 256

/-- `crypto_t`, with its static variables `G`; `encrypt_all` takes the salt that it draws. -/
structure CryptoAll (G : Type) where
  encrypt_all : Bytes → G → Buffer → Nat → C (CryptoRet × Buffer × G)
  decrypt_all : G → Buffer → Nat → C (CryptoRet × Buffer × G)

/-- `remote_ctx_t`; `af` is `none` for `AF_UNSPEC`, `fd` is the family of the socket, `io` and `watcher` say whether
they are active. -/
structure RemoteCtx where
  io : Bool
  watcher : Bool
  af : Option Family
  fd : Family
  src_addr : SockAddr
  dst_addr : Option SockAddr
deriving DecidableEq

structure QueryCtx where
  src_addr : SockAddr
  buf : Bytes
  addr_header : Bytes
  remote_ctx : Option Nat
deriving DecidableEq

/-- What `hash_key` makes of an address family and an address. -/
abbrev Key := Option Family × SockAddr

def hash_key (af : Option Family) (addr : SockAddr) : Key := (af, addr)

structure World (G : Type) where
  g : G
  conn_cache : Cache Key Nat
  remotes : Heap RemoteCtx
  queries : Heap QueryCtx
  /-- History: the socket's family and the destination of every `sendto` on a `remote_ctx_t`. -/
  sent : List (Family × SockAddr)

/-- The clock, and whether `create_remote_socket` and `sendto` succeed. -/
structure NetIo where
  now : Nat
  socket : Bool
  sendto : Bool

variable {G : Type}

/-! ### The address header -/

/-- What `parse_udprelay_header` finds: the length of the header, the host name, the port as `htons(atoi(port))` gives
it back, and the address, `none` if `storage` keeps `AF_UNSPEC`. -/
structure UdpHeader where
  len : Nat
  host : Bytes
  port : Bytes
  dst : Option SockAddr
deriving DecidableEq

def udpHeaderPort (buf : Buffer) (offset : Nat) (host : Bytes) (dst : Bytes → Option SockAddr) :
    C (Option UdpHeader) := do
  let port ← buf.get offset 2
  return some ⟨offset + 2, host, port, dst port⟩

/-- The address of a host name that is an IP literal; an IPv6 one goes through `inet_pton(AF_INET, …)`, too. -/
def hostLiteral (N : NetLib) (s : Bytes) : Option CorkIp :=
  match N.cork_ip_init s with
  | some (.v4 _) => some (N.literal .AF_INET s)
  | some (.v6 _) =>
    match N.inet_pton .AF_INET s with
    | some addr => some (.v6 (addr ++ List.replicate 12 0))
    | none => some (.v6 (List.replicate 16 0))
  | none => none

/-- `none` for an invalid header. -/
def parse_udprelay_header (N : NetLib) (buf : Buffer) : C (Option UdpHeader) := do
  let first ← buf.get 0 1
  let atyp := (first.headD 0).toNat % 16
  if atyp = 1 then
    if 4 + 3 ≤ buf.len then
      let addr ← buf.get 1 4
      udpHeaderPort buf 5 (N.inet_ntop (.v4 addr)) fun port => some ⟨.v4 addr, port⟩
    else
      return none
  else if atyp = 3 then
    let second ← buf.get 1 1
    let name_len := (second.headD 0).toNat
    if name_len + 4 ≤ buf.len then
      let name ← buf.get 2 name_len
      let tmp := name ++ List.replicate (MAX_HOSTNAME_LEN - name_len) 0
      let s ← cstring tmp
      udpHeaderPort buf (name_len + 2) tmp fun port => (hostLiteral N s).map fun ip => ⟨ip, port⟩
    else
      return none
  else if atyp = 4 then
    if 16 + 3 ≤ buf.len then
      let addr ← buf.get 1 16
      udpHeaderPort buf 17 (N.inet_ntop (.v6 addr)) fun port => some ⟨.v6 addr, port⟩
    else
      return none
  else
    return none

def construct_udprelay_header (addr : SockAddr) : Bytes :=
  match addr.ip with
  | .v4 a => 1 :: a ++ addr.port
  | .v6 a => 4 :: a ++ addr.port

/-! ### Contexts -/

def new_remote (w : World G) (fd : Family) (src_addr : SockAddr) (dst_addr : Option SockAddr) : World G :=
  { w with remotes := w.remotes.alloc { io := false, watcher := false, af := none, fd, src_addr, dst_addr } }

def close_and_free_remote (w : World G) (ctx : Nat) : Mem Fault (World G) := do
  let _ ← Mem.deref (w.remotes.get ctx)
  return { w with remotes := w.remotes.free ctx }

/-- `free_cb`, for the data that the cache gives up. -/
def free_cb (w : World G) : Option Nat → Mem Fault (World G)
  | none => return w
  | some remote_ctx => close_and_free_remote w remote_ctx

/-- `cache_insert`, then `ev_io_start` and `ev_timer_start`. -/
def insertRemote (w : World G) (io : NetIo) (remote_ctx : Nat) : Mem Fault (World G) := do
  let rem ← Mem.deref (w.remotes.get remote_ctx)
  let (evicted, conn_cache) := cache_insert io.now w.conn_cache (hash_key rem.af rem.src_addr) remote_ctx
  let w ← free_cb { w with conn_cache } evicted
  let rem ← Mem.deref (w.remotes.get remote_ctx)
  return { w with remotes := w.remotes.put remote_ctx { rem with io := true, watcher := true } }

/-- `sendto(remote_ctx->fd, …, addr)`, and what follows it: a new context is freed if it fails, else it gets `af` and
goes into the cache. -/
def sendRemote (w : World G) (io : NetIo) (remote_ctx : Nat) (addr : SockAddr) (cache_hit : Bool)
    (af : Option Family) : Mem Fault (World G) := do
  let rem ← Mem.deref (w.remotes.get remote_ctx)
  let w := { w with sent := (rem.fd, addr) :: w.sent }
  if cache_hit then
    return w
  else if io.sendto then
    insertRemote { w with remotes := w.remotes.put remote_ctx { rem with af } } io remote_ctx
  else
    close_and_free_remote w remote_ctx

def remote_timeout_cb (w : World G) (remote_ctx : Nat) : Mem Fault (World G) := do
  let rem ← Mem.deref (w.remotes.get remote_ctx)
  let (removed, conn_cache) := cache_remove w.conn_cache (hash_key rem.af rem.src_addr)
  free_cb { w with conn_cache } removed

/-! ### Lookups -/

def resolv_free_cb (query_ctx : Nat) (w : World G) : Mem Fault (World G) := do
  let _ ← Mem.deref (w.queries.get query_ctx)
  return { w with queries := w.queries.free query_ctx }

def resolv_cb (io : NetIo) (addr : Option SockAddr) (query_ctx : Nat) (w : World G) : Mem Fault (World G) := do
  let q ← Mem.deref (w.queries.get query_ctx)
  match addr with
  | none => return w
  | some addr =>
    let (remote_ctx, conn_cache) :=
      match q.remote_ctx with
      | some remote_ctx => (some remote_ctx, w.conn_cache)
      | none => cache_lookup io.now w.conn_cache (hash_key none q.src_addr)
    let w := { w with conn_cache }
    match remote_ctx with
    | some remote_ctx =>
      let rem ← Mem.deref (w.remotes.get remote_ctx)
      sendRemote { w with remotes := w.remotes.put remote_ctx { rem with dst_addr := some addr } } io remote_ctx addr
        true rem.af
    | none =>
      if io.socket then
        sendRemote (new_remote w addr.ip.family q.src_addr (some addr)) io w.remotes.next addr false none
      else
        return w

def resolvClient : ResolvClient NetIo (World G) := ⟨resolv_cb, resolv_free_cb⟩

/-! ### Datagrams -/

/-- The context that is cached for the family and the source. -/
def lookupRemote (io : NetIo) (w : World G) (af : Option Family) (src_addr : SockAddr) :
    Mem Fault (World G × Option Nat) := do
  let (remote_ctx, conn_cache) := cache_lookup io.now w.conn_cache (hash_key af src_addr)
  let w := { w with conn_cache }
  match remote_ctx with
  | none => return (w, none)
  | some remote_ctx =>
    let rem ← Mem.deref (w.remotes.get remote_ctx)
    if rem.src_addr = src_addr then
      -- `ev_timer_again`
      return ({ w with remotes := w.remotes.put remote_ctx { rem with watcher := true } }, some remote_ctx)
    else
      return (w, none)

/-- `server_recv_cb` after `parse_udprelay_header`. -/
def serverRecvHeader (resolv_mode : ResolvMode) (io : NetIo) (now4 now6 : Option Answer) (r : Resolver (World G))
    (src_addr : SockAddr) (buf : Buffer) (h : UdpHeader) : Mem Fault (Resolver (World G)) := do
  let (w, remote_ctx) ← lookupRemote io r.app (h.dst.map (·.ip.family)) src_addr
  match h.dst, remote_ctx with
  | some dst, some remote_ctx => return { r with app := ← sendRemote w io remote_ctx dst true (some dst.ip.family) }
  | some dst, none =>
    if io.socket then
      let w' := new_remote w dst.ip.family src_addr (some dst)
      return { r with app := ← sendRemote w' io w.remotes.next dst false (some dst.ip.family) }
    else
      return { r with app := w }
  | none, remote_ctx =>
    let payload ← Mem.lift (buf.get h.len (buf.len - h.len))
    let addr_header ← Mem.lift (buf.get 0 h.len)
    let query_ctx := w.queries.next
    let w := { w with queries := w.queries.alloc { src_addr, buf := payload, addr_header, remote_ctx } }
    resolv_start resolvClient resolv_mode io { r with app := w } h.port query_ctx now4 now6

/-- A datagram is decrypted, and its header parsed; `none` if it is dropped. -/
def recvHeader (K : CryptoAll G) (N : NetLib) (junk : Block) (g : G) (bs : Bytes) :
    C (G × Option (Buffer × UdpHeader)) := do
  let buf ← (balloc junk buf_size).put 0 bs
  let (err, buf, g) ← K.decrypt_all g { buf with len := bs.length } buf_size
  if err ≠ .CRYPTO_OK then
    return (g, none)
  return (g, (← parse_udprelay_header N buf).map fun h => (buf, h))

/-- `packet` is `none` if `recvfrom` fails. -/
def server_recv_cb (K : CryptoAll G) (N : NetLib) (resolv_mode : ResolvMode) (junk : Block) (io : NetIo)
    (now4 now6 : Option Answer) (r : Resolver (World G)) (src_addr : SockAddr) (packet : Option Bytes) :
    Mem Fault (Resolver (World G)) := do
  match packet with
  | none => return r
  | some bs =>
    let (g, received) ← Mem.lift (recvHeader K N junk r.app.g bs)
    let r := { r with app.g := g }
    match received with
    | none => return r
    | some (buf, h) => serverRecvHeader resolv_mode io now4 now6 r src_addr buf h

/-- `sent` is whether `sendto` to the client succeeds, or would block. -/
def remote_recv_cb (K : CryptoAll G) (junk : Block) (salt : Bytes) (w : World G) (remote_ctx : Nat)
    (src_addr : SockAddr) (packet : Option Bytes) (sent : Bool) : Mem Fault (World G) := do
  let rem ← Mem.deref (w.remotes.get remote_ctx)
  match packet with
  | none => return w
  | some bs =>
    let buf ← Mem.lift ((balloc junk buf_size).put 0 bs)
    let addr_header := construct_udprelay_header src_addr
    let buf := brealloc { buf with len := bs.length } (bs.length + addr_header.length) buf_size
    let buf ← Mem.lift (buf.put 0 (addr_header ++ bs))
    let (err, _, g) ← Mem.lift
      (K.encrypt_all salt w.g { buf with len := bs.length + addr_header.length } buf_size)
    let w := { w with g }
    if err ≠ .CRYPTO_OK then
      return w
    if sent then
      -- `ev_timer_again`
      return { w with remotes := w.remotes.put remote_ctx { rem with watcher := true } }
    else
      return w

/-! ### The event loop -/

inductive Event
  | serverRecv (junk : Block) (io : NetIo) (now4 now6 : Option Answer) (src_addr : SockAddr) (packet : Option Bytes)
  | remoteRecv (junk : Block) (salt : Bytes) (remote_ctx : Nat) (src_addr : SockAddr) (packet : Option Bytes)
      (sent : Bool)
  | remoteTimeout (remote_ctx : Nat)
  | answer (q : Nat) (f : Family) (he : Answer) (io : NetIo)

/-- Whether the event can happen: the watcher of a live context is active, c-ares has been asked. -/
def enabled (r : Resolver (World G)) : Event → Bool
  | .serverRecv _ _ _ _ _ packet => packet.all fun bs => bs.length ≤ buf_size
  | .remoteRecv _ _ remote_ctx _ packet _ =>
    (r.app.remotes.get remote_ctx).any (·.io) && packet.all fun bs => bs.length ≤ buf_size
  | .remoteTimeout remote_ctx => (r.app.remotes.get remote_ctx).any (·.watcher)
  | .answer q f _ _ => r.asked.contains (q, f)

def fire (K : CryptoAll G) (N : NetLib) (resolv_mode : ResolvMode) (r : Resolver (World G)) :
    Event → Mem Fault (Resolver (World G))
  | .serverRecv junk io now4 now6 src_addr packet =>
    server_recv_cb K N resolv_mode junk io now4 now6 r src_addr packet
  | .remoteRecv junk salt remote_ctx src_addr packet sent =>
    return { r with app := ← remote_recv_cb K junk salt r.app remote_ctx src_addr packet sent }
  | .remoteTimeout remote_ctx => return { r with app := ← remote_timeout_cb r.app remote_ctx }
  | .answer q f he io => r.answer resolvClient resolv_mode io f q he

/-- After `init_udprelay`. -/
def initial (g : G) : Resolver (World G) := ⟨.empty, [], ⟨g, cache_create MAX_UDP_CONN_NUM, .empty, .empty, []⟩⟩

def loop (K : CryptoAll G) (N : NetLib) (resolv_mode : ResolvMode) : Lts (Resolver (World G)) Event where
  init r := ∃ g, r = initial g
  step r e r' := enabled r e = true ∧ fire K N resolv_mode r e = .ok r'

end OutlineServer.Udp
