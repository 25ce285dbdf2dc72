import OutlineServer.AclFile
import OutlineServer.AddrHeader
import OutlineServer.Encodes

/-!
# One connection of ss-local

The callbacks of a connection of `local.c` on the event loop, from `accept_cb` on, as far as they read from the client
and send to the server: the client's socket (`server_t`) and that of the server (`remote_t`). A callback runs only while
its watcher is active, and takes what its system calls return. Crypto code and the ACL are parameters.

Four history variables hold the bytes that the client has sent, the replies of the handshake to it, the bytes that
`remote` has accepted, and whether `remote` is the destination itself instead of a server.
-/

namespace OutlineServer.Local
open AclFile (AclMode)

/-! ### `socks5.h` -/

def SVERSION : UInt8 := 0x05
def METHOD_NOAUTH : UInt8 := 0x00
def METHOD_UNACCEPTABLE : UInt8 := 0xff
def SOCKS5_CMD_CONNECT : UInt8 := 0x01
def SOCKS5_CMD_UDP_ASSOCIATE : UInt8 := 0x03
def SOCKS5_ATYP_IPV4 : UInt8 := 0x01
def SOCKS5_ATYP_DOMAIN : UInt8 := 0x03
def SOCKS5_ATYP_IPV6 : UInt8 := 0x04
def SOCKS5_REP_SUCCEEDED : UInt8 := 0x00
def SOCKS5_REP_CONN_REFUSED : UInt8 := 0x05
def SOCKS5_REP_CMD_NOT_SUPPORTED : UInt8 := 0x07
def SOCKS5_REP_ADDRTYPE_NOT_SUPPORTED : UInt8 := 0x08

/-- `struct socks5_response`. -/
def socks5_response (rep : UInt8) : Bytes := [SVERSION, rep, 0, SOCKS5_ATYP_IPV4]

/-! ### Connections -/

inductive Stage
  | INIT
  | HANDSHAKE
  | STREAM
deriving DecidableEq

/-- `recv_io` and `delayed_connect` are the watchers of these names, `abuf` is `none` for `NULL`. -/
structure ServerT (Ctx : Type) where
  stage : Stage
  buf : Buffer
  abuf : Option Buffer
  e_ctx : Ctx
  recv_io : Bool
  delayed_connect : Bool

/-- `connected` is that of `send_ctx`. -/
structure RemoteT where
  buf : Buffer
  direct : Bool
  send_io : Bool
  connected : Bool

/-- `none` for what has been freed, or does not exist yet; `server->remote` is `NULL` exactly then. -/
structure Conn (Ctx G : Type) where
  g : G
  server : Option (ServerT Ctx)
  remote : Option RemoteT
  received : Bytes
  /-- What the handshake has passed to `send`. -/
  replies : List Bytes
  toRemote : Bytes
  direct : Bool

/-- What the system calls of `server_handshake` give: `getsockname`, the `send` of the reply (all of it), `get_sockaddr`
for a host name and for what is bypassed, `create_remote` for that and for a server. -/
structure HandshakeIo where
  sockname : Option Bytes
  sent : Bool
  resolved : Option CorkIp
  lookup : Bool
  direct : Bool
  remote : Bool
  junk : Block

/-- What those of `server_stream` give: `connect` has started, and `send`, also for the data of fast open.
`fast_open` is a static variable that other connections can reset. -/
structure StreamIo where
  fast_open : Bool
  connect : Bool
  send : Send

/-- The ACL, if there is one: `acl_match_host` takes a host name, or an address in text form. -/
structure AclT where
  get_acl_mode : AclMode
  acl_match_host : Bytes → Int
  inet_ntop : CorkIp → Bytes

end OutlineServer.Local

namespace OutlineServer

/-! ### Buffers -/

def Buffer.byte (b : Buffer) (i : Nat) : C UInt8 := if i < b.capacity then .ok (b.data i) else .error .bounds

/-- `memcpy(b->data + b->len, bs, n)` and `b->len += n`, as after `recv`. -/
def Buffer.append (b : Buffer) (bs : Bytes) : C Buffer := do
  let b ← b.put b.len bs
  return { b with len := b.len + bs.length }

/-- `memmove(b->data, b->data + n, b->len - n)` and `b->len -= n`. -/
def Buffer.shift (b : Buffer) (n : Nat) : C Buffer := do
  let rest ← b.get n (b.len - n)
  let b ← b.put 0 rest
  return { b with len := b.len - n }

def bprepend (dst src : Buffer) (capacity : Nat) : C Buffer := do
  let dst := brealloc dst (dst.len + src.len) capacity
  let moved ← dst.get 0 dst.len
  let dst ← dst.put src.len moved
  let head ← src.get 0 src.len
  let dst ← dst.put 0 head
  return { dst with len := dst.len + src.len }

end OutlineServer

namespace OutlineServer.Local
open AclFile (AclMode)

variable {Ctx G : Type}

/-! ### Opening and closing -/

def new_server (junk junk' : Block) (e_ctx : Ctx) : ServerT Ctx where
  stage := .INIT
  buf := balloc junk SOCKET_BUF_SIZE
  abuf := some (balloc junk' SOCKET_BUF_SIZE)
  e_ctx
  recv_io := true
  delayed_connect := false

def new_remote (junk : Block) (direct : Bool) : RemoteT where
  buf := balloc junk SOCKET_BUF_SIZE
  direct
  send_io := false
  connected := false

/-- `none` is `NULL`. -/
def create_remote (ok : Bool) (junk : Block) (direct : Bool) : Option RemoteT :=
  if ok then some (new_remote junk direct) else none

def Conn.close_and_free_remote (c : Conn Ctx G) : Conn Ctx G := { c with remote := none }

def Conn.close_and_free_server (c : Conn Ctx G) : Conn Ctx G := { c with server := none }

def Conn.closeBoth (c : Conn Ctx G) : Conn Ctx G := c.close_and_free_remote.close_and_free_server

def Conn.reply (c : Conn Ctx G) (bs : Bytes) : Conn Ctx G := { c with replies := c.replies ++ [bs] }

/-- `remote` accepts `n` bytes from `buf->data + off`. -/
def Conn.sendRemote (c : Conn Ctx G) (buf : Buffer) (off n : Nat) : C (Conn Ctx G) := do
  let bs ← buf.get off n
  return { c with toRemote := c.toRemote ++ bs }

/-! ### `server_handshake` -/

/-- Whether it returns 0. -/
def server_handshake_reply (c : Conn Ctx G) (server : ServerT Ctx) (udp_assc : Bool) (io : HandshakeIo) :
    Conn Ctx G × Bool :=
  if server.stage ≠ .HANDSHAKE then
    (c, true)
  else
    match if udp_assc then io.sockname else some (List.replicate 6 0) with
    | none => ((c.reply (socks5_response SOCKS5_REP_CONN_REFUSED)).closeBoth, false)
    | some sock_addr =>
      let c := c.reply (socks5_response SOCKS5_REP_SUCCEEDED ++ sock_addr)
      if !io.sent then
        (c.closeBoth, false)
      else
        (c, !udp_assc)

/-- What is in the buffer behind `cmd` and `rsv`. -/
inductive Address
  | more
  | unsupported
  | found (dst : Destination)

/-- An address of `in_addr_len` bytes and the port. -/
def requestIp (abuf buf : Buffer) (in_addr_len : Nat) (ip : Bytes → CorkIp) : C (Buffer × Address) := do
  if buf.len < 4 + in_addr_len + 2 then
    return (abuf, .more)
  let addr ← buf.get 4 (in_addr_len + 2)
  return (← abuf.append addr, .found (.ip (ip (addr.take in_addr_len))))

/-- `abuf` gets the address and the port, as far as they are there. -/
def requestAddress (abuf buf : Buffer) : C (Buffer × Address) := do
  let atyp ← buf.byte 3
  let abuf ← { abuf with idx := 0, len := 0 }.append [atyp]
  if atyp = SOCKS5_ATYP_IPV4 then
    requestIp abuf buf 4 .v4
  else if atyp = SOCKS5_ATYP_DOMAIN then
    -- of four bytes the length of the name is not one of them
    let name_len ← buf.byte 4
    if buf.len < 4 + 1 + name_len.toNat + 2 then
      return (abuf, .more)
    let abuf ← abuf.append [name_len]
    let name ← buf.get (4 + 1) (name_len.toNat + 2)
    return (← abuf.append name, .found (.name (name.take name_len.toNat)))
  else if atyp = SOCKS5_ATYP_IPV6 then
    requestIp abuf buf 16 .v6
  else
    return (abuf, .unsupported)

/-- Whether an address bypasses the server. -/
def AclT.bypassIp (A : AclT) (ip : CorkIp) : Bool :=
  let ip_match := A.acl_match_host (A.inet_ntop ip)
  match A.get_acl_mode with
  | .BLACK_LIST => 0 < ip_match
  | .WHITE_LIST => !decide (ip_match < 0)

/-- `bypass`; `resolved` is the address of a host name that is on no list, `none` if there is none. -/
def AclT.bypass (A : AclT) (dst : Destination) (resolved : Option CorkIp) : Bool :=
  match dst with
  | .ip ip => A.bypassIp ip
  | .name host =>
    let host_match := A.acl_match_host host
    if 0 < host_match then true
    else if host_match < 0 then false
    else resolved.any A.bypassIp

/-- From the ACL to the last `create_remote`. -/
def chooseRemote (A : Option AclT) (dst : Destination) (io : HandshakeIo) : Option RemoteT :=
  if A.any (fun acl => acl.bypass dst io.resolved) && io.lookup then
    (create_remote io.direct io.junk true).or (create_remote io.remote io.junk false)
  else
    create_remote io.remote io.junk false

/-- The rest of `server_handshake`; `server->buf` holds the payload. -/
def handshakeConnect (K : CryptoT Ctx G) (A : Option AclT) (c : Conn Ctx G) (server : ServerT Ctx) (abuf : Buffer)
    (dst : Destination) (io : HandshakeIo) : C (Conn Ctx G × Bool) :=
  match chooseRemote A dst io with
  | none => return (c.close_and_free_server, false)
  | some remote => do
    let (ret, abuf, e_ctx, g) ←
      if remote.direct then .ok (.CRYPTO_OK, abuf, server.e_ctx, c.g)
      else K.encrypt c.g abuf server.e_ctx SOCKET_BUF_SIZE
    if ret ≠ .CRYPTO_OK then
      return ({ c with g }.closeBoth, false)
    let payload ← server.buf.get 0 server.buf.len
    let rbuf ← remote.buf.append payload
    return ({ c with
      g
      server := some { server with abuf := some abuf, e_ctx, delayed_connect := server.buf.len = 0 }
      remote := some { remote with buf := rbuf }
      direct := remote.direct }, 0 < server.buf.len)

/-- Whether it returns 0. -/
def server_handshake (K : CryptoT Ctx G) (A : Option AclT) (c : Conn Ctx G) (server : ServerT Ctx) (io : HandshakeIo) :
    C (Conn Ctx G × Bool) := do
  if server.buf.len < 4 then
    return ({ c with server := some server }, false)
  let cmd ← server.buf.byte 1
  if cmd = SOCKS5_CMD_UDP_ASSOCIATE then
    return server_handshake_reply { c with server := some server } server true io
  if cmd ≠ SOCKS5_CMD_CONNECT then
    return ((c.reply (socks5_response SOCKS5_REP_CMD_NOT_SUPPORTED)).closeBoth, false)
  match server.abuf with
  | none => .error .bounds
  | some abuf =>
    let (abuf, address) ← requestAddress abuf server.buf
    match address with
    | .more => return ({ c with server := some { server with abuf := some abuf } }, false)
    | .unsupported => return ((c.reply (socks5_response SOCKS5_REP_ADDRTYPE_NOT_SUPPORTED)).closeBoth, false)
    | .found dst =>
      let (c, ok) := server_handshake_reply c server false io
      if !ok then
        return (c, false)
      let buf ← server.buf.shift (3 + abuf.len)
      handshakeConnect K A c { server with stage := .STREAM, buf } abuf dst io

/-! ### `server_stream` -/

/-- From `connected` on. -/
def streamSend (c : Conn Ctx G) (server : ServerT Ctx) (remote : RemoteT) (io : StreamIo) : C (Conn Ctx G) := do
  if !remote.connected then
    let buf := { remote.buf with idx := 0 }
    if !io.fast_open || remote.direct then
      if !io.connect then
        return c.closeBoth
      return { c with
        server := some { server with recv_io := false }
        remote := some { remote with buf, send_io := true } }
    else
      match io.send with
      | .again => return { c with
          server := some { server with recv_io := false }
          remote := some { remote with buf, send_io := true } }
      | .error => return c.closeBoth
      | .sent n =>
        let s := min n buf.len
        let c ← c.sendRemote buf 0 s
        return { c with
          server := some { server with recv_io := false }
          remote := some { remote with buf := { buf with len := buf.len - s, idx := s }, send_io := true } }
  else
    match io.send with
    | .again => return { c with
        server := some { server with recv_io := false }
        remote := some { remote with buf := { remote.buf with idx := 0 }, send_io := true } }
    | .error => return c.closeBoth
    | .sent n =>
      if n < remote.buf.len then
        let c ← c.sendRemote remote.buf 0 n
        return { c with
          server := some { server with recv_io := false }
          remote := some
            { remote with buf := { remote.buf with len := remote.buf.len - n, idx := n }, send_io := true } }
      else
        let c ← c.sendRemote remote.buf 0 remote.buf.len
        return { c with
          server := some server
          remote := some { remote with buf := { remote.buf with len := 0, idx := 0 } } }

/-- The header is put in front of the first bytes that are encrypted. -/
def prependHeader (buf : Buffer) : Option Buffer → C Buffer
  | none => return buf
  | some abuf => bprepend buf abuf SOCKET_BUF_SIZE

def server_stream (K : CryptoT Ctx G) (c : Conn Ctx G) (server : ServerT Ctx) (io : StreamIo) : C (Conn Ctx G) :=
  match c.remote with
  | none => return c.close_and_free_server
  | some remote => do
    if remote.direct then
      streamSend c server remote io
    else
      let (ret, buf, e_ctx, g) ← K.encrypt c.g remote.buf server.e_ctx SOCKET_BUF_SIZE
      if ret ≠ .CRYPTO_OK then
        return { c with g }.closeBoth
      let buf ← prependHeader buf server.abuf
      streamSend { c with g } { server with abuf := none, e_ctx } { remote with buf } io

/-! ### `server_recv_cb` -/

/-- A round of the loop in `STAGE_INIT`, and whether there is another one. -/
def serverInit (c : Conn Ctx G) (server : ServerT Ctx) : C (Conn Ctx G × ServerT Ctx × Bool) := do
  let buf := server.buf
  if buf.len < 1 then
    return ({ c with server := some server }, server, false)
  let ver ← buf.byte 0
  if ver ≠ SVERSION then
    return (c.closeBoth, server, false)
  if buf.len < 2 then
    return ({ c with server := some server }, server, false)
  let nmethods ← buf.byte 1
  let method_len := nmethods.toNat + 2
  if buf.len < method_len then
    return ({ c with server := some server }, server, false)
  let methods ← buf.get 2 nmethods.toNat
  let method := if METHOD_NOAUTH ∈ methods then METHOD_NOAUTH else METHOD_UNACCEPTABLE
  let c := c.reply [SVERSION, method]
  if method = METHOD_UNACCEPTABLE then
    return (c.closeBoth, server, false)
  if method_len < buf.len then
    let buf ← buf.shift method_len
    let server := { server with stage := .HANDSHAKE, buf }
    return ({ c with server := some server }, server, true)
  else
    let server := { server with stage := .HANDSHAKE, buf := { buf with len := 0 } }
    return ({ c with server := some server }, server, false)

/-- The loop from `STAGE_HANDSHAKE` on. -/
def handshakeRounds (K : CryptoT Ctx G) (A : Option AclT) (c : Conn Ctx G) (server : ServerT Ctx) (h : HandshakeIo)
    (s : StreamIo) : C (Conn Ctx G) := do
  let (c, more) ← server_handshake K A c server h
  match more, c.server with
  | true, some server => server_stream K c server s
  | _, _ => return c

/-- The loop; a round that is followed by another one has changed the stage. -/
def serverRounds (K : CryptoT Ctx G) (A : Option AclT) (c : Conn Ctx G) (server : ServerT Ctx) (h : HandshakeIo)
    (s : StreamIo) : C (Conn Ctx G) :=
  match server.stage with
  | .STREAM => server_stream K c server s
  | .HANDSHAKE => handshakeRounds K A c server h s
  | .INIT => do
    let (c, server, more) ← serverInit c server
    if more then handshakeRounds K A c server h s else return c

/-- `r` is `none` if `revents` is `EV_TIMER`. -/
def server_recv_cb (K : CryptoT Ctx G) (A : Option AclT) (c : Conn Ctx G) (server : ServerT Ctx) (r : Option Recv)
    (h : HandshakeIo) (s : StreamIo) : C (Conn Ctx G) := do
  let server := { server with delayed_connect := false }
  match r with
  | none => serverRounds K A c server h s
  | some .again => return { c with server := some server }
  | some .eof | some .error => return c.closeBoth
  | some (.data bs) =>
    let c := { c with received := c.received ++ bs }
    match c.remote with
    | none =>
      let buf ← server.buf.append bs
      serverRounds K A c { server with buf } h s
    | some remote =>
      -- in `STAGE_STREAM`
      let buf ← remote.buf.append bs
      serverRounds K A { c with remote := some { remote with buf } } server h s

/-! ### `remote_send_cb` -/

/-- From the test of `remote->buf->len` on. -/
def remoteSendData (c : Conn Ctx G) (server : ServerT Ctx) (remote : RemoteT) (s : Send) : C (Conn Ctx G) := do
  if remote.buf.len = 0 then
    return c.closeBoth
  match s with
  | .error => return c.closeBoth
  | .again => return { c with remote := some remote }
  | .sent n =>
    if n < remote.buf.len then
      let c ← c.sendRemote remote.buf remote.buf.idx n
      return { c with remote := some { remote with
        buf := { remote.buf with len := remote.buf.len - n, idx := remote.buf.idx + n } } }
    else
      let c ← c.sendRemote remote.buf remote.buf.idx remote.buf.len
      return { c with
        server := some { server with recv_io := true }
        remote := some { remote with buf := { remote.buf with len := 0, idx := 0 }, send_io := false } }

/-- `connected` is what `getpeername` finds. -/
def remote_send_cb (c : Conn Ctx G) (remote : RemoteT) (connected : Bool) (s : Send) : C (Conn Ctx G) :=
  match c.server with
  | none => .error .bounds
  | some server =>
    if remote.connected then remoteSendData c server remote s
    else if connected then
      let remote := { remote with connected := true }
      if remote.buf.len = 0 then
        return { c with
          server := some { server with recv_io := true }
          remote := some { remote with send_io := false } }
      else remoteSendData c server remote s
    else return c.closeBoth

/-! ### Runs -/

inductive Event (G : Type)
  | serverRecv (r : Recv) (h : HandshakeIo) (s : StreamIo)
  | delayedConnect (h : HandshakeIo) (s : StreamIo)
  | remoteSend (connected : Bool) (s : Send)
  /-- `remote_recv_cb` and `server_send_cb`, which have `server->buf` for themselves once `remote` is connected. -/
  | download (buf : Buffer)
  /-- The same when they fail or find the end, `remote_timeout_cb`, and the end of the process. -/
  | close
  /-- Another connection, or the download, uses the crypto code. -/
  | other (g : G)

/-- What the client sends. -/
def Event.data : Event G → Bytes
  | .serverRecv (.data bs) _ _ => bs
  | _ => []

/-- The client and `remote` take what they are sent, soon or later, and there is a server. -/
def HandshakeIo.Good (io : HandshakeIo) : Prop := io.sent = true ∧ io.remote = true

def StreamIo.Good (io : StreamIo) : Prop := io.connect = true ∧ io.send ≠ .error

/-- No system call fails, and nothing ends the connection. -/
def Event.Good : Event G → Prop
  | .serverRecv r h s => r ≠ .eof ∧ r ≠ .error ∧ h.Good ∧ s.Good
  | .delayedConnect h s => h.Good ∧ s.Good
  | .remoteSend connected s => connected = true ∧ s ≠ .error
  | .download _ | .other _ => True
  | .close => False

/-- What `recv` can return, which is given the rest of the buffer. -/
def Conn.canRecv (c : Conn Ctx G) (server : ServerT Ctx) : Recv → Bool
  | .data bs => bs ≠ [] ∧ bs.length ≤ SOCKET_BUF_SIZE - (c.remote.elim server.buf RemoteT.buf).len
  | .eof | .again | .error => true

/-- The callback of an event whose watcher is active. -/
def Conn.fire (K : CryptoT Ctx G) (A : Option AclT) (c : Conn Ctx G) : Event G → Option (C (Conn Ctx G))
  | .serverRecv r h s => c.server.bind fun server =>
    if server.recv_io && c.canRecv server r then some (server_recv_cb K A c server (some r) h s) else none
  | .delayedConnect h s => c.server.bind fun server =>
    if server.delayed_connect then some (server_recv_cb K A c server none h s) else none
  | .remoteSend connected s => c.remote.bind fun remote =>
    if remote.send_io then some (remote_send_cb c remote connected s) else none
  | .download buf => c.server.bind fun server =>
    if c.remote.any RemoteT.connected then some (.ok { c with server := some { server with buf } }) else none
  | .close => some (.ok c.closeBoth)
  | .other g => some (.ok { c with g })

def acceptedConn (g : G) (junk junk' : Block) (e_ctx : Ctx) : Conn Ctx G where
  g
  server := some (new_server junk junk' e_ctx)
  remote := none
  received := []
  replies := []
  toRemote := []
  direct := false

/-- A connection whose client sends `stream`, in segments. -/
def client (K : CryptoT Ctx G) (A : Option AclT) (e_ctx : Ctx) (stream : Bytes) : Lts (Conn Ctx G) (Event G) where
  init c := ∃ g junk junk', c = acceptedConn g junk junk' e_ctx
  step c e c' := c.received ++ e.data <+: stream ∧ c.fire K A e = some (.ok c')

end OutlineServer.Local
