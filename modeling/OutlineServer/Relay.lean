import OutlineServer.Lib.Trans
import OutlineServer.Request

/-!
# One connection of ss-server

The callbacks of a connection of `server.c` on the event loop, from `accept_cb` on: the client's socket
(`server_t`) and that of the destination (`remote_t`). A callback runs only while its watcher is active, and
takes what its system calls return. Crypto code is a parameter.

Four history variables hold the bytes that each side has sent and that the other one has accepted; for every byte of
a buffer, `late` says whether it came from the client after one of its segments had failed to decrypt.
-/

namespace OutlineServer

/-- `crypto_t`, with the static variables `G` of the crypto code. -/
structure CryptoT (Ctx G : Type) where
  encrypt : G → Buffer → Ctx → Nat → C (CryptoRet × Buffer × Ctx × G)
  decrypt : G → Buffer → Ctx → Nat → C (CryptoRet × Buffer × Ctx × G)

inductive Stage
  | INIT
  | RESOLVE
  | STREAM
  | STOP
deriving DecidableEq

structure RelayBuf extends Buffer where
  late : Nat → Bool

structure ServerT (Ctx : Type) where
  stage : Stage
  frag : Nat
  buf : RelayBuf
  e_ctx : Ctx
  d_ctx : Ctx
  recv_io : Bool
  send_io : Bool
  query : Bool

/-- `connected` is that of `send_ctx`. -/
structure RemoteT where
  buf : RelayBuf
  recv_io : Bool
  send_io : Bool
  connected : Bool

/-- `none` for what has been freed, or does not exist yet; `server->remote` and `remote->server` are `NULL` exactly
then. -/
structure Conn (Ctx G : Type) where
  g : G
  server : Option (ServerT Ctx)
  remote : Option RemoteT
  /-- The payload of the header and what followed it, decrypted. -/
  decrypted : Bytes
  toRemote : Bytes
  /-- What `remote` has sent, encrypted. -/
  encrypted : Bytes
  toClient : Bytes
  /-- A segment of the client has failed to decrypt. -/
  failed : Bool
  /-- A late byte has been sent to one of the sockets. -/
  leaked : Bool

/-- `recv` of at least one byte, of the end of the stream, or -1. -/
inductive Recv
  | data (bs : Bytes)
  | eof
  | again
  | error

/-- `send`: the socket takes at most `n` bytes, or -1. -/
inductive Send
  | sent (n : Nat)
  | again
  | error

/-- `socket`, `setinterface` or `connect` fails, or not; in the second case fast open takes at most `n` bytes. -/
inductive Connect
  | fails
  | started
  | fastOpen (n : Nat)

/-! ### Buffers -/

/-- `recv(fd, buf->data, SOCKET_BUF_SIZE, 0)`. -/
def RelayBuf.recv (buf : RelayBuf) (bs : Bytes) (late : Bool) : C RelayBuf := do
  let b ← buf.put 0 bs
  return { b with late := fun i => if i < bs.length then late else buf.late i }

/-- The bytes `[off, off + n)` of a buffer and whether one of them is late. -/
def RelayBuf.lateIn (buf : RelayBuf) (off n : Nat) : Bool := (List.range n).any fun i => buf.late (off + i)

variable {Ctx G : Type}

/-- The client's socket accepts `n` bytes from `buf->data + off`. -/
def Conn.sendClient (c : Conn Ctx G) (buf : RelayBuf) (off n : Nat) : C (Conn Ctx G) := do
  let bs ← buf.get off n
  return { c with toClient := c.toClient ++ bs, leaked := c.leaked || buf.lateIn off n }

def Conn.sendRemote (c : Conn Ctx G) (buf : RelayBuf) (off n : Nat) : C (Conn Ctx G) := do
  let bs ← buf.get off n
  return { c with toRemote := c.toRemote ++ bs, leaked := c.leaked || buf.lateIn off n }

/-! ### Opening and closing -/

def new_server (junk : Block) (e_ctx d_ctx : Ctx) : ServerT Ctx where
  stage := .INIT
  frag := 0
  buf := ⟨balloc junk SOCKET_BUF_SIZE, fun _ => false⟩
  e_ctx
  d_ctx
  recv_io := true
  send_io := false
  query := false

def new_remote (junk : Block) : RemoteT where
  buf := ⟨balloc junk SOCKET_BUF_SIZE, fun _ => false⟩
  recv_io := false
  send_io := false
  connected := false

def Conn.close_and_free_remote (c : Conn Ctx G) : Conn Ctx G := { c with remote := none }

def Conn.close_and_free_server (c : Conn Ctx G) : Conn Ctx G := { c with server := none }

def Conn.closeBoth (c : Conn Ctx G) : Conn Ctx G := c.close_and_free_remote.close_and_free_server

def ServerT.stop_server (server : ServerT Ctx) : ServerT Ctx := { server with stage := .STOP }

/-- `connect_to_remote`, also with what fast open takes from `server->buf`; `none` is `NULL`. -/
def connect_to_remote (N : NetLib) (addr : SockAddr) (c : Conn Ctx G) (buf : RelayBuf) (junk : Block) :
    Connect → C (Option (Conn Ctx G × RelayBuf × RemoteT))
  | r => do
    if N.blocks (N.inet_ntop addr.ip) then
      return none
    match r with
    | .fails => return none
    | .started => return some (c, buf, new_remote junk)
    | .fastOpen n =>
      let s := min n buf.len
      let c ← c.sendRemote buf buf.idx s
      return some (c, { buf with idx := buf.idx + s, len := buf.len - s }, new_remote junk)

/-- What follows `connect_to_remote`: the rest of the payload moves to `remote->buf`. -/
def attachRemote (c : Conn Ctx G) (server : ServerT Ctx) : Option (Conn Ctx G × RelayBuf × RemoteT) → C (Conn Ctx G)
  | none => return c.close_and_free_server
  | some (c, buf, remote) => do
    if 0 < buf.len then
      let payload ← buf.get buf.idx buf.len
      let rbuf ← (brealloc remote.buf.toBuffer buf.len SOCKET_BUF_SIZE).put 0 payload
      return { c with
        server := some { server with buf := { buf with len := 0, idx := 0 } }
        remote := some { remote with
          buf := { rbuf with len := buf.len, idx := 0, late := fun i => buf.late (buf.idx + i) }
          send_io := true } }
    else
      return { c with
        server := some { server with buf }
        remote := some { remote with send_io := true } }

/-! ### `server_recv_cb` -/

/-- In `STAGE_STREAM`, after `crypto->decrypt`; `remote->buf` is `buf`. -/
def serverRecvStream (c : Conn Ctx G) (server : ServerT Ctx) (remote : RemoteT) (buf : RelayBuf) :
    CryptoRet → Send → C (Conn Ctx G)
  | .CRYPTO_ERROR, _ => return { c with
      server := some server.stop_server, remote := some { remote with buf }, failed := true }
  | .CRYPTO_NEED_MORE, _ => return { c with server := some server, remote := some { remote with buf } }
  | .CRYPTO_OK, s => do
    let c := { c with decrypted := c.decrypted ++ buf.bytes }
    match s with
    | .error => return c.closeBoth
    | .again => return { c with
        server := some { server with recv_io := false }
        remote := some { remote with buf := { buf with idx := 0 }, send_io := true } }
    | .sent n =>
      if n < buf.len then
        let c ← c.sendRemote buf 0 n
        return { c with
          server := some { server with recv_io := false }
          remote := some { remote with buf := { buf with len := buf.len - n, idx := n }, send_io := true } }
      else
        let c ← c.sendRemote buf 0 buf.len
        return { c with server := some server, remote := some { remote with buf } }

/-- In `STAGE_INIT`, after `crypto->decrypt`; `server->buf` is `buf`. -/
def serverRecvInit (N : NetLib) (c : Conn Ctx G) (server : ServerT Ctx) (buf : RelayBuf) (junk : Block) :
    CryptoRet → Connect → C (Conn Ctx G)
  | .CRYPTO_ERROR, _ => return { c with server := some { server with buf }.stop_server, failed := true }
  | .CRYPTO_NEED_MORE, _ => return { c with server := some { server with buf, frag := server.frag + 1 } }
  | .CRYPTO_OK, r => do
    match ← serverRequest N buf.toBuffer with
    | .stop => return { c with server := some { server with buf }.stop_server }
    | .blocked => return c.close_and_free_server
    | .connect addr offset =>
      let buf := { buf with len := buf.len - offset, idx := offset }
      let c := { c with decrypted := c.decrypted ++ buf.pending }
      attachRemote c { server with buf, recv_io := false } (← connect_to_remote N addr c buf junk r)
    | .query _ _ offset =>
      let buf := { buf with len := buf.len - offset, idx := offset }
      return { c with
        decrypted := c.decrypted ++ buf.pending
        server := some { server with buf, recv_io := false, query := true, stage := .RESOLVE } }

def server_recv_cb (K : CryptoT Ctx G) (N : NetLib) (c : Conn Ctx G) (server : ServerT Ctx) (junk : Block) (r : Recv)
    (s : Send) (t : Connect) : C (Conn Ctx G) := do
  -- `remote` is set in `STAGE_STREAM` only, also for the closing below
  if server.stage = .STREAM then
    match c.remote with
    | none => .error .bounds
    | some remote =>
      match r with
      | .again => return c
      | .eof | .error => return c.closeBoth
      | .data bs =>
        let buf ← remote.buf.recv bs c.failed
        let (ret, b, d_ctx, g) ← K.decrypt c.g { buf with len := bs.length } server.d_ctx SOCKET_BUF_SIZE
        serverRecvStream { c with g } { server with d_ctx } remote ⟨b, fun _ => c.failed⟩ ret s
  else
    match r with
    | .again => return c
    | .eof | .error => return c.close_and_free_server
    | .data bs =>
      let buf ← server.buf.recv bs c.failed
      if server.stage = .STOP then
        return { c with server := some { server with buf } }
      let (ret, b, d_ctx, g) ← K.decrypt c.g { buf with len := bs.length } server.d_ctx SOCKET_BUF_SIZE
      if ret = .CRYPTO_OK ∧ server.stage ≠ .INIT then
        .error .fatal
      else
        serverRecvInit N { c with g } { server with d_ctx } ⟨b, fun _ => c.failed⟩ junk ret t

/-! ### The other callbacks -/

def server_send_cb (c : Conn Ctx G) (server : ServerT Ctx) (s : Send) : C (Conn Ctx G) :=
  match c.remote with
  | none => return c.close_and_free_server
  | some remote => do
    if server.buf.len = 0 then
      return c.closeBoth
    match s with
    | .error => return c.closeBoth
    | .again => return c
    | .sent n =>
      if n < server.buf.len then
        let c ← c.sendClient server.buf server.buf.idx n
        return { c with server := some { server with
          buf := { server.buf with len := server.buf.len - n, idx := server.buf.idx + n } } }
      else
        let c ← c.sendClient server.buf server.buf.idx server.buf.len
        return { c with
          server := some { server with buf := { server.buf with len := 0, idx := 0 }, send_io := false }
          remote := some { remote with recv_io := true } }

/-- `resolv_cb`, and `resolv_free_cb` after it; `none` if the name could not be resolved. -/
def resolv_cb (N : NetLib) (c : Conn Ctx G) (server : ServerT Ctx) (junk : Block) (addr : Option SockAddr)
    (t : Connect) : C (Conn Ctx G) :=
  match addr with
  | none => return c.close_and_free_server
  | some addr => do
    attachRemote c { server with query := false } (← connect_to_remote N addr c server.buf junk t)

def remote_recv_cb (K : CryptoT Ctx G) (c : Conn Ctx G) (remote : RemoteT) (r : Recv) (s : Send) : C (Conn Ctx G) :=
  match c.server with
  | none => return c.close_and_free_remote
  | some server =>
    match r with
    | .again => return c
    | .eof | .error => return c.closeBoth
    | .data bs => do
      let buf ← server.buf.recv bs false
      if server.stage = .STOP then
        return { c with server := some { server with buf } }
      let (ret, b, e_ctx, g) ← K.encrypt c.g { buf with len := bs.length } server.e_ctx SOCKET_BUF_SIZE
      if ret ≠ .CRYPTO_OK then
        return { c with g }.closeBoth
      let buf : RelayBuf := ⟨b, fun _ => false⟩
      let c := { c with g, encrypted := c.encrypted ++ buf.bytes }
      let server := { server with e_ctx }
      match s with
      | .error => return c.closeBoth
      | .again => return { c with
          server := some { server with buf := { buf with idx := 0 }, send_io := true }
          remote := some { remote with recv_io := false } }
      | .sent n =>
        if n < buf.len then
          let c ← c.sendClient buf 0 n
          return { c with
            server := some { server with buf := { buf with len := buf.len - n, idx := n }, send_io := true }
            remote := some { remote with recv_io := false } }
        else
          let c ← c.sendClient buf 0 buf.len
          return { c with server := some { server with buf } }

/-- `remote_send_cb` from the test of `remote->buf->len` on. -/
def remoteSendData (c : Conn Ctx G) (server : ServerT Ctx) (remote : RemoteT) (s : Send) : C (Conn Ctx G) := do
  if remote.buf.len = 0 then
    return c.closeBoth
  match s with
  | .error => return c.closeBoth
  | .again => return { c with remote := some remote }
  | .sent n =>
    if n < remote.buf.len then
      let c ← c.sendRemote remote.buf remote.buf.idx n
      return { c with remote := some { remote with
        buf := { remote.buf with len := remote.buf.len - n, idx := remote.buf.idx + n } } }
    else
      let c ← c.sendRemote remote.buf remote.buf.idx remote.buf.len
      let remote := { remote with buf := { remote.buf with len := 0, idx := 0 }, send_io := false }
      if server.stage = .STREAM then
        return { c with server := some { server with recv_io := true }, remote := some remote }
      else
        return { c with
          server := some { server with recv_io := true, stage := .STREAM }
          remote := some { remote with recv_io := true } }

/-- `connected` is what `getpeername` finds. -/
def remote_send_cb (c : Conn Ctx G) (remote : RemoteT) (connected : Bool) (s : Send) : C (Conn Ctx G) :=
  match c.server with
  | none => return c.close_and_free_remote
  | some server =>
    if remote.connected then remoteSendData c server remote s
    else if connected then
      let remote := { remote with connected := true }
      if remote.buf.len = 0 then
        return { c with
          server := some { server with recv_io := true, stage := .STREAM }
          remote := some { remote with send_io := false, recv_io := true } }
      else remoteSendData c server remote s
    else return c.closeBoth

/-! ### Runs -/

inductive RelayEvent (G : Type)
  | serverRecv (junk : Block) (r : Recv) (s : Send) (t : Connect)
  | serverSend (s : Send)
  | resolved (junk : Block) (addr : Option SockAddr) (t : Connect)
  | remoteRecv (r : Recv) (s : Send)
  | remoteSend (connected : Bool) (s : Send)
  | timeout
  /-- Another connection uses the crypto code. -/
  | other (g : G)

def Recv.possible : Recv → Bool
  | .data bs => bs ≠ [] ∧ bs.length ≤ SOCKET_BUF_SIZE
  | .eof | .again | .error => true

/-- The callback of an event whose watcher is active. -/
def Conn.fire (K : CryptoT Ctx G) (N : NetLib) (c : Conn Ctx G) : RelayEvent G → Option (C (Conn Ctx G))
  | .serverRecv junk r s t => c.server.bind fun server =>
    if server.recv_io && r.possible then some (server_recv_cb K N c server junk r s t) else none
  | .serverSend s => c.server.bind fun server =>
    if server.send_io then some (server_send_cb c server s) else none
  | .resolved junk addr t => c.server.bind fun server =>
    if server.query then some (resolv_cb N c server junk addr t) else none
  | .remoteRecv r s => c.remote.bind fun remote =>
    if remote.recv_io && r.possible then some (remote_recv_cb K c remote r s) else none
  | .remoteSend connected s => c.remote.bind fun remote =>
    if remote.send_io then some (remote_send_cb c remote connected s) else none
  -- `server_timeout_cb`, at any time
  | .timeout => c.server.map fun _ => .ok c.closeBoth
  | .other g => some (.ok { c with g })

def acceptedConn (g : G) (junk : Block) (e_ctx d_ctx : Ctx) : Conn Ctx G where
  g
  server := some (new_server junk e_ctx d_ctx)
  remote := none
  decrypted := []
  toRemote := []
  encrypted := []
  toClient := []
  failed := false
  leaked := false

def relay (K : CryptoT Ctx G) (N : NetLib) : Lts (Conn Ctx G) (RelayEvent G) where
  init c := ∃ g junk e_ctx d_ctx, c = acceptedConn g junk e_ctx d_ctx
  step c e c' := c.fire K N e = some (.ok c')

end OutlineServer
