import OutlineServer.Lib.Trans
import OutlineServer.Relay
import OutlineServer.Resolv

/-!
# All connections of ss-server

The callbacks of `server.c` over all connections of the process, with the pointers between a client's
`server_t`, the `remote_t` of its destination and the `query_t` of a pending lookup, which `server_recv_cb` starts and
`resolv.c` answers. `Relay.lean` follows the bytes of one connection; here every object is on the heap, each callback
follows the pointers that the C code follows, and to follow one to freed memory is a fault.
-/

namespace OutlineServer.Tcp

/-- `server_t`; `remote` and `query` are `none` for `NULL`. -/
structure Server (Ctx : Type) where
  stage : Stage
  frag : Nat
  buf : Buffer
  e_ctx : Ctx
  d_ctx : Ctx
  recv_io : Bool
  send_io : Bool
  remote : Option Nat
  query : Option Nat

/-- `remote_t`; `connected` is that of `send_ctx`. -/
structure Remote where
  buf : Buffer
  recv_io : Bool
  send_io : Bool
  connected : Bool
  server : Option Nat

structure Query where
  server : Option Nat
  hostname : Bytes
deriving DecidableEq

structure World (Ctx G : Type) where
  g : G
  servers : Heap (Server Ctx)
  remotes : Heap Remote
  queries : Heap Query
  /-- History: the queries that `resolv_free_cb` has freed. -/
  freed : List Nat
  /-- History: the destinations of `connect`, or of the `sendto` of a fast open. -/
  connects : List SockAddr

/-- `socket` or `setinterface` fails; or `connect` does, after `new_remote`; or the connection is started, in the last
case with at most `n` bytes by fast open. -/
inductive Connect
  | noSocket
  | fails
  | started
  | fastOpen (n : Nat)
deriving DecidableEq

variable {Ctx G : Type}

/-! ### Opening and closing -/

/-- `new_server`, and `accept_cb` starts its `recv_io`. -/
def new_server (w : World Ctx G) (junk : Block) (e_ctx d_ctx : Ctx) : World Ctx G :=
  let server : Server Ctx := {
    stage := .INIT
    frag := 0
    buf := balloc junk SOCKET_BUF_SIZE
    e_ctx
    d_ctx
    recv_io := true
    send_io := false
    remote := none
    query := none }
  { w with servers := w.servers.alloc server }

def new_remote (w : World Ctx G) (junk : Block) : World Ctx G :=
  let remote : Remote := {
    buf := balloc junk SOCKET_BUF_SIZE
    recv_io := false
    send_io := false
    connected := false
    server := none }
  { w with remotes := w.remotes.alloc remote }

def free_remote (w : World Ctx G) (remote : Nat) : Mem Fault (World Ctx G) := do
  let rem ← Mem.deref (w.remotes.get remote)
  match rem.server with
  | none => return { w with remotes := w.remotes.free remote }
  | some server =>
    let s ← Mem.deref (w.servers.get server)
    return { w with
      servers := w.servers.put server { s with remote := none }
      remotes := w.remotes.free remote }

def close_and_free_remote (w : World Ctx G) : Option Nat → Mem Fault (World Ctx G)
  | none => return w
  | some remote => free_remote w remote

def free_server (w : World Ctx G) (server : Nat) : Mem Fault (World Ctx G) := do
  let s ← Mem.deref (w.servers.get server)
  match s.remote with
  | none => return { w with servers := w.servers.free server }
  | some remote =>
    let rem ← Mem.deref (w.remotes.get remote)
    return { w with
      servers := w.servers.free server
      remotes := w.remotes.put remote { rem with server := none } }

def close_and_free_server (w : World Ctx G) (server : Nat) : Mem Fault (World Ctx G) := do
  let s ← Mem.deref (w.servers.get server)
  match s.query with
  | none => free_server w server
  | some query =>
    let q ← Mem.deref (w.queries.get query)
    free_server { w with
      servers := w.servers.put server { s with query := none }
      queries := w.queries.put query { q with server := none } } server

def closeBoth (w : World Ctx G) (remote : Option Nat) (server : Nat) : Mem Fault (World Ctx G) := do
  let w ← close_and_free_remote w remote
  close_and_free_server w server

def Server.stop_server (s : Server Ctx) : Server Ctx := { s with stage := .STOP }

/-- `connect_to_remote`; `none` is `NULL`. -/
def connect_to_remote (N : NetLib) (addr : SockAddr) (w : World Ctx G) (server : Nat) (junk : Block) :
    Connect → Mem Fault (World Ctx G × Option Nat)
  | t => do
    if N.blocks (N.inet_ntop addr.ip) then
      return (w, none)
    let tried := { w with connects := addr :: w.connects }
    match t with
    | .noSocket => return (w, none)
    | .fails =>
      let w ← close_and_free_remote (new_remote tried junk) (some w.remotes.next)
      return (w, none)
    | .started => return (new_remote tried junk, some w.remotes.next)
    | .fastOpen n =>
      let s ← Mem.deref (w.servers.get server)
      let k := min n s.buf.len
      let _ ← Mem.lift (s.buf.get s.buf.idx k)
      let buf := { s.buf with idx := s.buf.idx + k, len := s.buf.len - k }
      return (new_remote { tried with servers := w.servers.put server { s with buf } } junk, some w.remotes.next)

/-- What follows `connect_to_remote`: `server` and `remote` point to each other, and the rest of the payload moves to
`remote->buf`. -/
def attachRemote (w : World Ctx G) (server : Nat) : Option Nat → Mem Fault (World Ctx G)
  | none => close_and_free_server w server
  | some remote => do
    let s ← Mem.deref (w.servers.get server)
    let rem ← Mem.deref (w.remotes.get remote)
    if 0 < s.buf.len then
      let payload ← Mem.lift (s.buf.get s.buf.idx s.buf.len)
      let rbuf ← Mem.lift ((brealloc rem.buf s.buf.len SOCKET_BUF_SIZE).put 0 payload)
      return { w with
        servers := w.servers.put server { s with remote := some remote, buf := { s.buf with len := 0, idx := 0 } }
        remotes := w.remotes.put remote { rem with
          server := some server, buf := { rbuf with len := s.buf.len, idx := 0 }, send_io := true } }
    else
      return { w with
        servers := w.servers.put server { s with remote := some remote }
        remotes := w.remotes.put remote { rem with server := some server, send_io := true } }

/-! ### Lookups -/

def resolv_free_cb (query : Nat) (w : World Ctx G) : Mem Fault (World Ctx G) := do
  let q ← Mem.deref (w.queries.get query)
  match q.server with
  | none => return { w with queries := w.queries.free query, freed := query :: w.freed }
  | some server =>
    let s ← Mem.deref (w.servers.get server)
    return { w with
      servers := w.servers.put server { s with query := none }
      queries := w.queries.free query
      freed := query :: w.freed }

/-- `addr` is `NULL` if the name could not be resolved. -/
def resolv_cb (N : NetLib) (x : Block × Connect) (addr : Option SockAddr) (query : Nat) (w : World Ctx G) :
    Mem Fault (World Ctx G) := do
  let q ← Mem.deref (w.queries.get query)
  match q.server with
  | none => return w
  | some server =>
    -- `server->listen_ctx->loop`
    let _ ← Mem.deref (w.servers.get server)
    match addr with
    | none => close_and_free_server w server
    | some addr =>
      let (w, remote) ← connect_to_remote N addr w server x.1 x.2
      attachRemote w server remote

/-- The callbacks that `server_recv_cb` gives to `resolv_start`. -/
def resolvClient (N : NetLib) : ResolvClient (Block × Connect) (World Ctx G) := ⟨resolv_cb N, resolv_free_cb⟩

/-! ### The client's socket -/

/-- In `STAGE_STREAM`, after `crypto->decrypt`; `rem` has the decrypted buffer. -/
def serverRecvStream (w : World Ctx G) (server : Nat) (s : Server Ctx) (remote : Nat) (rem : Remote) :
    CryptoRet → Send → Mem Fault (World Ctx G)
  | .CRYPTO_ERROR, _ => return { w with
      servers := w.servers.put server s.stop_server, remotes := w.remotes.put remote rem }
  | .CRYPTO_NEED_MORE, _ => return { w with
      servers := w.servers.put server s, remotes := w.remotes.put remote rem }
  | .CRYPTO_OK, .error => closeBoth w (some remote) server
  | .CRYPTO_OK, .again => return { w with
      servers := w.servers.put server { s with recv_io := false }
      remotes := w.remotes.put remote { rem with buf := { rem.buf with idx := 0 }, send_io := true } }
  | .CRYPTO_OK, .sent n => do
    let _ ← Mem.lift (rem.buf.get 0 (min n rem.buf.len))
    if n < rem.buf.len then
      return { w with
        servers := w.servers.put server { s with recv_io := false }
        remotes := w.remotes.put remote { rem with
          buf := { rem.buf with len := rem.buf.len - n, idx := n }, send_io := true } }
    else
      return { w with servers := w.servers.put server s, remotes := w.remotes.put remote rem }

/-- In `STAGE_INIT`, after `crypto->decrypt`; `s` has the decrypted buffer. -/
def serverRecvInit (N : NetLib) (resolv_mode : ResolvMode) (x : Block × Connect) (now4 now6 : Option Answer)
    (r : Resolver (World Ctx G)) (server : Nat) (s : Server Ctx) : CryptoRet → Mem Fault (Resolver (World Ctx G))
  | .CRYPTO_ERROR => return { r with app.servers := r.app.servers.put server s.stop_server }
  | .CRYPTO_NEED_MORE => return { r with app.servers := r.app.servers.put server { s with frag := s.frag + 1 } }
  | .CRYPTO_OK => do
    match ← Mem.lift (serverRequest N s.buf) with
    | .stop => return { r with app.servers := r.app.servers.put server s.stop_server }
    | .blocked => return { r with app := ← close_and_free_server r.app server }
    | .connect addr offset =>
      let buf := { s.buf with len := s.buf.len - offset, idx := offset }
      let w := { r.app with servers := r.app.servers.put server { s with buf, recv_io := false } }
      let (w, remote) ← connect_to_remote N addr w server x.1 x.2
      return { r with app := ← attachRemote w server remote }
    | .query host port offset =>
      let buf := { s.buf with len := s.buf.len - offset, idx := offset }
      let query := r.app.queries.next
      let s := { s with buf, recv_io := false, query := some query, stage := .RESOLVE }
      let w := { r.app with
        servers := r.app.servers.put server s
        queries := r.app.queries.alloc { server := some server, hostname := host } }
      resolv_start (resolvClient N) resolv_mode x { r with app := w } port query now4 now6

def server_recv_cb (K : CryptoT Ctx G) (N : NetLib) (resolv_mode : ResolvMode) (x : Block × Connect)
    (now4 now6 : Option Answer) (recv : Recv) (send : Send) (r : Resolver (World Ctx G)) (server : Nat) :
    Mem Fault (Resolver (World Ctx G)) := do
  let w := r.app
  let s ← Mem.deref (w.servers.get server)
  -- `remote` is set in `STAGE_STREAM` only, also for the closing below
  if s.stage = .STREAM then
    let remote ← Mem.deref s.remote
    let rem ← Mem.deref (w.remotes.get remote)
    match recv with
    | .again => return r
    | .eof | .error => return { r with app := ← closeBoth w (some remote) server }
    | .data bs =>
      let buf ← Mem.lift (rem.buf.put 0 bs)
      let (ret, buf, d_ctx, g) ← Mem.lift (K.decrypt w.g { buf with len := bs.length } s.d_ctx SOCKET_BUF_SIZE)
      let w ← serverRecvStream { w with g } server { s with d_ctx } remote { rem with buf } ret send
      return { r with app := w }
  else
    match recv with
    | .again => return r
    | .eof | .error => return { r with app := ← closeBoth w none server }
    | .data bs =>
      let buf ← Mem.lift (s.buf.put 0 bs)
      if s.stage = .STOP then
        return { r with app.servers := w.servers.put server { s with buf } }
      let (ret, buf, d_ctx, g) ← Mem.lift (K.decrypt w.g { buf with len := bs.length } s.d_ctx SOCKET_BUF_SIZE)
      if ret = .CRYPTO_OK ∧ s.stage ≠ .INIT then
        -- `FATAL("server context error")`
        .error (.data .fatal)
      else
        serverRecvInit N resolv_mode x now4 now6 { r with app.g := g } server { s with buf, d_ctx } ret

def server_send_cb (w : World Ctx G) (server : Nat) (send : Send) : Mem Fault (World Ctx G) := do
  let s ← Mem.deref (w.servers.get server)
  match s.remote with
  | none => close_and_free_server w server
  | some remote =>
    if s.buf.len = 0 then
      closeBoth w (some remote) server
    else
      match send with
      | .error => closeBoth w (some remote) server
      | .again => return w
      | .sent n =>
        let _ ← Mem.lift (s.buf.get s.buf.idx (min n s.buf.len))
        if n < s.buf.len then
          let buf := { s.buf with len := s.buf.len - n, idx := s.buf.idx + n }
          return { w with servers := w.servers.put server { s with buf } }
        else
          let rem ← Mem.deref (w.remotes.get remote)
          return { w with
            servers := w.servers.put server { s with buf := { s.buf with len := 0, idx := 0 }, send_io := false }
            remotes := w.remotes.put remote { rem with recv_io := true } }

def server_timeout_cb (w : World Ctx G) (server : Nat) : Mem Fault (World Ctx G) := do
  let s ← Mem.deref (w.servers.get server)
  closeBoth w s.remote server

/-! ### The destination's socket -/

def remote_recv_cb (K : CryptoT Ctx G) (w : World Ctx G) (remote : Nat) (recv : Recv) (send : Send) :
    Mem Fault (World Ctx G) := do
  let rem ← Mem.deref (w.remotes.get remote)
  match rem.server with
  | none => close_and_free_remote w (some remote)
  | some server =>
    let s ← Mem.deref (w.servers.get server)
    match recv with
    | .again => return w
    | .eof | .error => closeBoth w (some remote) server
    | .data bs =>
      let buf ← Mem.lift (s.buf.put 0 bs)
      if s.stage = .STOP then
        return { w with servers := w.servers.put server { s with buf } }
      let (ret, buf, e_ctx, g) ← Mem.lift (K.encrypt w.g { buf with len := bs.length } s.e_ctx SOCKET_BUF_SIZE)
      let w := { w with g }
      if ret ≠ .CRYPTO_OK then
        closeBoth w (some remote) server
      else
        match send with
        | .error => closeBoth w (some remote) server
        | .again => return { w with
            servers := w.servers.put server { s with e_ctx, buf := { buf with idx := 0 }, send_io := true }
            remotes := w.remotes.put remote { rem with recv_io := false } }
        | .sent n =>
          let _ ← Mem.lift (buf.get 0 (min n buf.len))
          if n < buf.len then
            return { w with
              servers := w.servers.put server { s with
                e_ctx, buf := { buf with len := buf.len - n, idx := n }, send_io := true }
              remotes := w.remotes.put remote { rem with recv_io := false } }
          else
            return { w with servers := w.servers.put server { s with e_ctx, buf } }

/-- `remote_send_cb` from the test of `remote->buf->len` on. -/
def remoteSendData (w : World Ctx G) (remote : Nat) (rem : Remote) (server : Nat) (s : Server Ctx) (send : Send) :
    Mem Fault (World Ctx G) := do
  if rem.buf.len = 0 then
    closeBoth w (some remote) server
  else
    match send with
    | .error => closeBoth w (some remote) server
    | .again => return { w with remotes := w.remotes.put remote rem }
    | .sent n =>
      let _ ← Mem.lift (rem.buf.get rem.buf.idx (min n rem.buf.len))
      if n < rem.buf.len then
        let buf := { rem.buf with len := rem.buf.len - n, idx := rem.buf.idx + n }
        return { w with remotes := w.remotes.put remote { rem with buf } }
      else
        let rem := { rem with buf := { rem.buf with len := 0, idx := 0 }, send_io := false }
        if s.stage = .STREAM then
          return { w with
            servers := w.servers.put server { s with recv_io := true }
            remotes := w.remotes.put remote rem }
        else
          return { w with
            servers := w.servers.put server { s with recv_io := true, stage := .STREAM }
            remotes := w.remotes.put remote { rem with recv_io := true } }

/-- `connected` is what `getpeername` finds. -/
def remote_send_cb (w : World Ctx G) (remote : Nat) (connected : Bool) (send : Send) : Mem Fault (World Ctx G) := do
  let rem ← Mem.deref (w.remotes.get remote)
  match rem.server with
  | none => close_and_free_remote w (some remote)
  | some server =>
    let s ← Mem.deref (w.servers.get server)
    if rem.connected then
      remoteSendData w remote rem server s send
    else if connected then
      let rem := { rem with connected := true }
      if rem.buf.len = 0 then
        return { w with
          servers := w.servers.put server { s with recv_io := true, stage := .STREAM }
          remotes := w.remotes.put remote { rem with send_io := false, recv_io := true } }
      else
        remoteSendData w remote rem server s send
    else
      closeBoth w (some remote) server

/-! ### The event loop -/

inductive Event (Ctx : Type)
  | accept (junk : Block) (e_ctx d_ctx : Ctx)
  | serverRecv (server : Nat) (recv : Recv) (send : Send) (x : Block × Connect) (now4 now6 : Option Answer)
  | serverSend (server : Nat) (send : Send)
  | serverTimeout (server : Nat)
  | remoteRecv (remote : Nat) (recv : Recv) (send : Send)
  | remoteSend (remote : Nat) (connected : Bool) (send : Send)
  | answer (q : Nat) (f : Family) (he : Answer) (x : Block × Connect)

/-- Whether the event can happen: the watcher of a live object is active, c-ares has been asked. -/
def enabled (r : Resolver (World Ctx G)) : Event Ctx → Bool
  | .accept _ _ _ => true
  | .serverRecv server recv _ _ _ _ => (r.app.servers.get server).any fun s => s.recv_io && recv.possible
  | .serverSend server _ => (r.app.servers.get server).any fun s => s.send_io
  | .serverTimeout server => (r.app.servers.get server).isSome
  | .remoteRecv remote recv _ => (r.app.remotes.get remote).any fun rem => rem.recv_io && recv.possible
  | .remoteSend remote _ _ => (r.app.remotes.get remote).any fun rem => rem.send_io
  | .answer q f _ _ => r.asked.contains (q, f)

def fire (K : CryptoT Ctx G) (N : NetLib) (resolv_mode : ResolvMode) (r : Resolver (World Ctx G)) :
    Event Ctx → Mem Fault (Resolver (World Ctx G))
  | .accept junk e_ctx d_ctx => return { r with app := new_server r.app junk e_ctx d_ctx }
  | .serverRecv server recv send x now4 now6 => server_recv_cb K N resolv_mode x now4 now6 recv send r server
  | .serverSend server send => return { r with app := ← server_send_cb r.app server send }
  | .serverTimeout server => return { r with app := ← server_timeout_cb r.app server }
  | .remoteRecv remote recv send => return { r with app := ← remote_recv_cb K r.app remote recv send }
  | .remoteSend remote connected send => return { r with app := ← remote_send_cb r.app remote connected send }
  | .answer q f he x => r.answer (resolvClient N) resolv_mode x f q he

/-- ss-server before its first connection. -/
def initial (g : G) : Resolver (World Ctx G) := ⟨.empty, [], ⟨g, .empty, .empty, .empty, [], []⟩⟩

def loop (K : CryptoT Ctx G) (N : NetLib) (resolv_mode : ResolvMode) :
    Lts (Resolver (World Ctx G)) (Event Ctx) where
  init r := ∃ g, r = initial g
  step r e r' := enabled r e = true ∧ fire K N resolv_mode r e = .ok r'

end OutlineServer.Tcp
