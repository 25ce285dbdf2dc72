import OutlineServer.LocalRuns

/-!
# The other direction of a connection of ss-local

`remote_recv_cb` and `server_send_cb` of `local.c`, which pass on to the client what `remote` sends. They have a
context, two watchers and, once `remote` is connected, `server->buf` for themselves; everything else of a connection is
a `Conn`.

Two history variables hold the bytes that `remote` has sent and those that the client has accepted after the handshake.
-/

namespace OutlineServer.Local

/-- `recv_io` is the watcher of `remote->recv_ctx`, `send_io` that of `server->send_ctx`. -/
structure Duplex (Ctx G : Type) where
  conn : Conn Ctx G
  d_ctx : Ctx
  recv_io : Bool
  send_io : Bool
  fetched : Bytes
  toClient : Bytes

variable {Ctx G : Type}

def Duplex.closeBoth (d : Duplex Ctx G) : Duplex Ctx G := { d with conn := d.conn.closeBoth }

def Duplex.putServer (d : Duplex Ctx G) (server : ServerT Ctx) : Duplex Ctx G :=
  { d with conn := { d.conn with server := some server } }

/-- The client accepts `n` bytes from `buf->data + off`. -/
def Duplex.sendClient (d : Duplex Ctx G) (buf : Buffer) (off n : Nat) : C (Duplex Ctx G) := do
  let bs ← buf.get off n
  return { d with toClient := d.toClient ++ bs }

/-! ### `remote_recv_cb` -/

/-- From `send` on; `server->buf` is `buf`. -/
def remoteRecvSend (d : Duplex Ctx G) (server : ServerT Ctx) (buf : Buffer) : Send → C (Duplex Ctx G)
  | .error => return d.closeBoth
  | .again => return { d.putServer { server with buf := { buf with idx := 0 } } with recv_io := false, send_io := true }
  | .sent n =>
    if n < buf.len then do
      let d ← d.sendClient buf 0 n
      return { d.putServer { server with buf := { buf with len := buf.len - n, idx := n } } with
        recv_io := false, send_io := true }
    else do
      let d ← d.sendClient buf 0 buf.len
      return d.putServer { server with buf }

def remote_recv_cb (K : CryptoT Ctx G) (d : Duplex Ctx G) (remote : RemoteT) (r : Recv) (s : Send) :
    C (Duplex Ctx G) :=
  match d.conn.server, r with
  | none, _ => .error .bounds
  | some _, .again => return d
  | some _, .eof | some _, .error => return d.closeBoth
  | some server, .data bs => do
    let buf ← server.buf.put 0 bs
    let buf := { buf with len := bs.length }
    let d := { d with fetched := d.fetched ++ bs }
    if remote.direct then
      remoteRecvSend d server buf s
    else
      let (ret, buf, d_ctx, g) ← K.decrypt d.conn.g buf d.d_ctx SOCKET_BUF_SIZE
      let d := { d with d_ctx, conn := { d.conn with g } }
      match ret with
      | .CRYPTO_ERROR => return d.closeBoth
      | .CRYPTO_NEED_MORE => return d.putServer { server with buf }
      | .CRYPTO_OK => remoteRecvSend d server buf s

/-! ### `server_send_cb` -/

def server_send_cb (d : Duplex Ctx G) (server : ServerT Ctx) (s : Send) : C (Duplex Ctx G) := do
  if server.buf.len = 0 then
    return d.closeBoth
  match s with
  | .error => return d.closeBoth
  | .again => return d
  | .sent n =>
    if n < server.buf.len then
      let d ← d.sendClient server.buf server.buf.idx n
      return d.putServer { server with
        buf := { server.buf with len := server.buf.len - n, idx := server.buf.idx + n } }
    else
      let d ← d.sendClient server.buf server.buf.idx server.buf.len
      match d.conn.remote with
      | none => .error .bounds
      | some _ => return { d.putServer { server with buf := { server.buf with len := 0, idx := 0 } } with
          send_io := false, recv_io := true }

/-! ### Runs -/

def Conn.connected (c : Conn Ctx G) : Bool := c.remote.any RemoteT.connected

/-- A callback of the direction to `remote`: when `remote_send_cb` finds the connection, it starts the watcher of
`remote->recv_ctx` too. -/
def Duplex.upload (d : Duplex Ctx G) (c : Conn Ctx G) : Duplex Ctx G :=
  { d with conn := c, recv_io := d.recv_io || (!d.conn.connected && c.connected) }

inductive DuplexEvent (G : Type)
  | upload (e : Event G)
  | remoteRecv (r : Recv) (s : Send)
  | serverSend (s : Send)

/-- What the client sends. -/
def DuplexEvent.data : DuplexEvent G → Bytes
  | .upload e => e.data
  | .remoteRecv _ _ | .serverSend _ => []

/-- What `remote` sends. -/
def DuplexEvent.fetched : DuplexEvent G → Bytes
  | .remoteRecv r _ => r.bytes
  | .upload _ | .serverSend _ => []

def DuplexEvent.Good : DuplexEvent G → Prop
  | .upload e => e.Good
  | .remoteRecv r s => r ≠ .eof ∧ r ≠ .error ∧ s ≠ .error
  | .serverSend s => s ≠ .error

/-- The callback of an event whose watcher is active; `download` is not one here. -/
def Duplex.fire (K : CryptoT Ctx G) (A : Option AclT) (d : Duplex Ctx G) : DuplexEvent G → Option (C (Duplex Ctx G))
  | .upload (.download _) => none
  | .upload e => (d.conn.fire K A e).map fun x => do return d.upload (← x)
  | .remoteRecv r s => d.conn.remote.bind fun remote =>
    if d.recv_io && r.possible then some (remote_recv_cb K d remote r s) else none
  | .serverSend s => d.conn.server.bind fun server =>
    if d.send_io then some (server_send_cb d server s) else none

/-- What the client's side or another connection does to the filter does not make it report the salt of the answer. -/
def Duplex.StaysFresh (fresh : Ctx → G → Prop) (d' : Duplex Ctx G) : DuplexEvent G → Prop
  | .upload _ => fresh d'.d_ctx d'.conn.g
  | .remoteRecv _ _ | .serverSend _ => True

/-- A connection whose client sends `stream`. -/
def duplex (K : CryptoT Ctx G) (A : Option AclT) (fresh : Ctx → G → Prop) (e_ctx d_ctx : Ctx) (stream : Bytes) :
    Lts (Duplex Ctx G) (DuplexEvent G) where
  init d := ∃ g junk junk', fresh d_ctx g ∧ d = ⟨acceptedConn g junk junk' e_ctx, d_ctx, false, false, [], []⟩
  step d e d' := d.conn.received ++ e.data <+: stream ∧ d.fire K A e = some (.ok d') ∧ d'.StaysFresh fresh e

/-! ### What the direction to `remote` leaves -/

/-- A callback that is given `server` ends in `c'`: it does not touch `server->buf` while there is `remote`. -/
structure Conn.Leaves (c : Conn Ctx G) (server : ServerT Ctx) (c' : Conn Ctx G) : Prop where
  capacity : ∀ server', c'.server = some server' → server'.buf.capacity = server.buf.capacity
  buf : c.remote ≠ none → ∀ server', c'.server = some server' → server'.buf = server.buf
  direct : c.remote ≠ none → c'.direct = c.direct
  connected : c.connected = true → c'.server ≠ none → c'.connected = true

section
variable {K : CryptoT Ctx G} {A : Option AclT} {c c' : Conn Ctx G} {server : ServerT Ctx} {remote : RemoteT}

theorem Conn.connected_of_some (hr : c.remote = some remote) : c.connected = remote.connected := by
  unfold Conn.connected
  rw [hr]
  rfl

theorem Conn.remote_of_connected (h : c.connected = true) : c.remote ≠ none := by
  intro hr
  unfold Conn.connected at h
  rw [hr] at h
  cases h

theorem Conn.connected_of_none (hr : c.remote = none) : c.connected = false :=
  Bool.eq_false_iff.2 fun h => Conn.remote_of_connected h hr

theorem Conn.Leaves.closed (hs : c'.server = none) (hd : c'.direct = c.direct) : c.Leaves server c' := by
  refine ⟨?_, ?_, fun _ => hd, fun _ hne => absurd hs hne⟩
  · rw [hs]
    exact nofun
  · rw [hs]
    exact nofun

/-- `remote` stays connected. -/
theorem Conn.Leaves.opened {server' : ServerT Ctx} {remote' : RemoteT} (hs : c'.server = some server')
    (hbuf : server'.buf = server.buf) (hd : c'.direct = c.direct) (hr : c'.remote = some remote')
    (hconn : c.connected = true → remote'.connected = true) : c.Leaves server c' := by
  refine ⟨?_, ?_, fun _ => hd, fun h _ => ?_⟩
  · intro server₁ hs₁
    rw [hs] at hs₁
    cases hs₁
    rw [hbuf]
  · intro _ server₁ hs₁
    rw [hs] at hs₁
    cases hs₁
    exact hbuf
  · rw [Conn.connected_of_some hr]
    exact hconn h

theorem Conn.Leaves.of_none (hr : c.remote = none)
    (hcap : ∀ server', c'.server = some server' → server'.buf.capacity = server.buf.capacity) : c.Leaves server c' := by
  exact ⟨hcap, fun hne => absurd hr hne, fun hne => absurd hr hne,
    fun hconn _ => absurd hr (Conn.remote_of_connected hconn)⟩

theorem of_sendRemote {buf : Buffer} {off n : Nat} (h : c.sendRemote buf off n = .ok c') :
    ∃ toRemote, c' = { c with toRemote } := by
  obtain ⟨bs, -, h⟩ := C.bind_eq_ok h
  cases h
  exact ⟨_, rfl⟩

theorem capacity_of_append {b b' : Buffer} {bs : Bytes} (h : b.append bs = .ok b') : b'.capacity = b.capacity := by
  obtain ⟨b₁, hput, h⟩ := C.bind_eq_ok h
  obtain ⟨-, rfl⟩ := Buffer.of_put hput
  cases h
  rfl

theorem capacity_of_shift {b b' : Buffer} {n : Nat} (h : b.shift n = .ok b') : b'.capacity = b.capacity := by
  obtain ⟨rest, -, h⟩ := C.bind_eq_ok h
  obtain ⟨b₁, hput, h⟩ := C.bind_eq_ok h
  obtain ⟨-, rfl⟩ := Buffer.of_put hput
  cases h
  rfl

theorem streamSend_leaves {io : StreamIo} (h : streamSend c server remote io = .ok c')
    (hconn : c.connected = true → remote.connected = true) : c.Leaves server c' := by
  rw [streamSend] at h
  split at h
  · split at h
    · split at h
      · cases h
        exact .closed rfl rfl
      · cases h
        exact .opened rfl rfl rfl rfl hconn
    · split at h
      · cases h
        exact .opened rfl rfl rfl rfl hconn
      · cases h
        exact .closed rfl rfl
      · obtain ⟨c₁, hsent, h⟩ := C.bind_eq_ok h
        obtain ⟨_, rfl⟩ := of_sendRemote hsent
        cases h
        exact .opened rfl rfl rfl rfl hconn
  · split at h
    · cases h
      exact .opened rfl rfl rfl rfl hconn
    · cases h
      exact .closed rfl rfl
    · split at h
      · obtain ⟨c₁, hsent, h⟩ := C.bind_eq_ok h
        obtain ⟨_, rfl⟩ := of_sendRemote hsent
        cases h
        exact .opened rfl rfl rfl rfl hconn
      · obtain ⟨c₁, hsent, h⟩ := C.bind_eq_ok h
        obtain ⟨_, rfl⟩ := of_sendRemote hsent
        cases h
        exact .opened rfl rfl rfl rfl hconn

theorem server_stream_leaves {io : StreamIo} (h : server_stream K c server io = .ok c') : c.Leaves server c' := by
  rw [server_stream] at h
  split at h
  · cases h
    exact .closed rfl rfl
  · rename_i remote hr
    have hconn : c.connected = true → remote.connected = true := (Conn.connected_of_some hr).symm.trans
    split at h
    · exact streamSend_leaves h hconn
    · obtain ⟨⟨ret, buf, e_ctx, g⟩, -, h⟩ := C.bind_eq_ok h
      dsimp only at h
      split at h
      · cases h
        exact .closed rfl rfl
      · obtain ⟨buf', -, h⟩ := C.bind_eq_ok h
        have hleaves := streamSend_leaves h hconn
        exact ⟨hleaves.capacity, hleaves.buf, hleaves.direct, hleaves.connected⟩

/-! In the handshake there is no `remote`. -/

theorem serverInit_leaves (hr : c.remote = none) {server' : ServerT Ctx} {more : Bool}
    (h : serverInit c server = .ok (c', server', more)) :
    c'.remote = none ∧ server'.buf.capacity = server.buf.capacity ∧
      ∀ server₁, c'.server = some server₁ → server₁.buf.capacity = server.buf.capacity := by
  have hwait : ∀ server₁ : ServerT Ctx, some server = some server₁ → server₁.buf.capacity = server.buf.capacity := by
    rintro _ ⟨⟩
    rfl
  unfold serverInit at h
  dsimp only at h
  split at h
  · cases h
    exact ⟨hr, rfl, hwait⟩
  obtain ⟨ver, -, h⟩ := C.bind_eq_ok h
  split at h
  · cases h
    exact ⟨rfl, rfl, nofun⟩
  split at h
  · cases h
    exact ⟨hr, rfl, hwait⟩
  obtain ⟨nmethods, -, h⟩ := C.bind_eq_ok h
  split at h
  · cases h
    exact ⟨hr, rfl, hwait⟩
  obtain ⟨methods, -, h⟩ := C.bind_eq_ok h
  generalize (if METHOD_NOAUTH ∈ methods then METHOD_NOAUTH else METHOD_UNACCEPTABLE) = method at h
  split at h
  · cases h
    exact ⟨rfl, rfl, nofun⟩
  split at h
  · obtain ⟨buf, hshift, h⟩ := C.bind_eq_ok h
    cases h
    refine ⟨hr, capacity_of_shift hshift, ?_⟩
    rintro _ ⟨⟩
    exact capacity_of_shift hshift
  · cases h
    refine ⟨hr, rfl, ?_⟩
    rintro _ ⟨⟩
    rfl

theorem server_handshake_reply_leaves {udp_assc ok : Bool} {io : HandshakeIo}
    (h : server_handshake_reply c server udp_assc io = (c', ok)) :
    (c'.server = none ∨ c'.server = c.server) ∧ (udp_assc = false → ok = false → c'.server = none) := by
  unfold server_handshake_reply at h
  split at h
  · cases h
    exact ⟨.inr rfl, nofun⟩
  split at h
  · cases h
    exact ⟨.inl rfl, fun _ _ => rfl⟩
  dsimp only at h
  split at h
  · cases h
    exact ⟨.inl rfl, fun _ _ => rfl⟩
  · cases h
    refine ⟨.inr rfl, ?_⟩
    rintro rfl
    exact nofun

theorem handshakeConnect_leaves {abuf : Buffer} {dst : Destination} {io : HandshakeIo} {more : Bool}
    (h : handshakeConnect K A c server abuf dst io = .ok (c', more)) :
    ∀ server', c'.server = some server' → server'.buf.capacity = server.buf.capacity := by
  unfold handshakeConnect at h
  split at h
  · cases h
    exact nofun
  · rename_i remote _
    -- in both branches of the test for `direct` the rest is the same
    have hrest : ∀ {ret : CryptoRet} {abuf : Buffer} {e_ctx : Ctx} {g : G}, (if ret ≠ .CRYPTO_OK then
        pure ({ c with g }.closeBoth, false)
      else do
        let payload ← server.buf.get 0 server.buf.len
        let rbuf ← remote.buf.append payload
        return ({ c with
          g
          server := some { server with abuf := some abuf, e_ctx, delayed_connect := server.buf.len = 0 }
          remote := some { remote with buf := rbuf }
          direct := remote.direct }, decide (0 < server.buf.len))) = (.ok (c', more) : C _) →
        ∀ server', c'.server = some server' → server'.buf.capacity = server.buf.capacity := by
      intro ret abuf e_ctx g h
      split at h
      · cases h
        exact nofun
      · obtain ⟨payload, -, h⟩ := C.bind_eq_ok h
        obtain ⟨rbuf, -, h⟩ := C.bind_eq_ok h
        cases h
        rintro _ ⟨⟩
        rfl
    split at h
    · obtain ⟨⟨ret, abuf', e_ctx, g⟩, -, h⟩ := C.bind_eq_ok h
      exact hrest h
    · obtain ⟨⟨ret, abuf', e_ctx, g⟩, -, h⟩ := C.bind_eq_ok h
      exact hrest h

theorem server_handshake_leaves {io : HandshakeIo} {more : Bool}
    (h : server_handshake K A c server io = .ok (c', more)) :
    ∀ server', c'.server = some server' → server'.buf.capacity = server.buf.capacity := by
  unfold server_handshake at h
  split at h
  · cases h
    rintro _ ⟨⟩
    rfl
  obtain ⟨cmd, -, h⟩ := C.bind_eq_ok h
  split at h
  · intro server' hs'
    rcases (server_handshake_reply_leaves (Except.ok.inj h)).1 with hs | hs
    · rw [hs] at hs'
      cases hs'
    · rw [hs] at hs'
      cases hs'
      rfl
  split at h
  · cases h
    exact nofun
  split at h
  · cases h
  obtain ⟨⟨abuf, address⟩, -, h⟩ := C.bind_eq_ok h
  cases address with
  | more =>
    cases h
    rintro _ ⟨⟩
    rfl
  | unsupported =>
    cases h
    exact nofun
  | found dst =>
    dsimp only at h
    cases hreply : server_handshake_reply c server false io with
    | mk c₁ ok =>
      rw [hreply] at h
      dsimp only at h
      split at h
      · rename_i hfail
        cases h
        rw [(server_handshake_reply_leaves hreply).2 rfl (by simpa using hfail)]
        exact nofun
      · obtain ⟨buf, hshift, h⟩ := C.bind_eq_ok h
        intro server' hs'
        exact (handshakeConnect_leaves h server' hs').trans (capacity_of_shift hshift)

theorem handshakeRounds_leaves (hr : c.remote = none) {hio : HandshakeIo} {io : StreamIo}
    (h : handshakeRounds K A c server hio io = .ok c') : c.Leaves server c' := by
  obtain ⟨⟨c₁, more⟩, hshake, h⟩ := C.bind_eq_ok h
  have hcap := server_handshake_leaves hshake
  refine .of_none hr ?_
  dsimp only at h
  split at h
  · rename_i hs
    intro server' hs'
    exact ((server_stream_leaves h).capacity server' hs').trans (hcap _ hs)
  · cases h
    exact hcap

/-- There is `remote` in `STAGE_STREAM` only. -/
theorem serverRounds_leaves {hio : HandshakeIo} {io : StreamIo} (h : serverRounds K A c server hio io = .ok c')
    (hst : server.stage = .STREAM ∨ c.remote = none) : c.Leaves server c' := by
  rw [serverRounds] at h
  split at h
  · exact server_stream_leaves h
  · rename_i hshake
    have hr : c.remote = none := hst.resolve_left (by rw [hshake]; decide)
    exact handshakeRounds_leaves hr h
  · rename_i hinit
    have hr : c.remote = none := hst.resolve_left (by rw [hinit]; decide)
    obtain ⟨⟨c₁, server₁, more⟩, hround, h⟩ := C.bind_eq_ok h
    obtain ⟨hr₁, hcap₁, hcap⟩ := serverInit_leaves hr hround
    refine .of_none hr ?_
    dsimp only at h
    split at h
    · intro server' hs'
      exact ((handshakeRounds_leaves hr₁ h).capacity server' hs').trans hcap₁
    · cases h
      exact hcap

theorem server_recv_cb_leaves (hst : server.stage = .STREAM ∨ c.remote = none) {r : Option Recv} {hio : HandshakeIo}
    {io : StreamIo} (h : server_recv_cb K A c server r hio io = .ok c') : c.Leaves server c' := by
  unfold server_recv_cb at h
  split at h
  · have hleaves := serverRounds_leaves h hst
    exact ⟨hleaves.capacity, hleaves.buf, hleaves.direct, hleaves.connected⟩
  · cases h
    refine ⟨?_, ?_, fun _ => rfl, fun hconn _ => hconn⟩
    · rintro _ ⟨⟩
      rfl
    · rintro _ _ ⟨⟩
      rfl
  · cases h
    exact .closed rfl rfl
  · cases h
    exact .closed rfl rfl
  · rename_i bs
    dsimp only at h
    split at h
    · rename_i hr
      obtain ⟨buf, happ, h⟩ := C.bind_eq_ok h
      refine .of_none hr fun server' hs' => ?_
      rw [(serverRounds_leaves h (.inr hr)).capacity server' hs']
      exact capacity_of_append happ
    · rename_i remote hr
      obtain ⟨buf, happ, h⟩ := C.bind_eq_ok h
      have hst' : server.stage = .STREAM := hst.resolve_right (by rw [hr]; exact nofun)
      have hleaves := serverRounds_leaves h (.inl hst')
      refine ⟨hleaves.capacity, fun _ => hleaves.buf nofun, fun _ => hleaves.direct nofun, fun hconn => ?_⟩
      exact hleaves.connected ((Conn.connected_of_some hr).symm.trans hconn)

theorem remoteSendData_leaves (hs : c.server = some server) (hconn : remote.connected = true) {s : Send}
    (h : remoteSendData c server remote s = .ok c') : c.Leaves server c' := by
  simp only [remoteSendData] at h
  split at h
  · cases h
    exact .closed rfl rfl
  split at h
  · cases h
    exact .closed rfl rfl
  · cases h
    exact .opened hs rfl rfl rfl fun _ => hconn
  · split at h
    · obtain ⟨c₁, hsent, h⟩ := C.bind_eq_ok h
      obtain ⟨_, rfl⟩ := of_sendRemote hsent
      cases h
      exact .opened hs rfl rfl rfl fun _ => hconn
    · obtain ⟨c₁, hsent, h⟩ := C.bind_eq_ok h
      obtain ⟨_, rfl⟩ := of_sendRemote hsent
      cases h
      exact .opened rfl rfl rfl rfl fun _ => hconn

theorem remote_send_cb_leaves (hs : c.server = some server) {connected : Bool} {s : Send}
    (h : remote_send_cb c remote connected s = .ok c') : c.Leaves server c' := by
  rw [remote_send_cb, hs] at h
  dsimp only at h
  split at h
  · rename_i hconn
    exact remoteSendData_leaves hs hconn h
  split at h
  · split at h
    · cases h
      exact .opened rfl rfl rfl rfl fun _ => rfl
    · exact remoteSendData_leaves hs rfl h
  · cases h
    exact .closed rfl rfl

/-- A callback of the other direction. -/
theorem fire_leaves (hst : ∀ server, c.server = some server → server.stage = .STREAM ∨ c.remote = none) {e : Event G}
    (hdown : ∀ buf, e ≠ .download buf) (hfire : c.fire K A e = some (.ok c')) :
    (c.server = none → c'.server = none ∧ c'.direct = c.direct) ∧
      ∀ server, c.server = some server → c.Leaves server c' := by
  cases e with
  | serverRecv r hio io =>
    obtain ⟨server, hs, -, hcall⟩ := Option.of_bind_ite hfire
    rw [hs]
    refine ⟨nofun, fun server₁ hs₁ => ?_⟩
    obtain rfl : server = server₁ := Option.some.inj hs₁
    exact server_recv_cb_leaves (hst server hs) hcall
  | delayedConnect hio io =>
    obtain ⟨server, hs, -, hcall⟩ := Option.of_bind_ite hfire
    rw [hs]
    refine ⟨nofun, fun server₁ hs₁ => ?_⟩
    obtain rfl : server = server₁ := Option.some.inj hs₁
    exact server_recv_cb_leaves (hst server hs) hcall
  | remoteSend connected s =>
    obtain ⟨remote, hr, -, hcall⟩ := Option.of_bind_ite hfire
    refine ⟨fun hnone => ?_, fun server hs => remote_send_cb_leaves hs hcall⟩
    rw [remote_send_cb, hnone] at hcall
    cases hcall
  | download buf => exact absurd rfl (hdown buf)
  | close =>
    cases hfire
    exact ⟨fun _ => ⟨rfl, rfl⟩, fun _ _ => .closed rfl rfl⟩
  | other g =>
    cases hfire
    refine ⟨fun hnone => ⟨hnone, rfl⟩, fun server hs => ⟨?_, ?_, fun _ => rfl, fun hconn _ => hconn⟩⟩
    · intro server' hs'
      obtain rfl : server = server' := Option.some.inj (hs.symm.trans hs')
      rfl
    · intro _ server' hs'
      obtain rfl : server = server' := Option.some.inj (hs.symm.trans hs')
      rfl

end

end OutlineServer.Local
