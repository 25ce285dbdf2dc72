import OutlineServer.CryptoBounds
import OutlineServer.Decodes
import OutlineServer.RequestSpec

/-!
# Requests and TCP segments

`server_recv_cb` parses the first bytes that it decrypts, and rejects a header that has not arrived completely.
`Observed` is a connection with the segments that have come to it and the requests that it has carried out. The first
piece that is decrypted decides (`Progress`): if the header is complete in it, the connection has the same request and
payload however the stream was cut, and otherwise it is stopped (`served_iff`).
-/

namespace OutlineServer

structure Observed (Ctx G : Type) where
  conn : Conn Ctx G
  /-- What `recv` has given. -/
  segs : List Bytes
  requests : List Request

/-- The requests that lead to a connection or a lookup. -/
def Request.carried (q : Request) : List Request := if q.offset?.isSome then [q] else []

variable {Ctx G : Type}

def RelayEvent.segs : RelayEvent G → List Bytes
  | .serverRecv _ (.data bs) _ _ => [bs]
  | _ => []

/-- What `server_recv_cb` reads out of a segment in `STAGE_INIT`. -/
def Conn.requests (K : CryptoT Ctx G) (N : NetLib) (c : Conn Ctx G) : RelayEvent G → C (List Request)
  | .serverRecv _ (.data bs) _ _ =>
    match c.server with
    | none => return []
    | some server => do
      if server.stage ≠ .INIT then
        return []
      let buf ← server.buf.recv bs c.failed
      let (ret, b, _, _) ← K.decrypt c.g { buf with len := bs.length } server.d_ctx SOCKET_BUF_SIZE
      if ret ≠ .CRYPTO_OK then
        return []
      return (← serverRequest N b).carried
  | _ => return []

/-- Another connection does not make the filter report the salt before the context has passed it. -/
def StaysFresh (fresh : Ctx → G → Prop) (c : Conn Ctx G) : RelayEvent G → Prop
  | .other g => ∀ server, c.server = some server → fresh server.d_ctx g
  | _ => True

/-- The connections of a client whose context starts as `d_ctx`. -/
def observed (K : CryptoT Ctx G) (N : NetLib) (fresh : Ctx → G → Prop) (d_ctx : Ctx) :
    Lts (Observed Ctx G) (RelayEvent G) where
  init o := ∃ g junk e_ctx, fresh d_ctx g ∧ o = ⟨acceptedConn g junk e_ctx d_ctx, [], []⟩
  step o e o' := (relay K N).step o.conn e o'.conn ∧ StaysFresh fresh o.conn e ∧ o'.segs = o.segs ++ e.segs ∧
    ∃ qs, o.conn.requests K N e = .ok qs ∧ o'.requests = o.requests ++ qs

/-! ### The other callbacks -/

/-- What the callbacks keep that do not read from the client. -/
structure Conn.Keeps (c c' : Conn Ctx G) : Prop where
  decrypted : c'.decrypted = c.decrypted
  failed : c'.failed = c.failed
  server : ∀ server', c'.server = some server' → ∃ server, c.server = some server ∧ server'.d_ctx = server.d_ctx ∧
    (server'.stage = .STREAM ∨ server'.stage = server.stage ∧ server'.recv_io = server.recv_io)
  remote : ∀ remote', c'.remote = some remote' → SOCKET_BUF_SIZE ≤ remote'.buf.capacity ∨
    ∃ remote, c.remote = some remote ∧ remote'.buf.capacity = remote.buf.capacity

section
variable {c c' : Conn Ctx G} {server : ServerT Ctx} {remote : RemoteT}

theorem Conn.Keeps.refl (c : Conn Ctx G) : c.Keeps c :=
  ⟨rfl, rfl, fun server hs => ⟨server, hs, rfl, .inr ⟨rfl, rfl⟩⟩, fun remote hr => .inr ⟨remote, hr, rfl⟩⟩

theorem Conn.Keeps.closed (hdec : c'.decrypted = c.decrypted) (hf : c'.failed = c.failed) (hs : c'.server = none)
    (hr : c'.remote = none) : c.Keeps c' := by
  refine ⟨hdec, hf, ?_, ?_⟩
  · intro server' hs'
    rw [hs] at hs'
    cases hs'
  · intro remote' hr'
    rw [hr] at hr'
    cases hr'

theorem Conn.Keeps.close_and_free_server (c : Conn Ctx G) : c.Keeps c.close_and_free_server :=
  ⟨rfl, rfl, nofun, fun remote hr => .inr ⟨remote, hr, rfl⟩⟩

theorem Conn.Keeps.close_and_free_remote (c : Conn Ctx G) : c.Keeps c.close_and_free_remote :=
  ⟨rfl, rfl, fun server hs => ⟨server, hs, rfl, .inr ⟨rfl, rfl⟩⟩, nofun⟩

/-- Both sides stay, with buffers of the same size on the side of the destination. -/
theorem Conn.Keeps.both {server' : ServerT Ctx} {remote' : RemoteT} (hs : c.server = some server)
    (hr : c.remote = some remote) (hs' : c'.server = some server') (hr' : c'.remote = some remote')
    (hdec : c'.decrypted = c.decrypted) (hf : c'.failed = c.failed) (hctx : server'.d_ctx = server.d_ctx)
    (hstage : server'.stage = .STREAM ∨ server'.stage = server.stage ∧ server'.recv_io = server.recv_io)
    (hcap : remote'.buf.capacity = remote.buf.capacity) : c.Keeps c' := by
  refine ⟨hdec, hf, ?_, ?_⟩
  · intro server₁ h
    rw [hs'] at h
    cases h
    exact ⟨server, hs, hctx, hstage⟩
  · intro remote₁ h
    rw [hr'] at h
    cases h
    exact .inr ⟨remote, hr, hcap⟩

theorem Conn.of_sendClient_ok {buf : RelayBuf} {off n : Nat} (h : c.sendClient buf off n = .ok c') :
    ∃ toClient leaked, c' = { c with toClient, leaked } := by
  obtain ⟨bs, -, h⟩ := C.bind_eq_ok h
  cases h
  exact ⟨_, _, rfl⟩

theorem Conn.of_sendRemote_ok {buf : RelayBuf} {off n : Nat} (h : c.sendRemote buf off n = .ok c') :
    ∃ toRemote leaked, c' = { c with toRemote, leaked } := by
  obtain ⟨bs, -, h⟩ := C.bind_eq_ok h
  cases h
  exact ⟨_, _, rfl⟩

theorem server_send_cb_keeps (hs : c.server = some server) {s : Send} (h : server_send_cb c server s = .ok c') :
    c.Keeps c' := by
  simp only [server_send_cb] at h
  split at h
  · cases h
    exact .close_and_free_server c
  rename_i remote hr
  split at h
  · cases h
    exact .closed rfl rfl rfl rfl
  rcases s with n | _ | _
  · dsimp only at h
    split at h
    · obtain ⟨c₁, hsent, h⟩ := C.bind_eq_ok h
      obtain ⟨_, _, rfl⟩ := Conn.of_sendClient_ok hsent
      cases h
      exact .both hs hr rfl hr rfl rfl rfl (.inr ⟨rfl, rfl⟩) rfl
    · obtain ⟨c₁, hsent, h⟩ := C.bind_eq_ok h
      obtain ⟨_, _, rfl⟩ := Conn.of_sendClient_ok hsent
      cases h
      exact .both hs hr rfl rfl rfl rfl rfl (.inr ⟨rfl, rfl⟩) rfl
  · cases h
    exact .refl c
  · cases h
    exact .closed rfl rfl rfl rfl

theorem remote_recv_cb_keeps {K : CryptoT Ctx G} (hr : c.remote = some remote) {r : Recv} {s : Send}
    (h : remote_recv_cb K c remote r s = .ok c') : c.Keeps c' := by
  simp only [remote_recv_cb] at h
  split at h
  · cases h
    exact .close_and_free_remote c
  rename_i server hs
  rcases r with bs | _ | _ | _
  · obtain ⟨buf, -, h⟩ := C.bind_eq_ok h
    split at h
    · cases h
      exact .both hs hr rfl hr rfl rfl rfl (.inr ⟨rfl, rfl⟩) rfl
    obtain ⟨⟨ret, b, e_ctx, g⟩, -, h⟩ := C.bind_eq_ok h
    dsimp only at h
    split at h
    · cases h
      exact .closed rfl rfl rfl rfl
    rcases s with n | _ | _
    · dsimp only at h
      split at h
      · obtain ⟨c₁, hsent, h⟩ := C.bind_eq_ok h
        obtain ⟨_, _, rfl⟩ := Conn.of_sendClient_ok hsent
        cases h
        exact .both hs hr rfl rfl rfl rfl rfl (.inr ⟨rfl, rfl⟩) rfl
      · obtain ⟨c₁, hsent, h⟩ := C.bind_eq_ok h
        obtain ⟨_, _, rfl⟩ := Conn.of_sendClient_ok hsent
        cases h
        exact .both hs hr rfl hr rfl rfl rfl (.inr ⟨rfl, rfl⟩) rfl
    · cases h
      exact .both hs hr rfl rfl rfl rfl rfl (.inr ⟨rfl, rfl⟩) rfl
    · cases h
      exact .closed rfl rfl rfl rfl
  · cases h
    exact .closed rfl rfl rfl rfl
  · cases h
    exact .refl c
  · cases h
    exact .closed rfl rfl rfl rfl

theorem remoteSendData_keeps (hs : c.server = some server) {remote₀ : RemoteT} (hr : c.remote = some remote₀)
    (hcap : remote.buf.capacity = remote₀.buf.capacity) {s : Send} (h : remoteSendData c server remote s = .ok c') :
    c.Keeps c' := by
  simp only [remoteSendData] at h
  split at h
  · cases h
    exact .closed rfl rfl rfl rfl
  rcases s with n | _ | _
  · dsimp only at h
    split at h
    · obtain ⟨c₁, hsent, h⟩ := C.bind_eq_ok h
      obtain ⟨_, _, rfl⟩ := Conn.of_sendRemote_ok hsent
      cases h
      exact .both hs hr hs rfl rfl rfl rfl (.inr ⟨rfl, rfl⟩) hcap
    · obtain ⟨c₁, hsent, h⟩ := C.bind_eq_ok h
      obtain ⟨_, _, rfl⟩ := Conn.of_sendRemote_ok hsent
      dsimp only at h
      split at h
      · cases h
        exact .both hs hr rfl rfl rfl rfl rfl (.inl ‹_›) hcap
      · cases h
        exact .both hs hr rfl rfl rfl rfl rfl (.inl rfl) hcap
  · cases h
    exact .both hs hr hs rfl rfl rfl rfl (.inr ⟨rfl, rfl⟩) hcap
  · cases h
    exact .closed rfl rfl rfl rfl

theorem remote_send_cb_keeps (hr : c.remote = some remote) {connected : Bool} {s : Send}
    (h : remote_send_cb c remote connected s = .ok c') : c.Keeps c' := by
  simp only [remote_send_cb] at h
  split at h
  · cases h
    exact .close_and_free_remote c
  rename_i server hs
  split at h
  · exact remoteSendData_keeps hs hr rfl h
  split at h
  · split at h
    · cases h
      exact .both hs hr rfl rfl rfl rfl rfl (.inl rfl) rfl
    · refine remoteSendData_keeps hs hr ?_ h
      rfl
  · cases h
    exact .closed rfl rfl rfl rfl

theorem resolv_cb_keeps {N : NetLib} (hs : c.server = some server) (hclean : server.buf.Clean) {junk : Block}
    {addr : Option SockAddr} {t : Connect} (h : resolv_cb N c server junk addr t = .ok c') : c.Keeps c' := by
  rcases addr with _ | addr
  · cases h
    exact .close_and_free_server c
  rcases attachRemote_ok h hclean with rfl | ⟨k, -, sbuf, rbuf, -, -, -, hroom, rfl⟩
  · exact .close_and_free_server c
  · refine ⟨rfl, rfl, ?_, ?_⟩
    · rintro server' ⟨⟩
      exact ⟨server, hs, rfl, .inr ⟨rfl, rfl⟩⟩
    · rintro remote' ⟨⟩
      exact .inl hroom

end

/-! ### The first piece -/

/-- What becomes of the first bytes that are decrypted. -/
def pieceRequest (N : NetLib) (piece : Bytes) : C Request :=
  match addrHeader piece with
  | some h => serverDestination N h
  | none => .ok .stop

namespace Observed

/-- Nothing has been decrypted. -/
structure Waits (R : Bytes → G → Ctx → Prop) (o : Observed Ctx G) : Prop where
  failed : o.conn.failed = false
  requests : o.requests = []
  decrypted : o.conn.decrypted = []
  server : ∀ server, o.conn.server = some server → server.stage = .INIT ∧ server.recv_io = true ∧
    SOCKET_BUF_SIZE ≤ server.buf.capacity ∧ R o.segs.flatten o.conn.g server.d_ctx

/-- The request, whose header has `offset` bytes, is carried out. -/
structure Carries (D : Bytes → Bytes) (R : Bytes → G → Ctx → Prop) (offset : Nat) (o : Observed Ctx G) : Prop where
  header : offset ≤ (D o.segs.flatten).length
  failed : o.conn.failed = false
  decrypted : o.conn.decrypted = (D o.segs.flatten).drop offset
  server : ∀ server, o.conn.server = some server → server.stage ≠ .STOP ∧
    (server.stage = .INIT → server.recv_io = false) ∧ R o.segs.flatten o.conn.g server.d_ctx
  remote : ∀ remote, o.conn.remote = some remote → SOCKET_BUF_SIZE ≤ remote.buf.capacity

/-- The request has been rejected. -/
structure Refused (o : Observed Ctx G) : Prop where
  failed : o.conn.failed = false
  decrypted : o.conn.decrypted = []
  server : ∀ server, o.conn.server = some server → server.stage = .STOP ∧ server.recv_io = true ∧
    SOCKET_BUF_SIZE ≤ server.buf.capacity

inductive Progress (N : NetLib) (D : Bytes → Bytes) (R : Bytes → G → Ctx → Prop) (o : Observed Ctx G) : Prop
  | waiting (hnil : D o.segs.flatten = []) (h : o.Waits R)
  | answered {first rest : List Bytes} {q : Request} (hsegs : o.segs = first ++ rest) (hfirst : D first.flatten ≠ [])
      (hbefore : ∀ i < first.length, D (first.take i).flatten = []) (hq : pieceRequest N (D first.flatten) = .ok q)
      (hreq : o.requests = q.carried) (hcarries : ∀ offset, q.offset? = some offset → o.Carries D R offset)
      (hrefused : q.offset? = none → o.Refused)

structure Inv (N : NetLib) (D : Bytes → Bytes) (R : Bytes → G → Ctx → Prop) (o : Observed Ctx G) : Prop where
  relay : o.conn.Inv
  progress : o.Progress N D R

end Observed

section
variable {K : CryptoT Ctx G} {N : NetLib} {wire plain : Bytes} {D : Bytes → Bytes} {fresh : Ctx → G → Prop}
  {R : Bytes → G → Ctx → Prop} {c c' : Conn Ctx G} {server : ServerT Ctx} {remote : RemoteT} {o o' : Observed Ctx G}
  {d : Ctx} {bs fed : Bytes}

theorem RelayBuf.recv_ok {buf : RelayBuf} (h : bs.length ≤ buf.capacity) (late : Bool) :
    ∃ buf' : RelayBuf, buf.recv bs late = .ok buf' ∧ buf'.capacity = buf.capacity ∧
      ({ buf'.toBuffer with len := bs.length } : Buffer).bytes = bs := by
  refine ⟨⟨{ buf.toBuffer with data := buf.data.write 0 bs }, fun i => if i < bs.length then late else buf.late i⟩, ?_,
    rfl, Block.read_write_same _ _ _⟩
  rw [RelayBuf.recv, Buffer.put_ok (by omega)]
  rfl

/-- A segment in `STAGE_INIT`. -/
theorem fire_init (hK : Decodes K wire plain D fresh R) (hs : c.server = some server) (hstage : server.stage = .INIT)
    (hrecv : server.recv_io = true) (hroom : SOCKET_BUF_SIZE ≤ server.buf.capacity) (hR : R fed c.g server.d_ctx)
    (hposs : (Recv.data bs).possible = true) (hpre : fed ++ bs <+: wire) (junk : Block) (s : Send) (t : Connect) :
    ∃ ret b d_ctx g out, R (fed ++ bs) g d_ctx ∧ D (fed ++ bs) = D fed ++ out ∧ Answers out ret b ∧
      b.Hands SOCKET_BUF_SIZE ∧
      c.fire K N (.serverRecv junk (.data bs) s t) =
        some (serverRecvInit N { c with g } { server with d_ctx } ⟨b, fun _ => c.failed⟩ junk ret t) ∧
      c.requests K N (.serverRecv junk (.data bs) s t) =
        if ret ≠ .CRYPTO_OK then return [] else do return (← serverRequest N b).carried := by
  have hp : bs ≠ [] ∧ bs.length ≤ SOCKET_BUF_SIZE := by simpa [Recv.possible] using hposs
  obtain ⟨buf, hbuf, hcap, hbytes⟩ := RelayBuf.recv_ok (hp.2.trans hroom) c.failed
  obtain ⟨ret, b, d_ctx, g, out, hdec, hD, hans, hb, hR'⟩ := hK.decrypt (b := { buf.toBuffer with len := bs.length }) hR
    ⟨hcap ▸ hroom, by simp only; omega⟩ (List.length_pos_iff.2 hp.1) (by rw [hbytes]; exact hpre)
  rw [hbytes] at hD hR'
  refine ⟨ret, b, d_ctx, g, out, hR', hD, hans, hb, ?_, ?_⟩
  · simp [Conn.fire, hs, hrecv, hposs, server_recv_cb, hstage, hbuf, hdec]
  · simp only [Conn.requests, hs, hstage, ne_eq, not_true_eq_false, ↓reduceIte, hbuf, hdec, C.ok_bind]

/-- A segment in `STAGE_STREAM`. -/
theorem fire_stream (hK : Decodes K wire plain D fresh R) (hs : c.server = some server) (hr : c.remote = some remote)
    (hstage : server.stage = .STREAM) (hrecv : server.recv_io = true) (hroom : SOCKET_BUF_SIZE ≤ remote.buf.capacity)
    (hR : R fed c.g server.d_ctx) (hposs : (Recv.data bs).possible = true) (hpre : fed ++ bs <+: wire) (junk : Block)
    (s : Send) (t : Connect) :
    ∃ ret b d_ctx g out, R (fed ++ bs) g d_ctx ∧ D (fed ++ bs) = D fed ++ out ∧ Answers out ret b ∧
      b.Hands SOCKET_BUF_SIZE ∧
      c.fire K N (.serverRecv junk (.data bs) s t) =
        some (serverRecvStream { c with g } { server with d_ctx } remote ⟨b, fun _ => c.failed⟩ ret s) ∧
      c.requests K N (.serverRecv junk (.data bs) s t) = .ok [] := by
  have hp : bs ≠ [] ∧ bs.length ≤ SOCKET_BUF_SIZE := by simpa [Recv.possible] using hposs
  obtain ⟨buf, hbuf, hcap, hbytes⟩ := RelayBuf.recv_ok (hp.2.trans hroom) c.failed
  obtain ⟨ret, b, d_ctx, g, out, hdec, hD, hans, hb, hR'⟩ := hK.decrypt (b := { buf.toBuffer with len := bs.length }) hR
    ⟨hcap ▸ hroom, by simp only; omega⟩ (List.length_pos_iff.2 hp.1) (by rw [hbytes]; exact hpre)
  rw [hbytes] at hD hR'
  refine ⟨ret, b, d_ctx, g, out, hR', hD, hans, hb, ?_, ?_⟩
  · simp [Conn.fire, hs, hr, hrecv, hposs, server_recv_cb, hstage, hbuf, hdec]
  · simp only [Conn.requests, hs, hstage]
    rfl

/-- A segment in `STAGE_STOP`. -/
theorem fire_stop (hs : c.server = some server) (hstage : server.stage = .STOP) (hrecv : server.recv_io = true)
    (hroom : SOCKET_BUF_SIZE ≤ server.buf.capacity) (hposs : (Recv.data bs).possible = true) (junk : Block) (s : Send)
    (t : Connect) :
    ∃ buf : RelayBuf, SOCKET_BUF_SIZE ≤ buf.capacity ∧
      c.fire K N (.serverRecv junk (.data bs) s t) = some (.ok { c with server := some { server with buf } }) ∧
      c.requests K N (.serverRecv junk (.data bs) s t) = .ok [] := by
  have hp : bs ≠ [] ∧ bs.length ≤ SOCKET_BUF_SIZE := by simpa [Recv.possible] using hposs
  obtain ⟨buf, hbuf, hcap, -⟩ := RelayBuf.recv_ok (hp.2.trans hroom) c.failed
  refine ⟨buf, hcap ▸ hroom, ?_, ?_⟩
  · simp [Conn.fire, hs, hrecv, hposs, server_recv_cb, hstage, hbuf]
  · simp only [Conn.requests, hs, hstage]
    rfl

/-- The events that read no segment. -/
theorem fire_quiet {e : RelayEvent G} (hinv : c.Inv) (hseg : e.segs = []) (hfire : c.fire K N e = some (.ok c')) :
    c.Keeps c' ∧ c.requests K N e = .ok [] := by
  rcases e with ⟨junk, r, s, t⟩ | s | ⟨junk, addr, t⟩ | ⟨r, s⟩ | ⟨connected, s⟩ | _ | g
  · obtain ⟨server, hs, -, hcall⟩ := Option.of_bind_ite hfire
    rcases r with bs | _ | _ | _
    · cases hseg
    all_goals refine ⟨?_, rfl⟩
    all_goals
      rw [server_recv_cb] at hcall
      split at hcall
    · split at hcall
      · cases hcall
      · cases hcall
        exact .closed rfl rfl rfl rfl
    · cases hcall
      exact .close_and_free_server c
    · split at hcall
      · cases hcall
      · cases hcall
        exact .refl c
    · cases hcall
      exact .refl c
    · split at hcall
      · cases hcall
      · cases hcall
        exact .closed rfl rfl rfl rfl
    · cases hcall
      exact .close_and_free_server c
  · obtain ⟨server, hs, -, hcall⟩ := Option.of_bind_ite hfire
    exact ⟨server_send_cb_keeps hs hcall, rfl⟩
  · obtain ⟨server, hs, hquery, hcall⟩ := Option.of_bind_ite hfire
    have hclean : server.buf.Clean := by
      rcases (hinv.server server hs).2.2 with ⟨-, hok, -⟩ | ⟨-, hok, -⟩ | ⟨_, -, hok, -⟩ | ⟨_, -, hok, -⟩ | ⟨-, hq, -⟩
      · exact hok.clean
      · exact hok.clean
      · exact hok.clean
      · exact hok.clean
      · rw [hq] at hquery
        cases hquery
    exact ⟨resolv_cb_keeps hs hclean hcall, rfl⟩
  · obtain ⟨remote, hr, -, hcall⟩ := Option.of_bind_ite hfire
    exact ⟨remote_recv_cb_keeps hr hcall, rfl⟩
  · obtain ⟨remote, hr, -, hcall⟩ := Option.of_bind_ite hfire
    exact ⟨remote_send_cb_keeps hr hcall, rfl⟩
  · obtain ⟨server, -, hcall⟩ := Option.map_eq_some_iff.1 hfire
    cases hcall
    exact ⟨.closed rfl rfl rfl rfl, rfl⟩
  · cases hfire
    exact ⟨⟨rfl, rfl, fun server hs => ⟨server, hs, rfl, .inr ⟨rfl, rfl⟩⟩, fun remote hr => .inr ⟨remote, hr, rfl⟩⟩,
      rfl⟩

/-- Of a connection without a destination and a lookup they leave nothing, or everything. -/
theorem fire_idle {e : RelayEvent G} (hr : c.remote = none)
    (hidle : ∀ server, c.server = some server → server.send_io = false ∧ server.query = false) (hseg : e.segs = [])
    (hfire : c.fire K N e = some (.ok c')) : c'.server = none ∨ c' = c ∨ ∃ g, e = .other g ∧ c' = { c with g } := by
  rcases e with ⟨junk, r, s, t⟩ | s | ⟨junk, addr, t⟩ | ⟨r, s⟩ | ⟨connected, s⟩ | _ | g
  · obtain ⟨server, hs, -, hcall⟩ := Option.of_bind_ite hfire
    rcases r with bs | _ | _ | _
    · cases hseg
    all_goals
      simp only [server_recv_cb, hr] at hcall
      split at hcall
    · cases hcall
    · cases hcall
      exact .inl rfl
    · cases hcall
    · cases hcall
      exact .inr (.inl rfl)
    · cases hcall
    · cases hcall
      exact .inl rfl
  · obtain ⟨server, hs, hio, -⟩ := Option.of_bind_ite hfire
    rw [(hidle server hs).1] at hio
    cases hio
  · obtain ⟨server, hs, hio, -⟩ := Option.of_bind_ite hfire
    rw [(hidle server hs).2] at hio
    cases hio
  · obtain ⟨remote, hr', -, -⟩ := Option.of_bind_ite hfire
    rw [hr] at hr'
    cases hr'
  · obtain ⟨remote, hr', -, -⟩ := Option.of_bind_ite hfire
    rw [hr] at hr'
    cases hr'
  · obtain ⟨server, -, hcall⟩ := Option.map_eq_some_iff.1 hfire
    cases hcall
    exact .inl rfl
  · cases hfire
    exact .inr (.inr ⟨g, rfl, rfl⟩)

/-! ### One segment -/

theorem Conn.Phase.of_init (h : c.Phase server) (hstage : server.stage = .INIT) (hrecv : server.recv_io = true) :
    c.remote = none ∧ server.send_io = false ∧ server.query = false := by
  rcases h with ⟨-, -, hr, hsend, hq, -⟩ | ⟨hst⟩ | ⟨_, -, -, -, hrecv', -⟩ | ⟨_, hst⟩ | ⟨hst⟩
  · exact ⟨hr, hsend, hq⟩
  · rw [hst] at hstage
    cases hstage
  · rw [hrecv'] at hrecv
    cases hrecv
  · rw [hst] at hstage
    cases hstage
  · rw [hst] at hstage
    cases hstage

theorem flatten_snoc (segs : List Bytes) (bs : Bytes) : (segs ++ [bs]).flatten = segs.flatten ++ bs := by simp

theorem serverRequest_piece {b : Buffer} (hb : b.len ≤ b.capacity) : serverRequest N b = pieceRequest N b.bytes :=
  serverRequest_eq N hb

theorem pieceRequest_offset {piece : Bytes} {q : Request} (h : pieceRequest N piece = .ok q) {offset : Nat}
    (ho : q.offset? = some offset) : offset ≤ piece.length := by
  rw [pieceRequest] at h
  split at h
  · rename_i hdr hf
    rw [serverDestination_offset h ho]
    exact length_le_of_addrHeader hf
  · cases h
    cases ho

theorem Buffer.pending_drop (b : Buffer) {offset : Nat} (h : offset ≤ b.len) :
    ({ b with len := b.len - offset, idx := offset } : Buffer).pending = b.bytes.drop offset := by
  rw [Buffer.bytes, Block.drop_read _ _ _ _ h, Nat.zero_add]
  rfl

theorem serverRecvStream_ok {buf : RelayBuf} {s : Send}
    (h : serverRecvStream c server remote buf .CRYPTO_OK s = .ok c') :
    c'.decrypted = c.decrypted ++ buf.bytes ∧ c'.failed = c.failed ∧ c'.g = c.g ∧ (c'.server = none ∧ c'.remote = none ∨
      ∃ recv_io remote', c'.server = some { server with recv_io } ∧ c'.remote = some remote' ∧
        remote'.buf.capacity = buf.capacity) := by
  rcases s with n | _ | _
  · simp only [serverRecvStream] at h
    split at h
    · obtain ⟨c₁, hsent, h⟩ := C.bind_eq_ok h
      obtain ⟨_, _, rfl⟩ := Conn.of_sendRemote_ok hsent
      cases h
      exact ⟨rfl, rfl, rfl, .inr ⟨_, _, rfl, rfl, rfl⟩⟩
    · obtain ⟨c₁, hsent, h⟩ := C.bind_eq_ok h
      obtain ⟨_, _, rfl⟩ := Conn.of_sendRemote_ok hsent
      cases h
      exact ⟨rfl, rfl, rfl, .inr ⟨server.recv_io, _, rfl, rfl, rfl⟩⟩
  · cases h
    exact ⟨rfl, rfl, rfl, .inr ⟨_, _, rfl, rfl, rfl⟩⟩
  · cases h
    exact ⟨rfl, rfl, rfl, .inl ⟨rfl, rfl⟩⟩

namespace Observed

/-- The segment with which something is decrypted for the first time. -/
theorem Progress.first (hK : Decodes K wire plain D fresh R) (hnil : D o.segs.flatten = [])
    (hsegs : o'.segs = o.segs ++ [bs]) (hne : D o'.segs.flatten ≠ []) {q : Request}
    (hq : pieceRequest N (D o'.segs.flatten) = .ok q) (hreq : o'.requests = q.carried)
    (hcarries : ∀ offset, q.offset? = some offset → o'.Carries D R offset) (hrefused : q.offset? = none → o'.Refused) :
    o'.Progress N D R := by
  refine @Progress.answered _ _ _ _ _ _ _ [] _ (List.append_nil _).symm hne ?_ hq hreq hcarries hrefused
  intro i hi
  rw [hsegs, List.length_append, List.length_singleton] at hi
  have hpre : ((o.segs ++ [bs]).take i).flatten <+: o.segs.flatten := by
    rw [List.take_append_of_le_length (by omega)]
    exact (List.take_prefix _ _).flatten
  rw [hsegs]
  exact List.prefix_nil.1 (hnil ▸ hK.mono hpre)

theorem Waits.recv_init (hK : Decodes K wire plain D fresh R) (hinv : o.conn.Inv)
    (hnil : D o.segs.flatten = []) (h : o.Waits R) (hpre : o'.segs.flatten <+: wire) {junk : Block} {s : Send}
    {t : Connect} (hstep : (observed K N fresh d).step o (.serverRecv junk (.data bs) s t) o') :
    o'.Progress N D R := by
  obtain ⟨hfire, -, hsegs, qs, hqs, hreqs⟩ := hstep
  obtain ⟨server, hs, hio, -⟩ := Option.of_bind_ite hfire
  rw [Bool.and_eq_true] at hio
  obtain ⟨hstage, hrecv, hroom, hR⟩ := h.server server hs
  have hfed : o'.segs.flatten = o.segs.flatten ++ bs := by rw [hsegs, ← flatten_snoc]; rfl
  obtain ⟨ret, b, d_ctx, g, out, hR', hD, hans, hb, hcall, hreq⟩ :=
    fire_init (N := N) hK hs hstage hrecv hroom hR hio.2 (hfed ▸ hpre) junk s t
  rw [hfire, Option.some.injEq] at hcall
  rw [hqs] at hreq
  rw [h.requests, List.nil_append] at hreqs
  rw [← hfed] at hR' hD
  rw [hnil, List.nil_append] at hD
  rcases hans with rfl | ⟨hbytes, hne⟩
  · -- nothing has been decrypted yet
    cases hreq
    obtain ⟨conn', segs', requests'⟩ := o'
    cases hcall
    refine .waiting hD ⟨h.failed, hreqs, h.decrypted, ?_⟩
    rintro _ ⟨⟩
    exact ⟨hstage, hrecv, hb.room, hR'⟩
  have hpiece := serverRequest_piece (N := N) hb.fits
  rw [hbytes, ← hD] at hpiece
  obtain ⟨q, hq, hreq⟩ := C.bind_eq_ok hreq.symm
  cases hreq
  obtain ⟨q', hq', hcall⟩ := C.bind_eq_ok hcall.symm
  rw [hq] at hq'
  cases hq'
  rw [hpiece] at hq
  have hnone := ((hinv.server server hs).2.2.of_init hstage hrecv).1
  refine .first hK hnil hsegs (hD ▸ hne) hq hreqs ?_ ?_
  · intro offset ho
    have hle := pieceRequest_offset hq ho
    have hdrop : b.bytes.drop offset = (D o'.segs.flatten).drop offset := by rw [hbytes, hD]
    have hpending := @Buffer.pending_drop b offset (by rw [← b.length_bytes, hbytes, ← hD]; exact hle)
    rw [hdrop] at hpending
    rcases q with _ | _ | ⟨addr, off⟩ | ⟨host, port, off⟩
    · cases ho
    · cases ho
    · cases ho
      rcases attachRemote_ok hcall (fun _ => h.failed) with hconn | ⟨k, -, sbuf, rbuf, -, -, -, hroom', hconn⟩
      · refine ⟨hle, by rw [hconn]; exact h.failed, ?_, ?_, ?_⟩
        · rw [hconn]
          simp only [Conn.close_and_free_server, h.decrypted, List.nil_append]
          exact hpending
        · rw [hconn]
          rintro _ ⟨⟩
        · rw [hconn]
          simp only [Conn.close_and_free_server, hnone]
          rintro _ ⟨⟩
      · refine ⟨hle, by rw [hconn]; exact h.failed, ?_, ?_, ?_⟩
        · rw [hconn]
          simp only [h.decrypted, List.nil_append]
          exact hpending
        · rw [hconn]
          rintro _ ⟨⟩
          exact ⟨by rw [hstage]; decide, fun _ => rfl, hR'⟩
        · rw [hconn]
          rintro _ ⟨⟩
          exact hroom'
    · cases ho
      have hconn := (Except.ok.inj hcall).symm
      refine ⟨hle, by rw [hconn]; exact h.failed, ?_, ?_, ?_⟩
      · rw [hconn]
        simp only [h.decrypted, List.nil_append]
        exact hpending
      · rw [hconn]
        rintro _ ⟨⟩
        exact ⟨nofun, fun _ => rfl, hR'⟩
      · rw [hconn]
        simp only [hnone]
        rintro _ ⟨⟩
  · intro ho
    rcases q with _ | _ | _ | _
    · have hconn := (Except.ok.inj hcall).symm
      refine ⟨by rw [hconn]; exact h.failed, by rw [hconn]; exact h.decrypted, ?_⟩
      rw [hconn]
      rintro _ ⟨⟩
      exact ⟨rfl, hrecv, hb.room⟩
    · have hconn := (Except.ok.inj hcall).symm
      refine ⟨by rw [hconn]; exact h.failed, by rw [hconn]; exact h.decrypted, ?_⟩
      rw [hconn]
      rintro _ ⟨⟩
    · cases ho
    · cases ho

theorem Carries.recv_stream (hK : Decodes K wire plain D fresh R) {offset : Nat} (h : o.Carries D R offset)
    (hs : o.conn.server = some server) (hr : o.conn.remote = some remote) (hstage : server.stage = .STREAM)
    (hpre : o'.segs.flatten <+: wire) {junk : Block} {s : Send} {t : Connect}
    (hstep : (observed K N fresh d).step o (.serverRecv junk (.data bs) s t) o') :
    o'.requests = o.requests ∧ o'.Carries D R offset := by
  obtain ⟨hfire, -, hsegs, qs, hqs, hreqs⟩ := hstep
  obtain ⟨server', hs', hio, -⟩ := Option.of_bind_ite hfire
  rw [hs] at hs'
  cases hs'
  rw [Bool.and_eq_true] at hio
  have hfed : o'.segs.flatten = o.segs.flatten ++ bs := by rw [hsegs, ← flatten_snoc]; rfl
  obtain ⟨-, -, hR⟩ := h.server server hs
  obtain ⟨ret, b, d_ctx, g, out, hR', hD, hans, hb, hcall, hreq⟩ :=
    fire_stream (N := N) hK hs hr hstage hio.1 (h.remote remote hr) hR hio.2 (hfed ▸ hpre) junk s t
  rw [hqs] at hreq
  cases hreq
  refine ⟨by rw [hreqs, List.append_nil], ?_⟩
  rw [hfire, Option.some.injEq] at hcall
  rw [← hfed] at hR' hD
  have hle : offset ≤ (D o'.segs.flatten).length := by
    rw [hD, List.length_append]
    exact Nat.le_add_right_of_le h.header
  have hdrop : (D o'.segs.flatten).drop offset = o.conn.decrypted ++ out := by
    rw [hD, List.drop_append_of_le_length h.header, h.decrypted]
  rcases hans with rfl | ⟨rfl, -⟩
  · have hconn := Except.ok.inj hcall
    refine ⟨hle, by rw [hconn]; exact h.failed, by rw [hdrop, hconn, List.append_nil], ?_, ?_⟩
    · rw [hconn]
      rintro _ ⟨⟩
      exact ⟨by rw [hstage]; decide, fun hi => absurd (hstage.symm.trans hi) (by decide), hR'⟩
    · rw [hconn]
      rintro _ ⟨⟩
      exact hb.room
  · obtain ⟨hdec, hf, hg, hsides⟩ := serverRecvStream_ok hcall.symm
    refine ⟨hle, hf.trans h.failed, hdec.trans hdrop.symm, ?_, ?_⟩
    · intro server' hs'
      rcases hsides with ⟨hnone, -⟩ | ⟨recv_io, remote', hs₁, -, -⟩
      · rw [hnone] at hs'
        cases hs'
      · rw [hs₁] at hs'
        cases hs'
        refine ⟨by rw [hstage]; decide, fun hi => absurd (hstage.symm.trans hi) (by decide), ?_⟩
        rw [hg]
        exact hR'
    · intro remote' hr'
      rcases hsides with ⟨-, hnone⟩ | ⟨recv_io, remote₁, -, hr₁, hcap⟩
      · rw [hnone] at hr'
        cases hr'
      · rw [hr₁] at hr'
        cases hr'
        exact hcap ▸ hb.room

theorem Refused.recv_stop (h : o.Refused) {junk : Block} {s : Send} {t : Connect}
    (hstep : (observed K N fresh d).step o (.serverRecv junk (.data bs) s t) o') :
    o'.requests = o.requests ∧ o'.Refused := by
  obtain ⟨hfire, -, hsegs, qs, hqs, hreqs⟩ := hstep
  obtain ⟨server, hs, hio, -⟩ := Option.of_bind_ite hfire
  rw [Bool.and_eq_true] at hio
  obtain ⟨hstage, hrecv, hroom⟩ := h.server server hs
  obtain ⟨buf, hroom', hcall, hreq⟩ := fire_stop (K := K) (N := N) hs hstage hrecv hroom hio.2 junk s t
  rw [hqs] at hreq
  cases hreq
  rw [hfire, Option.some.injEq] at hcall
  have hconn := Except.ok.inj hcall
  refine ⟨by rw [hreqs, List.append_nil], by rw [hconn]; exact h.failed, by rw [hconn]; exact h.decrypted, ?_⟩
  rw [hconn]
  rintro _ ⟨⟩
  exact ⟨hstage, hrecv, hroom'⟩

theorem Progress.failed (h : o.Progress N D R) : o.conn.failed = false := by
  rcases h with ⟨-, h⟩ | @⟨first, rest, q, -, -, -, -, -, hcarries, hrefused⟩
  · exact h.failed
  · rcases ho : q.offset? with _ | offset
    · exact (hrefused ho).failed
    · exact (hcarries offset ho).failed

/-- A step that reads no segment leaves what decides about the request. -/
theorem Progress.quiet (hK : Decodes K wire plain D fresh R) (h : o.Progress N D R) (hsegs : o'.segs = o.segs)
    (hreq : o'.requests = o.requests) (hwaits : o.Waits R → o'.Waits R)
    (hcarries : ∀ offset, D o.segs.flatten ≠ [] → o.Carries D R offset → o'.Carries D R offset)
    (hrefused : o.Refused → o'.Refused) : o'.Progress N D R := by
  rcases h with ⟨hnil, h⟩ | @⟨first, rest, q, hfirst, hne, hbefore, hq, hqs, hc, hr⟩
  · exact .waiting (hsegs ▸ hnil) (hwaits h)
  · refine .answered (hsegs.trans hfirst) hne hbefore hq (hreq.trans hqs) ?_ fun ho => hrefused (hr ho)
    intro offset ho
    refine hcarries offset ?_ (hc offset ho)
    intro hnil
    have hpre : first.flatten <+: o.segs.flatten := by
      rw [hfirst]
      exact (List.prefix_append _ _).flatten
    exact hne (List.prefix_nil.1 (hnil ▸ hK.mono hpre))

theorem Carries.keep (hK : Decodes K wire plain D fresh R) {offset : Nat} (hne : D o.segs.flatten ≠ [])
    (h : o.Carries D R offset) (hsegs : o'.segs = o.segs) (hkeeps : o.conn.Keeps o'.conn) : o'.Carries D R offset := by
  refine ⟨hsegs ▸ h.header, hkeeps.failed.trans h.failed, ?_, ?_, ?_⟩
  · rw [hkeeps.decrypted, hsegs, h.decrypted]
  · intro server' hs'
    obtain ⟨server, hs, hctx, hstage⟩ := hkeeps.server server' hs'
    obtain ⟨hstop, hrecv, hR⟩ := h.server server hs
    rw [hctx, hsegs]
    rcases hstage with hst | ⟨hst, hio⟩
    · exact ⟨by rw [hst]; decide, fun hi => absurd (hst.symm.trans hi) (by decide), hK.settled _ hR hne⟩
    · rw [hst, hio]
      exact ⟨hstop, hrecv, hK.settled _ hR hne⟩
  · intro remote' hr'
    rcases hkeeps.remote remote' hr' with hroom | ⟨remote, hr, hcap⟩
    · exact hroom
    · exact hcap ▸ h.remote remote hr

/-- A client is read from again when its destination is connected. -/
theorem Carries.streams {offset : Nat} (h : o.Carries D R offset) (hinv : o.conn.Inv) (hs : o.conn.server = some server)
    (hrecv : server.recv_io = true) : server.stage = .STREAM ∧ ∃ remote, o.conn.remote = some remote := by
  obtain ⟨hstop, hinit, -⟩ := h.server server hs
  have hnot : server.stage ≠ .INIT := by
    intro hstage
    rw [hinit hstage] at hrecv
    cases hrecv
  rcases (hinv.server server hs).2.2 with
    ⟨hst, -⟩ | ⟨-, -, -, hio, -⟩ | ⟨_, -, -, -, hio, -⟩ | ⟨remote, hst, -, hr, -⟩ | ⟨hst, -⟩
  · exact absurd hst hnot
  · rw [hio] at hrecv
    cases hrecv
  · rw [hio] at hrecv
    cases hrecv
  · exact ⟨hst, remote, hr⟩
  · exact absurd hst hstop

theorem Waits.idle (hinv : o.conn.Inv) (h : o.Waits R) {server : ServerT Ctx} (hs : o.conn.server = some server) :
    o.conn.remote = none ∧ server.send_io = false ∧ server.query = false := by
  obtain ⟨hstage, hrecv, -⟩ := h.server server hs
  exact (hinv.server server hs).2.2.of_init hstage hrecv

theorem Refused.idle (hinv : o.conn.Inv) (h : o.Refused) {server : ServerT Ctx} (hs : o.conn.server = some server) :
    o.conn.remote = none ∧ server.send_io = false ∧ server.query = false := by
  obtain ⟨hquery, hok, -⟩ := (hinv.server server hs).2.2.of_stop (h.server server hs).1
  obtain ⟨-, hsend, hr, -⟩ := hok h.failed
  exact ⟨hr, hsend, hquery⟩

/-- A step of a connection that waits for its request or has none, without a segment. -/
theorem idle_step {e : RelayEvent G} (hinv : o.conn.Inv) (hidle : ∀ server, o.conn.server = some server →
      o.conn.remote = none ∧ server.send_io = false ∧ server.query = false) (hseg : e.segs = [])
    (hfire : o.conn.fire K N e = some (.ok o'.conn)) :
    o'.conn.server = none ∨ o'.conn = o.conn ∨ ∃ g, e = .other g ∧ o'.conn = { o.conn with g } := by
  rcases hs : o.conn.server with _ | server
  · refine .inl (Option.eq_none_iff_forall_ne_some.2 fun server' hs' => ?_)
    obtain ⟨server, hs₁, -⟩ := (fire_quiet hinv hseg hfire).1.server server' hs'
    rw [hs] at hs₁
    cases hs₁
  · refine fire_idle (hidle server hs).1 ?_ hseg hfire
    intro server' hs'
    rw [hs] at hs'
    cases hs'
    exact (hidle server hs).2

theorem Inv.quiet (hK : Decodes K wire plain D fresh R) (h : o.Inv N D R) {e : RelayEvent G} (hseg : e.segs = [])
    (hstep : (observed K N fresh d).step o e o') : o'.Progress N D R := by
  obtain ⟨hfire, hfresh, hsegs, qs, hqs, hreqs⟩ := hstep
  obtain ⟨hkeeps, hreq⟩ := fire_quiet h.relay hseg hfire
  rw [hqs] at hreq
  cases hreq
  rw [hseg, List.append_nil] at hsegs
  rw [List.append_nil] at hreqs
  refine h.progress.quiet hK hsegs hreqs ?_ (fun _ hne hc => hc.keep hK hne hsegs hkeeps) ?_
  · intro hw
    refine ⟨hkeeps.failed.trans hw.failed, hreqs.trans hw.requests, hkeeps.decrypted.trans hw.decrypted, ?_⟩
    intro server hs
    rcases idle_step h.relay (fun _ hs => hw.idle h.relay hs) hseg hfire with hnone | hconn | ⟨g, rfl, hconn⟩
    · rw [hnone] at hs
      cases hs
    · rw [hconn] at hs ⊢
      rw [hsegs]
      exact hw.server server hs
    · rw [hconn] at hs ⊢
      rw [hsegs]
      obtain ⟨hstage, hrecv, hroom, hR⟩ := hw.server server hs
      exact ⟨hstage, hrecv, hroom, hK.other hR (hfresh server hs)⟩
  · intro hr
    refine ⟨hkeeps.failed.trans hr.failed, hkeeps.decrypted.trans hr.decrypted, ?_⟩
    intro server hs
    rcases idle_step h.relay (fun _ hs => hr.idle h.relay hs) hseg hfire with hnone | hconn | ⟨g, rfl, hconn⟩
    · rw [hnone] at hs
      cases hs
    · rw [hconn] at hs
      exact hr.server server hs
    · rw [hconn] at hs
      exact hr.server server hs

theorem Inv.step (hK : Decodes K wire plain D fresh R) (h : o.Inv N D R) {e : RelayEvent G}
    (hstep : (observed K N fresh d).step o e o') (hpre : o'.segs.flatten <+: wire) : o'.Inv N D R := by
  refine ⟨h.relay.fire (h.relay.undisturbed h.progress.failed e) hstep.1, ?_⟩
  by_cases hseg : e.segs = []
  · exact h.quiet hK hseg hstep
  obtain ⟨junk, bs, s, t, rfl⟩ : ∃ junk bs s t, e = .serverRecv junk (.data bs) s t := by
    rcases e with ⟨junk, bs | _ | _ | _, s, t⟩ | _ | _ | _ | _ | _ | _
    · exact ⟨junk, bs, s, t, rfl⟩
    all_goals exact absurd rfl hseg
  have hsegs : o'.segs = o.segs ++ [bs] := hstep.2.2.1
  rcases h.progress with ⟨hnil, hw⟩ | @⟨first, rest, q, hfirst, hne, hbefore, hq, hqs, hcarries, hrefused⟩
  · exact hw.recv_init hK h.relay hnil hpre hstep
  have hfirst' : o'.segs = first ++ (rest ++ [bs]) := by rw [hsegs, hfirst, List.append_assoc]
  rcases ho : q.offset? with _ | offset
  · obtain ⟨hreqs, hr⟩ := (hrefused ho).recv_stop hstep
    refine .answered hfirst' hne hbefore hq (hreqs.trans hqs) ?_ fun _ => hr
    rw [ho]
    rintro _ ⟨⟩
  · obtain ⟨server, hs, hio, -⟩ := Option.of_bind_ite hstep.1
    rw [Bool.and_eq_true] at hio
    obtain ⟨hstage, remote, hr⟩ := (hcarries offset ho).streams h.relay hs hio.1
    obtain ⟨hreqs, hc⟩ := (hcarries offset ho).recv_stream hK hs hr hstage hpre hstep
    refine .answered hfirst' hne hbefore hq (hreqs.trans hqs) ?_ fun hnone => absurd (ho.symm.trans hnone) (by simp)
    intro offset' ho'
    rw [ho] at ho'
    cases ho'
    exact hc

theorem Inv.of_reach (hK : Decodes K wire plain D fresh R) (hnil : D [] = [])
    (hinit : ∀ g, fresh d g → R [] g d) (h : (observed K N fresh d).Reach o) (hpre : o.segs.flatten <+: wire) :
    o.Inv N D R := by
  induction h with
  | init h =>
    obtain ⟨g, junk, e_ctx, hfresh, rfl⟩ := h
    refine ⟨acceptedConn_inv g junk e_ctx d, .waiting hnil ⟨rfl, rfl, rfl, ?_⟩⟩
    rintro _ ⟨⟩
    exact ⟨rfl, rfl, Nat.le_refl _, hinit g hfresh⟩
  | step h hstep ih =>
    refine (ih ?_).step hK hstep hpre
    rw [hstep.2.2.1, List.flatten_append] at hpre
    exact (List.prefix_append _ _).trans hpre

end Observed

/-! ### The request -/

/-- What is passed on of `payload`. -/
def Request.payload (q : Request) (payload : Bytes) : Bytes := if q.offset?.isSome then payload else []

theorem Request.carried_none {q : Request} (h : q.offset? = none) : q.carried = [] := by
  simp [carried, h]

theorem Request.carried_some {q : Request} {offset : Nat} (h : q.offset? = some offset) : q.carried = [q] := by
  simp [carried, h]

theorem Request.payload_none {q : Request} (h : q.offset? = none) (payload : Bytes) : q.payload payload = [] := by
  simp [Request.payload, h]

theorem Request.payload_some {q : Request} {offset : Nat} (h : q.offset? = some offset) (payload : Bytes) :
    q.payload payload = payload := by
  simp [Request.payload, h]

/-- Whatever happens in between, a connection that has got `segs` has carried out `q`, if that is a request that is
carried out, and has passed on `payload`, which the destination gets without what is still in a buffer. A connection
that listens takes the next segment. -/
structure Fulfils (K : CryptoT Ctx G) (N : NetLib) (fresh : Ctx → G → Prop) (d_ctx : Ctx) (q : Request)
    (payload : Bytes) (segs : List Bytes) : Prop where
  requests : ∀ o, (observed K N fresh d_ctx).Reach o → o.segs = segs → o.requests = q.carried
  decrypted : ∀ o, (observed K N fresh d_ctx).Reach o → o.segs = segs → o.conn.decrypted = q.payload payload
  forwards : ∀ o, (observed K N fresh d_ctx).Reach o → o.segs = segs → o.conn.toRemote <+: q.payload payload ∧
    ∀ remote, o.conn.remote = some remote → o.conn.toRemote ++ remote.unsent = q.payload payload
  takes : ∀ o, (observed K N fresh d_ctx).Reach o → ∀ bs, o.segs ++ [bs] <+: segs → ∀ server,
    o.conn.server = some server → server.recv_io = true → ∀ junk s t,
      ∃ c, o.conn.fire K N (.serverRecv junk (.data bs) s t) = some (.ok c)

section
variable {header payload port : Bytes} {dst : Destination} {piece : Bytes}

/-- A header is found if and only if all of it is there. -/
theorem pieceRequest_part (hh : IsHeader header dst port) (hp : piece <+: header ++ payload) :
    pieceRequest N piece =
      if header.length ≤ piece.length then serverDestination N ⟨dst, port, header.length⟩ else .ok .stop := by
  split
  · rename_i hle
    obtain ⟨rest, rfl⟩ := List.prefix_of_prefix_length_le (List.prefix_append _ _) hp hle
    rw [pieceRequest, addrHeader_of_isHeader hh]
  · rename_i hlt
    have hnone : addrHeader piece = none := by
      rcases hf : addrHeader piece with _ | h
      · rfl
      · obtain ⟨header', rest, rfl, hh', hlen⟩ := addrHeader_eq_some.1 hf
        obtain ⟨rest', hrest⟩ := hp
        have hfound := addrHeader_of_isHeader hh' (rest ++ rest')
        rw [← List.append_assoc, hrest, addrHeader_of_isHeader hh] at hfound
        have hsame := congrArg AddrHeader.len (Option.some.inj hfound)
        simp only [List.length_append] at hlt hsame
        omega
    rw [pieceRequest, hnone]

theorem connect_total (addr : SockAddr) {buf : RelayBuf} (hbuf : buf.idx + buf.len ≤ buf.capacity) (junk : Block)
    (t : Connect) : ∃ res, connect_to_remote N addr c buf junk t = .ok res ∧
      ∀ r, res = some r → r.2.1.idx + r.2.1.len ≤ r.2.1.capacity := by
  unfold connect_to_remote
  have hnone : ∀ r : Conn Ctx G × RelayBuf × RemoteT, none = some r → r.2.1.idx + r.2.1.len ≤ r.2.1.capacity := by
    intro r hr
    cases hr
  split
  · exact ⟨none, rfl, hnone⟩
  rcases t with _ | _ | n
  · exact ⟨none, rfl, hnone⟩
  · refine ⟨some (c, buf, new_remote junk), rfl, ?_⟩
    rintro _ ⟨⟩
    exact hbuf
  · have hle : min n buf.len ≤ buf.len := Nat.min_le_right _ _
    simp only [Conn.sendRemote, Buffer.get_ok (show buf.idx + min n buf.len ≤ buf.capacity by omega), C.ok_bind]
    refine ⟨some _, rfl, ?_⟩
    rintro _ ⟨⟩
    simp only
    omega

theorem attachRemote_total {res : Option (Conn Ctx G × RelayBuf × RemoteT)}
    (h : ∀ r, res = some r → r.2.1.idx + r.2.1.len ≤ r.2.1.capacity) : ∃ c', attachRemote c server res = .ok c' := by
  rcases res with _ | ⟨c₁, buf, remote⟩
  · exact ⟨_, rfl⟩
  simp only [attachRemote]
  split
  · obtain ⟨n, hn, -, hroom⟩ := brealloc_eq remote.buf.toBuffer buf.len SOCKET_BUF_SIZE
    rw [Buffer.get_ok (h _ rfl), C.ok_bind, hn, Buffer.put_ok (by simpa using hroom), C.ok_bind]
    exact ⟨_, rfl⟩
  · exact ⟨_, rfl⟩

/-- A connection that listens takes a segment, if what it decrypts first is a header that the parser can read. -/
theorem Observed.Inv.takes (hK : Decodes K wire plain D fresh R) (h : o.Inv N D R)
    (hpre : o.segs.flatten ++ bs <+: wire)
    (hpiece : D (o.segs.flatten ++ bs) ≠ [] → ∃ q, pieceRequest N (D (o.segs.flatten ++ bs)) = .ok q)
    (hposs : (Recv.data bs).possible = true) (hs : o.conn.server = some server) (hrecv : server.recv_io = true)
    (junk : Block) (s : Send) (t : Connect) :
    ∃ c, o.conn.fire K N (.serverRecv junk (.data bs) s t) = some (.ok c) := by
  rcases h.progress with ⟨hnil, hw⟩ | @⟨first, rest, q, -, -, -, -, -, hcarries, hrefused⟩
  · obtain ⟨hstage, -, hroom, hR⟩ := hw.server server hs
    obtain ⟨ret, b, d_ctx, g, out, -, hD, hans, hb, hcall, -⟩ :=
      fire_init (N := N) hK hs hstage hrecv hroom hR hposs hpre junk s t
    rw [hcall]
    rcases hans with - | ⟨hbytes, hne⟩
    · exact ⟨_, rfl⟩
    rw [hnil, List.nil_append, ← hbytes] at hD
    obtain ⟨q, hq⟩ := hpiece (by rw [hD, hbytes]; exact hne)
    rw [hD, ← serverRequest_piece hb.fits] at hq
    simp only [serverRecvInit, hq, C.ok_bind]
    rcases q with _ | _ | ⟨addr, offset⟩ | _
    · exact ⟨_, rfl⟩
    · exact ⟨_, rfl⟩
    · have hle := serverRequest_offset hq offset rfl
      have hroom : offset + (b.len - offset) ≤ b.capacity := by
        have := hb.fits
        omega
      obtain ⟨res, hres, hfits⟩ := connect_total (N := N) (c := { o.conn with
        g, decrypted := o.conn.decrypted ++ ({ b with len := b.len - offset, idx := offset } : Buffer).pending }) addr
        (show (RelayBuf.mk { b with len := b.len - offset, idx := offset } fun _ => o.conn.failed).idx + _ ≤ _
          from hroom)
        junk t
      simp only [hres, C.ok_bind]
      exact (attachRemote_total hfits).imp fun _ => congrArg some
    · exact ⟨_, rfl⟩
  rcases ho : q.offset? with _ | offset
  · obtain ⟨hstage, -, hroom⟩ := (hrefused ho).server server hs
    obtain ⟨buf, -, hcall, -⟩ := fire_stop (K := K) (N := N) hs hstage hrecv hroom hposs junk s t
    exact ⟨_, hcall⟩
  · obtain ⟨hstage, remote, hr⟩ := (hcarries offset ho).streams h.relay hs hrecv
    obtain ⟨ret, b, d_ctx, g, out, -, -, hans, hb, hcall, -⟩ := fire_stream (N := N) hK hs hr hstage hrecv
      ((hcarries offset ho).remote remote hr) ((hcarries offset ho).server server hs).2.2 hposs hpre junk s t
    rw [hcall]
    rcases hans with - | -
    · exact ⟨_, rfl⟩
    have hfits := hb.fits
    rcases s with n | _ | _
    · simp only [serverRecvStream]
      split
      · simp only [Conn.sendRemote, Buffer.get_ok (show 0 + n ≤ b.capacity by omega), C.ok_bind]
        exact ⟨_, rfl⟩
      · simp only [Conn.sendRemote, Buffer.get_ok (show 0 + b.len ≤ b.capacity by omega), C.ok_bind]
        exact ⟨_, rfl⟩
    · exact ⟨_, rfl⟩
    · exact ⟨_, rfl⟩

/-- A connection whose first piece is rejected takes all segments. -/
theorem exists_rejected (hK : Decodes K wire plain D fresh R) (hnil : D [] = []) (hinit : ∀ g, fresh d g → R [] g d)
    {g₀ : G} (hg₀ : fresh d g₀) (e_ctx : Ctx) {segs : List Bytes} (hpre : segs.flatten <+: wire)
    (hposs : ∀ bs ∈ segs, (Recv.data bs).possible = true)
    (hbad : ∀ first, first <+: segs → D first.flatten ≠ [] → (∀ i < first.length, D (first.take i).flatten = []) →
      pieceRequest N (D first.flatten) = .ok .stop) :
    ∃ o, (observed K N fresh d).Reach o ∧ o.segs = segs ∧
      ∃ server, o.conn.server = some server ∧ server.recv_io = true := by
  induction segs using List.reverseRecOn with
  | nil =>
    exact ⟨_, .init ⟨g₀, fun _ => 0, e_ctx, hg₀, rfl⟩, rfl, _, rfl, rfl⟩
  | append_singleton segs bs ih =>
    rw [flatten_snoc] at hpre
    obtain ⟨o, hreach, rfl, server, hs, hrecv⟩ := ih ((List.prefix_append _ _).trans hpre)
      (fun b hb => hposs b (List.mem_append_left _ hb))
      (fun first hfirst => hbad first (hfirst.trans (List.prefix_append _ _)))
    have hinv := Observed.Inv.of_reach hK hnil hinit hreach ((List.prefix_append _ _).trans hpre)
    have hbs := hposs bs (by simp)
    -- the next state, from what the callback does
    have hnext : ∀ {c' : Conn Ctx G} {qs : List Request} {server' : ServerT Ctx},
        o.conn.fire K N (.serverRecv (fun _ => 0) (.data bs) .again .started) = some (.ok c') →
        o.conn.requests K N (.serverRecv (fun _ => 0) (.data bs) .again .started) = .ok qs →
        c'.server = some server' → server'.recv_io = true →
        ∃ o', (observed K N fresh d).Reach o' ∧ o'.segs = o.segs ++ [bs] ∧
          ∃ server, o'.conn.server = some server ∧ server.recv_io = true := by
      intro c' qs server' hfire hreq hs' hrecv'
      exact ⟨⟨c', o.segs ++ [bs], o.requests ++ qs⟩, hreach.step ⟨hfire, trivial, rfl, qs, hreq, rfl⟩, rfl, server',
        hs', hrecv'⟩
    rcases hinv.progress with ⟨hempty, hw⟩ | @⟨first, rest, q, hfirst, hne, hbefore, hq, -, -, hrefused⟩
    · obtain ⟨hstage, -, hroom, hR⟩ := hw.server server hs
      obtain ⟨ret, b, d_ctx, g, out, -, hD, hans, hb, hcall, hreq⟩ :=
        fire_init (N := N) hK hs hstage hrecv hroom hR hbs hpre (fun _ => 0) .again .started
      rcases hans with - | ⟨hbytes, hne⟩
      · refine hnext hcall hreq rfl ?_
        exact hrecv
      rw [hempty, List.nil_append, ← hbytes] at hD
      have hq : serverRequest N b = .ok .stop := by
        rw [serverRequest_piece hb.fits, ← hD, ← flatten_snoc]
        refine hbad _ List.prefix_rfl (by rw [flatten_snoc, hD, hbytes]; exact hne) ?_
        intro i hi
        rw [List.length_append, List.length_singleton] at hi
        rw [List.take_append_of_le_length (by omega)]
        exact List.prefix_nil.1 (hempty ▸ hK.mono (List.take_prefix _ _).flatten)
      simp only [serverRecvInit, hq, C.ok_bind] at hcall hreq
      refine hnext hcall hreq rfl ?_
      exact hrecv
    · rw [hbad first (hfirst ▸ (List.prefix_append _ _).trans (List.prefix_append _ _)) hne hbefore] at hq
      cases hq
      obtain ⟨hstage, -, hroom⟩ := (hrefused rfl).server server hs
      obtain ⟨buf, -, hcall, hreq⟩ := fire_stop (K := K) (N := N) hs hstage hrecv hroom hbs (fun _ => 0) .again .started
      refine hnext hcall hreq rfl ?_
      exact hrecv

/-- No cut falls behind the first decrypted byte and before the end of the header. -/
def HeaderWhole (D : Bytes → Bytes) (n : Nat) (segs : List Bytes) : Prop :=
  ∀ i ≤ segs.length, D (segs.take i).flatten = [] ∨ n ≤ (D (segs.take i).flatten).length

/-- The first piece of a stream is the header with some payload, or a part of the header. -/
theorem pieceRequest_first (hK : Decodes K wire plain D fresh R) (hh : IsHeader header dst port)
    (hplain : plain = header ++ payload) {fed : Bytes} (hpre : fed <+: wire) :
    pieceRequest N (D fed) =
      if header.length ≤ (D fed).length then serverDestination N ⟨dst, port, header.length⟩ else .ok .stop := by
  refine (@pieceRequest_part _ _ payload) hh ?_
  rw [← hplain, ← hK.all]
  exact hK.mono hpre

theorem served_of_whole (hK : Decodes K wire plain D fresh R) (hnil : D [] = []) (hinit : ∀ g, fresh d g → R [] g d)
    (hh : IsHeader header dst port) (hplain : plain = header ++ payload) {q : Request}
    (hq : serverDestination N ⟨dst, port, header.length⟩ = .ok q)
    {segs : List Bytes} (hsegs : segs.flatten = wire)
    (hposs : ∀ bs ∈ segs, (Recv.data bs).possible = true)
    (hwhole : q.offset? = none ∨ HeaderWhole D header.length segs) :
    Fulfils K N fresh d q payload segs := by
  have hpos : 0 < header.length := by
    cases hh <;> simp
  -- what has become of the request when all segments have come
  have hend : ∀ o, (observed K N fresh d).Reach o → o.segs = segs →
      o.conn.Inv ∧ o.requests = q.carried ∧ o.conn.decrypted = q.payload payload := by
    rintro o hreach rfl
    have hinv := Observed.Inv.of_reach hK hnil hinit hreach (hsegs ▸ List.prefix_rfl)
    refine ⟨hinv.relay, ?_⟩
    rcases hinv.progress with ⟨hempty, -⟩ | @⟨first, rest, q', hfirst, hne, hbefore, hq', hreq, hcarries, hrefused⟩
    · rw [hsegs, hK.all, hplain] at hempty
      rw [(List.append_eq_nil_iff.1 hempty).1] at hpos
      cases hpos
    have hpre : first.flatten <+: wire := by
      rw [← hsegs, hfirst]
      exact (List.prefix_append _ _).flatten
    rw [pieceRequest_first hK hh hplain hpre] at hq'
    split at hq'
    · rw [hq] at hq'
      cases hq'
      refine ⟨hreq, ?_⟩
      rcases ho : q.offset? with _ | offset
      · rw [(hrefused ho).decrypted, Request.payload_none ho]
      · rw [(hcarries offset ho).decrypted, Request.payload_some ho, hsegs, hK.all, hplain,
          serverDestination_offset hq ho, List.drop_left]
    · rename_i hlt
      cases hq'
      have ho : q.offset? = none := by
        refine hwhole.resolve_right fun hwhole => ?_
        have hfirst' := hwhole first.length (by rw [hfirst, List.length_append]; exact Nat.le_add_right _ _)
        rw [hfirst, List.take_left] at hfirst'
        exact hfirst'.elim hne hlt
      rw [Request.carried_none ho, Request.payload_none ho]
      exact ⟨hreq, (hrefused rfl).decrypted⟩
  refine ⟨fun o hreach ho => (hend o hreach ho).2.1, fun o hreach ho => (hend o hreach ho).2.2, ?_, ?_⟩
  · intro o hreach ho
    obtain ⟨hinv, -, hdec⟩ := hend o hreach ho
    rw [← hdec]
    exact ⟨hinv.toRemote, fun remote hr => (hinv.remote remote hr).1.symm⟩
  · intro o hreach bs hbs server hs hrecv junk s t
    have hpre : o.segs.flatten ++ bs <+: wire := by
      rw [← flatten_snoc, ← hsegs]
      exact hbs.flatten
    refine (Observed.Inv.of_reach hK hnil hinit hreach ((List.prefix_append _ _).trans hpre)).takes hK hpre ?_
      (hposs bs (hbs.mem (by simp))) hs hrecv junk s t
    intro _
    rw [pieceRequest_first hK hh hplain hpre]
    split
    · exact ⟨q, hq⟩
    · exact ⟨_, rfl⟩

/-- The segments are served as if they had come at once if and only if there is nothing to serve, or the header is in
the first piece that is decrypted. -/
theorem served_iff (hK : Decodes K wire plain D fresh R) (hnil : D [] = []) (hinit : ∀ g, fresh d g → R [] g d)
    {g₀ : G} (hg₀ : fresh d g₀) (e_ctx : Ctx) (hh : IsHeader header dst port) (hplain : plain = header ++ payload)
    {q : Request} (hq : serverDestination N ⟨dst, port, header.length⟩ = .ok q)
    {segs : List Bytes} (hsegs : segs.flatten = wire)
    (hposs : ∀ bs ∈ segs, (Recv.data bs).possible = true) :
    Fulfils K N fresh d q payload segs ↔ q.offset? = none ∨ HeaderWhole D header.length segs := by
  refine ⟨?_, served_of_whole hK hnil hinit hh hplain hq hsegs hposs⟩
  intro hserved
  by_contra hnot
  simp only [HeaderWhole, not_or, not_forall] at hnot
  obtain ⟨hcarried, i, hi, hne, hlt⟩ := hnot
  -- the first piece comes with the segments up to the cut at the latest
  have hbad : ∀ first, first <+: segs → D first.flatten ≠ [] → (∀ i < first.length, D (first.take i).flatten = []) →
      pieceRequest N (D first.flatten) = .ok .stop := by
    intro first hfirst hne' hbefore
    have hle : first.length ≤ i := by
      by_contra hlt'
      have htake : first.take i = segs.take i := by
        rw [List.prefix_iff_eq_take.1 hfirst, List.take_take, Nat.min_eq_left (by omega)]
      exact hne (htake ▸ hbefore i (by omega))
    have hpre : first <+: segs.take i := List.prefix_take_iff.2 ⟨hfirst, hle⟩
    rw [pieceRequest_first hK hh hplain (hsegs ▸ hfirst.flatten), if_neg]
    have hlen := (hK.mono hpre.flatten).length_le
    omega
  obtain ⟨o, hreach, rfl, -⟩ := exists_rejected (N := N) hK hnil hinit hg₀ e_ctx (hsegs ▸ List.prefix_rfl) hposs hbad
  have hreqs := hserved.requests o hreach rfl
  rcases (Observed.Inv.of_reach hK hnil hinit hreach (hsegs ▸ List.prefix_rfl)).progress with
    ⟨hempty, -⟩ | @⟨first, rest, q', hfirst, hne', hbefore, hq', hreq, -, -⟩
  · exact hne (List.prefix_nil.1 (hempty ▸ hK.mono (List.take_prefix _ _).flatten))
  · rw [hbad first (hfirst ▸ List.prefix_append _ _) hne' hbefore] at hq'
    cases hq'
    rw [hreqs] at hreq
    obtain ⟨offset, ho⟩ := Option.ne_none_iff_exists'.1 hcarried
    rw [Request.carried_some ho, Request.carried_none rfl] at hreq
    cases hreq

end

end

/-! ### Both families -/

/-- A cut falls behind the first byte of the header, which follows `iv` bytes, and before its end. -/
def CutsHeader (iv header : Nat) (segs : List Bytes) : Prop :=
  ∃ i ≤ segs.length, iv < (segs.take i).flatten.length ∧ (segs.take i).flatten.length < iv + header

section
variable {L : CryptoLib} {byte : StreamMethod → Bool → Bytes → Bytes → Bytes → UInt8 → UInt8}
  {ks : StreamMethod → Bytes → Bytes → Nat → UInt8}

theorem possible_data {bs : Bytes} (h : bs ≠ [] ∧ bs.length ≤ SOCKET_BUF_SIZE) : (Recv.data bs).possible = true := by
  simpa [Recv.possible] using h

theorem length_streamDecoded (c : Cipher StreamMethod) (iv fed : Bytes) :
    (streamDecoded L byte ks c iv fed).length = fed.length - iv.length := by
  rw [streamDecoded, Streaming.length_scan, List.length_drop]

theorem headerWhole_stream (c : Cipher StreamMethod) (iv : Bytes) (n : Nat) (segs : List Bytes) :
    HeaderWhole (streamDecoded L byte ks c iv) n segs ↔ ¬ CutsHeader iv.length n segs := by
  simp only [HeaderWhole, CutsHeader, not_exists, not_and]
  refine forall₂_congr fun i _ => ?_
  rw [← List.length_eq_zero_iff, length_streamDecoded]
  omega

theorem fresh_start (ctx : StreamCtx) (c : Cipher StreamMethod) (iv : Bytes) : ctx.Fresh L c iv .start := by
  intro _ _
  have hcheck : ppbloom_check L.murmurhash2 CryptoStatics.start.bloom iv = 0 := ppbloom_check_init (by decide)
  rw [hcheck]
  decide

/-- With an AEAD cipher the header is in the first chunk, and the segments are always served. With a stream cipher they
are if and only if no cut falls inside the header, or the request is not carried out in any case. -/
theorem request_segmentation (hL : L.Lawful) (hlen : L.Lengths) (hS : L.Streams byte ks) (N : NetLib)
    {header payload port : Bytes} {dst : Destination}
    (hh : IsHeader header dst port) {q : Request} (hq : serverDestination N ⟨dst, port, header.length⟩ = .ok q)
    (first : Buffer) (rest : List Buffer) (hfirst : header <+: first.bytes)
    (hplain : fedBytes (first :: rest) = header ++ payload)
    (hbs : ∀ b ∈ first :: rest, 1 ≤ b.len ∧ b.len ≤ 16383 ∧ b.len ≤ b.capacity) (capacity : Nat) :
    (∀ (M : AeadMethod) (key salt : Bytes), salt.length = supported_aead_ciphers_key_size M → ∀ g,
      ∃ cs ctx g', encryptCalls L capacity g (aead_ctx_init (aead_key_init M key) (some salt)) (first :: rest) =
          .ok (cs, ctx, g') ∧ (∀ c ∈ cs, c.1 = .CRYPTO_OK) ∧
        ∀ segs : List Bytes, segs.flatten = (cs.map (·.2)).flatten →
          (∀ bs ∈ segs, bs ≠ [] ∧ bs.length ≤ SOCKET_BUF_SIZE) →
          Fulfils (aeadCrypto L) N (AeadCtx.Fresh L salt) (aead_ctx_init (aead_key_init M key) none) q payload segs) ∧
    ∀ (M : StreamMethod) (key iv : Bytes), stream_supported L M → key.length = supported_stream_ciphers_key_size M →
      iv.length = supported_stream_ciphers_nonce_size M → M.Counts (header ++ payload).length → ∀ g,
      ∃ ctx₀ d_ctx cs ctx g', stream_ctx_init L (stream_key_init M key) true iv = .ok ctx₀ ∧
        stream_ctx_init L (stream_key_init M key) false [] = .ok d_ctx ∧
        streamEncryptCalls L capacity g ctx₀ (first :: rest) = .ok (cs, ctx, g') ∧ (∀ c ∈ cs, c.1 = .CRYPTO_OK) ∧
        ∀ segs : List Bytes, segs.flatten = (cs.map (·.2)).flatten →
          (∀ bs ∈ segs, bs ≠ [] ∧ bs.length ≤ SOCKET_BUF_SIZE) →
          (Fulfils (streamCrypto L) N (StreamCtx.Fresh L (stream_key_init M key) iv) d_ctx q payload segs ↔
            q.offset? = none ∨ ¬ CutsHeader iv.length header.length segs) := by
  constructor
  · intro M key salt hsalt g
    have hs : (aead_key_init M key).Supported := supported_aead_key_init M key
    have hctx : (aead_ctx_init (aead_key_init M key) (some salt)).salt.length = (aead_key_init M key).key_len := hsalt
    obtain ⟨cs, sctx, g', hsend, hok⟩ := encryptCalls_total hL.encrypts _ hs hctx (first :: rest)
      (fun b hb => (hbs b hb).2) g capacity
    have hwire : cs.map (·.2) =
        (aeadChunks hL (aead_key_init M key) salt ((first :: rest).map Buffer.bytes)).modifyHead (salt ++ ·) :=
      encryptCalls_wire hL hctx (fun b hb => ⟨(hbs b hb).1, (hbs b hb).2.1⟩) hsend hok
    refine ⟨cs, sctx, g', hsend, hok, ?_⟩
    intro segs hsegs hposs
    have hms : ∀ m ∈ (first :: rest).map Buffer.bytes, 0 < m.length ∧ m.length ≤ CHUNK_SIZE_MASK := by
      intro m hm
      obtain ⟨b, hb, rfl⟩ := List.mem_map.1 hm
      rw [Buffer.length_bytes]
      exact ⟨(hbs b hb).1, (hbs b hb).2.1⟩
    have hflat : segs.flatten =
        salt ++ (aeadChunks hL (aead_key_init M key) salt ((first :: rest).map Buffer.bytes)).flatten := by
      rw [hsegs, hwire, List.map_cons]
      simp only [aeadChunks, Codec.frames, List.modifyHead_cons, List.flatten_cons, List.append_assoc]
    have hnil : aeadDecoded hL (aead_key_init M key) salt ((first :: rest).map Buffer.bytes) [] = [] := by
      rw [aeadDecoded, ← (receives_init L _).eq_whole hL hs hsalt hms List.nil_prefix]
      rfl
    refine served_of_whole (aead_decodes hL hlen hs hsalt hms) hnil ?_ hh hplain hq hflat
      (fun bs hb => possible_data (hposs bs hb)) (.inr ?_)
    · intro g hfresh
      exact aead_ctx_init_decoding hL hs hsalt hms (hfresh (by simp [aead_ctx_init]))
    · intro i _
      rw [or_iff_not_imp_left]
      intro hne
      exact (hfirst.trans (prefix_aeadDecoded hL hne)).length_le
  · intro M key iv hM hkey hiv hcount g
    obtain ⟨ctx₀, hctx₀, hun, -, hn⟩ := stream_ctx_init_unkeyed hM key true iv
    obtain ⟨d_ctx, hd, hdec⟩ := stream_ctx_init_decoding hM key iv
    obtain ⟨cs, ctx, g', hsend, -, hok, hflat⟩ := streamEncryptCalls_spec hS hM hkey hiv (first :: rest)
      (fun b hb => (hbs b hb).2.2) (.fresh hun (hn rfl) rfl) (hcount.mono (by rw [hplain]; simp)) g capacity
    refine ⟨ctx₀, d_ctx, cs, ctx, g', hctx₀, hd, hsend, hok, ?_⟩
    intro segs hsegs hposs
    rw [hun.init, if_pos ⟨rfl, List.cons_ne_nil _ _⟩, hplain] at hflat
    rw [← headerWhole_stream (L := L) (stream_key_init M key) iv]
    exact served_iff (stream_decodes hS hlen hM hkey hiv hcount) streamDecoded_nil hdec
      (fresh_start d_ctx _ iv) ctx₀ hh rfl hq (hsegs.trans hflat) fun bs hb => possible_data (hposs bs hb)

end

/-! ### A header with its first byte in a segment of its own -/

/-- 127.0.0.1:80. -/
def loopbackHeader : Bytes := [1, 127, 0, 0, 1, 0, 80]

theorem loopbackHeader_isHeader : IsHeader loopbackHeader (.ip (.v4 [127, 0, 0, 1])) [0, 80] :=
  @IsHeader.ipv4 1 [127, 0, 0, 1] [0, 80] rfl rfl rfl

def loopbackRequest : Request := .connect ⟨.v4 [127, 0, 0, 1], [0, 80]⟩ 7

/-- What the client sends behind the IV for the request with one byte of payload. -/
def loopbackWire : Bytes := [1, 126, 2, 3, 5, 5, 86, 70]

theorem request_segmentation_loopback :
    ∃ ctx₀ d_ctx cs ctx g', stream_ctx_init xorLib (stream_key_init .CHACHA20 (List.replicate 32 1)) true
        (List.replicate 8 2) = .ok ctx₀ ∧
      stream_ctx_init xorLib (stream_key_init .CHACHA20 (List.replicate 32 1)) false [] = .ok d_ctx ∧
      streamEncryptCalls xorLib SOCKET_BUF_SIZE .start ctx₀ [Buffer.ofBytes (loopbackHeader ++ [65])] =
        .ok (cs, ctx, g') ∧ (∀ c ∈ cs, c.1 = .CRYPTO_OK) ∧
      ∀ segs : List Bytes, segs.flatten = (cs.map (·.2)).flatten →
        (∀ bs ∈ segs, bs ≠ [] ∧ bs.length ≤ SOCKET_BUF_SIZE) →
        (Fulfils (streamCrypto xorLib) openNet
            (StreamCtx.Fresh xorLib (stream_key_init .CHACHA20 (List.replicate 32 1)) (List.replicate 8 2)) d_ctx
            loopbackRequest [65] segs ↔
          loopbackRequest.offset? = none ∨ ¬ CutsHeader (List.replicate 8 2).length loopbackHeader.length segs) := by
  have h := request_segmentation xorLib_lawful xorLib_lengths xorLib_streams openNet
    loopbackHeader_isHeader (q := loopbackRequest) rfl (Buffer.ofBytes (loopbackHeader ++ [65])) []
    (List.prefix_append _ [65]) rfl (by simp [Buffer.ofBytes, loopbackHeader]) SOCKET_BUF_SIZE
  exact h.2 .CHACHA20 (List.replicate 32 1) (List.replicate 8 2) ⟨by decide, .inl (by decide)⟩ rfl rfl
    (StreamMethod.counts_of_lt (by decide)) .start

/-- The same bytes are served in one segment, and not when the first byte of the header comes with the IV. -/
theorem header_cut_rejected :
    ∃ d_ctx, stream_ctx_init xorLib (stream_key_init .CHACHA20 (List.replicate 32 1)) false [] = .ok d_ctx ∧
      Fulfils (streamCrypto xorLib) openNet
        (StreamCtx.Fresh xorLib (stream_key_init .CHACHA20 (List.replicate 32 1)) (List.replicate 8 2)) d_ctx
        loopbackRequest [65] [List.replicate 8 2 ++ loopbackWire] ∧
      ¬ Fulfils (streamCrypto xorLib) openNet
        (StreamCtx.Fresh xorLib (stream_key_init .CHACHA20 (List.replicate 32 1)) (List.replicate 8 2)) d_ctx
        loopbackRequest [65] [List.replicate 8 2 ++ loopbackWire.take 1, loopbackWire.drop 1] := by
  have hM : stream_supported xorLib .CHACHA20 := ⟨by decide, .inl (by decide)⟩
  obtain ⟨d_ctx, hd, hdec⟩ := stream_ctx_init_decoding hM (List.replicate 32 1) (List.replicate 8 2)
  have hK := stream_decodes xorLib_streams xorLib_lengths hM (List.length_replicate (n := 32) (a := 1))
    (List.length_replicate (n := 8) (a := 2))
    (StreamMethod.counts_of_lt (M := .CHACHA20) (n := (loopbackHeader ++ [65]).length) (by decide))
  have hiff := fun {segs : List Bytes} (hsegs : segs.flatten = _) hposs => served_iff hK streamDecoded_nil hdec
    (fresh_start d_ctx _ _) d_ctx loopbackHeader_isHeader rfl (N := openNet) (q := loopbackRequest) rfl
    hsegs hposs
  refine ⟨d_ctx, hd, (hiff (by decide +kernel) (by decide)).2 (.inr ?_), ?_⟩
  · rw [headerWhole_stream]
    rintro ⟨i, hi, hlt, hlt'⟩
    have hcases : i = 0 ∨ i = 1 := by
      simp only [List.length_singleton] at hi
      omega
    rcases hcases with rfl | rfl
    · cases hlt
    · revert hlt'
      decide
  · rw [hiff (by decide +kernel) (by decide), headerWhole_stream]
    rintro (hnone | hwhole)
    · cases hnone
    · exact hwhole ⟨1, by decide, by decide, by decide⟩

end OutlineServer
