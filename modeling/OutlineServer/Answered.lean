import OutlineServer.Encodes

/-!
# What ss-server answers

`remote_recv_cb` is the only callback of ss-server that encrypts. `Answered` is a connection with what it has read from
its destination: what has been encrypted is the encoding of that.
-/

namespace OutlineServer

structure Answered (Ctx G : Type) where
  observed : Observed Ctx G
  answered : Bytes

section
variable {Ctx G : Type}

/-- What `remote_recv_cb` reads in order to pass it on. -/
def Conn.answers (c : Conn Ctx G) : RelayEvent G → Bytes
  | .remoteRecv (.data bs) _ => if c.server.any fun server => server.stage ≠ .STOP then bs else []
  | _ => []

/-- The connections of a client whose contexts start as `e_ctx` and `d_ctx`. -/
def answering (K : CryptoT Ctx G) (N : NetLib) (fresh : Ctx → G → Prop) (e_ctx d_ctx : Ctx) :
    Lts (Answered Ctx G) (RelayEvent G) where
  init a := ∃ g junk, fresh d_ctx g ∧ a = ⟨⟨acceptedConn g junk e_ctx d_ctx, [], []⟩, []⟩
  step a e a' := (observed K N fresh d_ctx).step a.observed e a'.observed ∧
    a'.answered = a.answered ++ a.observed.conn.answers e

theorem observed_of_answering {K : CryptoT Ctx G} {N : NetLib} {fresh : Ctx → G → Prop} {e_ctx d_ctx : Ctx}
    {a : Answered Ctx G} (h : (answering K N fresh e_ctx d_ctx).Reach a) :
    (observed K N fresh d_ctx).Reach a.observed := by
  induction h with
  | init h =>
    obtain ⟨g, junk, hfresh, rfl⟩ := h
    exact .init ⟨g, junk, e_ctx, hfresh, rfl⟩
  | step _ hstep ih => exact ih.step hstep.1

/-! ### The callbacks that do not encrypt -/

/-- Nothing has been encrypted, and `server->buf` has room for a segment if there is `room` in the
buffer that it was. -/
structure Conn.Quiet (c : Conn Ctx G) (e_ctx : Ctx) (room : Prop) (c' : Conn Ctx G) : Prop where
  encrypted : c'.encrypted = c.encrypted
  toClient : c.toClient <+: c'.toClient
  server : ∀ server', c'.server = some server' → server'.e_ctx = e_ctx ∧ (room → SOCKET_BUF_SIZE ≤ server'.buf.capacity)

variable {K : CryptoT Ctx G} {N : NetLib} {c c' : Conn Ctx G} {server : ServerT Ctx} {remote : RemoteT} {e_ctx : Ctx}
  {room : Prop}

theorem Conn.Quiet.closed (henc : c'.encrypted = c.encrypted) (hsent : c.toClient <+: c'.toClient)
    (hs : c'.server = none) : c.Quiet e_ctx room c' := by
  refine ⟨henc, hsent, ?_⟩
  rw [hs]
  exact nofun

theorem Conn.Quiet.opened {server' : ServerT Ctx} (henc : c'.encrypted = c.encrypted)
    (hsent : c.toClient <+: c'.toClient) (hs : c'.server = some server') (hctx : server'.e_ctx = e_ctx)
    (hroom : room → SOCKET_BUF_SIZE ≤ server'.buf.capacity) : c.Quiet e_ctx room c' := by
  refine ⟨henc, hsent, ?_⟩
  rw [hs]
  rintro _ ⟨⟩
  exact ⟨hctx, hroom⟩

theorem of_sendClient_append {buf : RelayBuf} {off n : Nat} (h : c.sendClient buf off n = .ok c') :
    ∃ bs leaked, c' = { c with toClient := c.toClient ++ bs, leaked } := by
  obtain ⟨bs, -, h⟩ := C.bind_eq_ok h
  cases h
  exact ⟨_, _, rfl⟩

theorem attachRemote_quiet {addr : SockAddr} {buf : RelayBuf} {junk : Block} {t : Connect}
    (h : connect_to_remote N addr c buf junk t >>= attachRemote c server = .ok c')
    (hroom : room → SOCKET_BUF_SIZE ≤ buf.capacity) : c.Quiet server.e_ctx room c' := by
  obtain ⟨res, hconn, hatt⟩ := C.bind_eq_ok h
  rcases res with _ | ⟨c₁, buf₁, remote₁⟩
  · cases hatt
    exact .closed rfl List.prefix_rfl rfl
  obtain ⟨henc, hsent, hcap⟩ : c₁.encrypted = c.encrypted ∧ c₁.toClient = c.toClient ∧
    buf₁.capacity = buf.capacity := by
    unfold connect_to_remote at hconn
    split at hconn
    · cases hconn
    rcases t with _ | _ | n
    · cases hconn
    · cases hconn
      exact ⟨rfl, rfl, rfl⟩
    · obtain ⟨c₂, hsend, hconn⟩ := C.bind_eq_ok hconn
      obtain ⟨_, _, rfl⟩ := Conn.of_sendRemote_ok hsend
      cases hconn
      exact ⟨rfl, rfl, rfl⟩
  simp only [attachRemote] at hatt
  split at hatt
  · obtain ⟨payload, -, hatt⟩ := C.bind_eq_ok hatt
    obtain ⟨rbuf, -, hatt⟩ := C.bind_eq_ok hatt
    cases hatt
    exact .opened henc (hsent ▸ List.prefix_rfl) rfl rfl fun h => (hroom h).trans hcap.ge
  · cases hatt
    exact .opened henc (hsent ▸ List.prefix_rfl) rfl rfl fun h => (hroom h).trans hcap.ge

theorem serverRecvInit_quiet {buf : RelayBuf} {junk : Block} {ret : CryptoRet} {t : Connect}
    (h : serverRecvInit N c server buf junk ret t = .ok c')
    (hroom : room → SOCKET_BUF_SIZE ≤ buf.capacity) :
    c.Quiet server.e_ctx room c' := by
  cases ret with
  | CRYPTO_ERROR =>
    cases h
    exact .opened rfl List.prefix_rfl rfl rfl hroom
  | CRYPTO_NEED_MORE =>
    cases h
    exact .opened rfl List.prefix_rfl rfl rfl hroom
  | CRYPTO_OK =>
    obtain ⟨q, -, h⟩ := C.bind_eq_ok h
    rcases q with _ | _ | ⟨addr, offset⟩ | ⟨host, port, offset⟩
    · cases h
      exact .opened rfl List.prefix_rfl rfl rfl hroom
    · cases h
      exact .closed rfl List.prefix_rfl rfl
    · have hquiet := attachRemote_quiet h hroom
      exact ⟨hquiet.encrypted, hquiet.toClient, hquiet.server⟩
    · cases h
      exact .opened rfl List.prefix_rfl rfl rfl hroom

theorem serverRecvStream_quiet {buf : RelayBuf} {ret : CryptoRet} {s : Send}
    (h : serverRecvStream c server remote buf ret s = .ok c')
    (hroom : room → SOCKET_BUF_SIZE ≤ server.buf.capacity) :
    c.Quiet server.e_ctx room c' := by
  cases ret with
  | CRYPTO_ERROR =>
    cases h
    exact .opened rfl List.prefix_rfl rfl rfl hroom
  | CRYPTO_NEED_MORE =>
    cases h
    exact .opened rfl List.prefix_rfl rfl rfl hroom
  | CRYPTO_OK =>
    rcases s with n | _ | _
    · simp only [serverRecvStream] at h
      split at h
      · obtain ⟨c₁, hsent, h⟩ := C.bind_eq_ok h
        obtain ⟨_, _, rfl⟩ := Conn.of_sendRemote_ok hsent
        cases h
        exact .opened rfl List.prefix_rfl rfl rfl hroom
      · obtain ⟨c₁, hsent, h⟩ := C.bind_eq_ok h
        obtain ⟨_, _, rfl⟩ := Conn.of_sendRemote_ok hsent
        cases h
        exact .opened rfl List.prefix_rfl rfl rfl hroom
    · cases h
      exact .opened rfl List.prefix_rfl rfl rfl hroom
    · cases h
      exact .closed rfl List.prefix_rfl rfl

theorem server_send_cb_quiet (hs : c.server = some server) (hroom : room → SOCKET_BUF_SIZE ≤ server.buf.capacity)
    {s : Send}
    (h : server_send_cb c server s = .ok c') : c.Quiet server.e_ctx room c' := by
  simp only [server_send_cb] at h
  split at h
  · cases h
    exact .closed rfl List.prefix_rfl rfl
  split at h
  · cases h
    exact .closed rfl List.prefix_rfl rfl
  rcases s with n | _ | _
  · dsimp only at h
    split at h
    · obtain ⟨c₁, hsent, h⟩ := C.bind_eq_ok h
      obtain ⟨_, _, rfl⟩ := of_sendClient_append hsent
      cases h
      exact .opened rfl (List.prefix_append _ _) rfl rfl hroom
    · obtain ⟨c₁, hsent, h⟩ := C.bind_eq_ok h
      obtain ⟨_, _, rfl⟩ := of_sendClient_append hsent
      cases h
      exact .opened rfl (List.prefix_append _ _) rfl rfl hroom
  · cases h
    exact .opened rfl List.prefix_rfl hs rfl hroom
  · cases h
    exact .closed rfl List.prefix_rfl rfl

theorem remoteSendData_quiet (hs : c.server = some server) (hroom : room → SOCKET_BUF_SIZE ≤ server.buf.capacity)
    {s : Send}
    (h : remoteSendData c server remote s = .ok c') : c.Quiet server.e_ctx room c' := by
  simp only [remoteSendData] at h
  split at h
  · cases h
    exact .closed rfl List.prefix_rfl rfl
  rcases s with n | _ | _
  · dsimp only at h
    split at h
    · obtain ⟨c₁, hsent, h⟩ := C.bind_eq_ok h
      obtain ⟨_, _, rfl⟩ := Conn.of_sendRemote_ok hsent
      cases h
      exact .opened rfl List.prefix_rfl hs rfl hroom
    · obtain ⟨c₁, hsent, h⟩ := C.bind_eq_ok h
      obtain ⟨_, _, rfl⟩ := Conn.of_sendRemote_ok hsent
      dsimp only at h
      split at h
      · cases h
        exact .opened rfl List.prefix_rfl rfl rfl hroom
      · cases h
        exact .opened rfl List.prefix_rfl rfl rfl hroom
  · cases h
    exact .opened rfl List.prefix_rfl hs rfl hroom
  · cases h
    exact .closed rfl List.prefix_rfl rfl

theorem remote_send_cb_quiet (hs : c.server = some server) (hroom : room → SOCKET_BUF_SIZE ≤ server.buf.capacity)
    {connected : Bool} {s : Send} (h : remote_send_cb c remote connected s = .ok c') :
    c.Quiet server.e_ctx room c' := by
  simp only [remote_send_cb, hs] at h
  split at h
  · exact remoteSendData_quiet hs hroom h
  split at h
  · split at h
    · cases h
      exact .opened rfl List.prefix_rfl rfl rfl hroom
    · exact remoteSendData_quiet hs hroom h
  · cases h
    exact .closed rfl List.prefix_rfl rfl

/-- What a segment of the client leaves of the buffer depends on the cipher. -/
theorem server_recv_cb_quiet (hs : c.server = some server) (hroom : room → SOCKET_BUF_SIZE ≤ server.buf.capacity)
    {junk : Block} {r : Recv} {s : Send} {t : Connect} (hr : room → ∀ bs, r ≠ .data bs)
    (h : server_recv_cb K N c server junk r s t = .ok c') : c.Quiet server.e_ctx room c' := by
  simp only [server_recv_cb] at h
  split at h
  · split at h
    · cases h
    split at h
    · cases h
      exact .opened rfl List.prefix_rfl hs rfl hroom
    · cases h
      exact .closed rfl List.prefix_rfl rfl
    · cases h
      exact .closed rfl List.prefix_rfl rfl
    · obtain ⟨buf, -, h⟩ := C.bind_eq_ok h
      obtain ⟨⟨ret, b, d_ctx, g⟩, -, h⟩ := C.bind_eq_ok h
      have hquiet := serverRecvStream_quiet h hroom
      exact ⟨hquiet.encrypted, hquiet.toClient, hquiet.server⟩
  · split at h
    · cases h
      exact .opened rfl List.prefix_rfl hs rfl hroom
    · cases h
      exact .closed rfl List.prefix_rfl rfl
    · cases h
      exact .closed rfl List.prefix_rfl rfl
    · rename_i bs
      obtain ⟨buf, -, h⟩ := C.bind_eq_ok h
      split at h
      · cases h
        exact .opened rfl List.prefix_rfl rfl rfl fun hroom => absurd rfl (hr hroom bs)
      obtain ⟨⟨ret, b, d_ctx, g⟩, -, h⟩ := C.bind_eq_ok h
      dsimp only at h
      split at h
      · cases h
      · have hquiet := serverRecvInit_quiet h fun hroom : room => absurd rfl (hr hroom bs)
        exact ⟨hquiet.encrypted, hquiet.toClient, hquiet.server⟩

theorem resolv_cb_quiet {junk : Block} {addr : Option SockAddr}
    {t : Connect} (h : resolv_cb N c server junk addr t = .ok c')
    (hroom : room → SOCKET_BUF_SIZE ≤ server.buf.capacity) : c.Quiet server.e_ctx room c' := by
  rcases addr with _ | addr
  · cases h
    exact .closed rfl List.prefix_rfl rfl
  · have hatt :
        connect_to_remote N addr c server.buf junk t >>= attachRemote c { server with query := false } = .ok c' := h
    have hquiet := attachRemote_quiet hatt hroom
    exact ⟨hquiet.encrypted, hquiet.toClient, hquiet.server⟩

/-! ### `remote_recv_cb` -/

variable {fresh₁ : Ctx → G → Prop} {d₁ : Ctx} {Counts : Nat → Prop} {Whole : List Bytes → Prop}
  {sends : Bytes → Bytes → Ctx → Prop} {bs : Bytes} {s : Send}

/-- A segment of the destination is encrypted, whatever the client takes of it. -/
theorem remote_recv_cb_answers (hK : Encodes K fresh₁ d₁ Counts [] Whole sends) (hs : c.server = some server)
    (hroom : SOCKET_BUF_SIZE ≤ server.buf.capacity) (hst : server.stage ≠ .STOP)
    (hposs : (Recv.data bs).possible = true) {plain : Bytes} (hsends : sends plain c.encrypted server.e_ctx)
    (hcount : Counts (plain.length + bs.length)) (h : remote_recv_cb K c remote (.data bs) s = .ok c') :
    ∃ e_ctx, sends (plain ++ bs) c'.encrypted e_ctx ∧
      ∀ server', c'.server = some server' → server'.e_ctx = e_ctx ∧ SOCKET_BUF_SIZE ≤ server'.buf.capacity := by
  have hp : bs ≠ [] ∧ bs.length ≤ SOCKET_BUF_SIZE := by simpa [Recv.possible] using hposs
  obtain ⟨buf, hbuf, hcap, hbytes⟩ := RelayBuf.recv_ok (hp.2.trans hroom) false
  obtain ⟨b, ctx, g, henc, hb, -, hsends'⟩ := hK.encrypt (b := { buf.toBuffer with len := bs.length }) c.g hsends
    ⟨hcap ▸ hroom, by simp only; omega⟩ hp.2 hcount fun _ => List.nil_prefix
  rw [hbytes] at hsends'
  refine ⟨ctx, ?_⟩
  simp only [remote_recv_cb, hs, hbuf, C.ok_bind, if_neg hst, henc] at h
  rw [if_neg (by simp)] at h
  rcases s with n | _ | _
  · dsimp only at h
    split at h
    · obtain ⟨c₁, hsent, h⟩ := C.bind_eq_ok h
      obtain ⟨_, _, rfl⟩ := Conn.of_sendClient_ok hsent
      cases h
      refine ⟨hsends', ?_⟩
      rintro _ ⟨⟩
      exact ⟨rfl, hb.room⟩
    · obtain ⟨c₁, hsent, h⟩ := C.bind_eq_ok h
      obtain ⟨_, _, rfl⟩ := Conn.of_sendClient_ok hsent
      cases h
      refine ⟨hsends', ?_⟩
      rintro _ ⟨⟩
      exact ⟨rfl, hb.room⟩
  · cases h
    refine ⟨hsends', ?_⟩
    rintro _ ⟨⟩
    exact ⟨rfl, hb.room⟩
  · cases h
    refine ⟨hsends', ?_⟩
    rintro _ ⟨⟩

theorem remote_recv_cb_grows {r : Recv} (h : remote_recv_cb K c remote r s = .ok c') : c.toClient <+: c'.toClient := by
  simp only [remote_recv_cb] at h
  split at h
  · cases h
    exact List.prefix_rfl
  split at h
  · cases h
    exact List.prefix_rfl
  · cases h
    exact List.prefix_rfl
  · cases h
    exact List.prefix_rfl
  obtain ⟨buf, -, h⟩ := C.bind_eq_ok h
  split at h
  · cases h
    exact List.prefix_rfl
  obtain ⟨⟨ret, b, e_ctx, g⟩, -, h⟩ := C.bind_eq_ok h
  dsimp only at h
  split at h
  · cases h
    exact List.prefix_rfl
  split at h
  · cases h
    exact List.prefix_rfl
  · cases h
    exact List.prefix_rfl
  · split at h
    · obtain ⟨c₁, hsent, h⟩ := C.bind_eq_ok h
      obtain ⟨_, _, rfl⟩ := of_sendClient_append hsent
      cases h
      exact List.prefix_append _ _
    · obtain ⟨c₁, hsent, h⟩ := C.bind_eq_ok h
      obtain ⟨_, _, rfl⟩ := of_sendClient_append hsent
      cases h
      exact List.prefix_append _ _

/-- What the client has been sent only grows. -/
theorem Conn.fire_grows {e : RelayEvent G} (hfire : c.fire K N e = some (.ok c')) : c.toClient <+: c'.toClient := by
  have hno : ∀ {P : Prop}, False → P := fun h => h.elim
  rcases e with ⟨junk, r, s, t⟩ | s | ⟨junk, addr, t⟩ | ⟨r, s⟩ | ⟨connected, s⟩ | _ | g
  · obtain ⟨server, hs, -, hcall⟩ := Option.of_bind_ite hfire
    exact (server_recv_cb_quiet hs hno hno hcall).toClient
  · obtain ⟨server, hs, -, hcall⟩ := Option.of_bind_ite hfire
    exact (server_send_cb_quiet hs hno hcall).toClient
  · obtain ⟨server, -, -, hcall⟩ := Option.of_bind_ite hfire
    exact (resolv_cb_quiet hcall hno).toClient
  · obtain ⟨remote, -, -, hcall⟩ := Option.of_bind_ite hfire
    exact remote_recv_cb_grows hcall
  · obtain ⟨remote, -, -, hcall⟩ := Option.of_bind_ite hfire
    cases hs : c.server with
    | none =>
      simp only [remote_send_cb, hs] at hcall
      cases hcall
      exact List.prefix_rfl
    | some server => exact (remote_send_cb_quiet hs hno hcall).toClient
  · obtain ⟨server, -, hcall⟩ := Option.map_eq_some_iff.1 hfire
    rw [← Except.ok.inj hcall]
    exact List.prefix_rfl
  · rw [← Except.ok.inj (Option.some.inj hfire)]

/-! ### Runs -/

structure Answered.Inv (sends : Bytes → Bytes → Ctx → Prop) (a : Answered Ctx G) : Prop where
  encoded : ∃ ctx, sends a.answered a.observed.conn.encrypted ctx
  server : ∀ server, a.observed.conn.server = some server →
    sends a.answered a.observed.conn.encrypted server.e_ctx ∧ SOCKET_BUF_SIZE ≤ server.buf.capacity

variable {a a' : Answered Ctx G}

theorem Answered.Inv.quiet (h : a.Inv sends) (hs : a.observed.conn.server = some server)
    (hquiet : a.observed.conn.Quiet server.e_ctx True a'.observed.conn) (hans : a'.answered = a.answered) :
    a'.Inv sends := by
  refine ⟨?_, fun server' hs' => ?_⟩
  · rw [hans, hquiet.encrypted]
    exact h.encoded
  · obtain ⟨hctx, hroom⟩ := hquiet.server server' hs'
    rw [hans, hquiet.encrypted, hctx]
    exact ⟨(h.server server hs).1, hroom trivial⟩

theorem Answered.Inv.close (h : a.Inv sends) (hs : a'.observed.conn.server = none)
    (henc : a'.observed.conn.encrypted = a.observed.conn.encrypted) (hans : a'.answered = a.answered) :
    a'.Inv sends := by
  refine ⟨?_, ?_⟩
  · rw [hans, henc]
    exact h.encoded
  · rw [hs]
    exact nofun

variable {fresh : Ctx → G → Prop} {d : Ctx} {wire plain : Bytes} {D : Bytes → Bytes} {R : Bytes → G → Ctx → Prop}

theorem Answered.Inv.server_recv (hdec : Decodes K wire plain D fresh R) (hold : a.observed.Inv N D R) (h : a.Inv sends)
    (hpre : a.observed.segs.flatten ++ bs <+: wire) {junk : Block} {t : Connect}
    (hfire : a.observed.conn.fire K N (.serverRecv junk (.data bs) s t) = some (.ok a'.observed.conn))
    (hans : a'.answered = a.answered) : a'.Inv sends := by
  obtain ⟨server, hs, hio, -⟩ := Option.of_bind_ite hfire
  rw [Bool.and_eq_true] at hio
  have hroom := (h.server server hs).2
  refine h.quiet hs ?_ hans
  rcases hold.progress with ⟨-, hw⟩ | @⟨first, rest, q, -, -, -, -, -, hcarries, hrefused⟩
  · obtain ⟨hstage, hrecv, hroom, hR⟩ := hw.server server hs
    obtain ⟨ret, b, d_ctx, g, out, -, -, -, hb, hcall, -⟩ :=
      fire_init (N := N) hdec hs hstage hrecv hroom hR hio.2 hpre junk s t
    rw [hfire, Option.some.injEq] at hcall
    have hquiet := serverRecvInit_quiet hcall.symm fun _ : True => hb.room
    exact ⟨hquiet.encrypted, hquiet.toClient, hquiet.server⟩
  cases ho : q.offset? with
  | none =>
    obtain ⟨hstage, hrecv, -⟩ := (hrefused ho).server server hs
    obtain ⟨buf, hroom', hcall, -⟩ := fire_stop (K := K) (N := N) hs hstage hrecv hroom hio.2 junk s t
    rw [hfire, Option.some.injEq] at hcall
    rw [Except.ok.inj hcall]
    exact .opened rfl List.prefix_rfl rfl rfl fun _ => hroom'
  | some offset =>
    have hc := hcarries offset ho
    obtain ⟨hstage, remote, hr⟩ := hc.streams hold.relay hs hio.1
    obtain ⟨ret, b, d_ctx, g, out, -, -, -, -, hcall, -⟩ := fire_stream (N := N) hdec hs hr hstage hio.1
      (hc.remote remote hr) (hc.server server hs).2.2 hio.2 hpre junk s t
    rw [hfire, Option.some.injEq] at hcall
    have hquiet := serverRecvStream_quiet hcall.symm fun _ : True => hroom
    exact ⟨hquiet.encrypted, hquiet.toClient, hquiet.server⟩

/-- Before a segment of the client has failed to decrypt, `remote_recv_cb` passes on what it reads. -/
theorem Conn.Inv.streams (h : c.Inv) (hf : c.failed = false) (hs : c.server = some server)
    (hr : c.remote = some remote) : server.stage ≠ .STOP := by
  intro hstage
  obtain ⟨-, hok, -⟩ := (h.server server hs).2.2.of_stop hstage
  rw [(hok hf).2.2.1] at hr
  cases hr

theorem Answered.Inv.step (hdec : Decodes K wire plain D fresh R) (hK : Encodes K fresh₁ d₁ Counts [] Whole sends)
    (hold : a.observed.Inv N D R) (h : a.Inv sends) {e : RelayEvent G}
    (hstep : (answering K N fresh e_ctx d).step a e a') (hpre : a'.observed.segs.flatten <+: wire)
    (hcount : ∀ n ≤ a'.answered.length, Counts n) : a'.Inv sends := by
  obtain ⟨⟨hfire, -, hsegs, -⟩, hans⟩ := hstep
  have hsame : a.observed.conn.answers e = [] → a'.answered = a.answered := by
    intro hnil
    rw [hans, hnil, List.append_nil]
  rcases e with ⟨junk, r, s, t⟩ | s | ⟨junk, addr, t⟩ | ⟨r, s⟩ | ⟨connected, s⟩ | _ | g
  · rcases r with bs | _ | _ | _
    · refine h.server_recv hdec hold ?_ hfire (hsame rfl)
      rw [hsegs, RelayEvent.segs, flatten_snoc] at hpre
      exact hpre
    all_goals
      obtain ⟨server, hs, -, hcall⟩ := Option.of_bind_ite hfire
      refine h.quiet hs ?_ (hsame rfl)
      exact server_recv_cb_quiet hs (fun _ => (h.server server hs).2) (fun _ _ hr => by cases hr) hcall
  · obtain ⟨server, hs, -, hcall⟩ := Option.of_bind_ite hfire
    exact h.quiet hs (server_send_cb_quiet hs (fun _ => (h.server server hs).2) hcall) (hsame rfl)
  · obtain ⟨server, hs, -, hcall⟩ := Option.of_bind_ite hfire
    exact h.quiet hs (resolv_cb_quiet hcall fun _ => (h.server server hs).2) (hsame rfl)
  · obtain ⟨remote, hr, hio, hcall⟩ := Option.of_bind_ite hfire
    rw [Bool.and_eq_true] at hio
    cases hs : a.observed.conn.server with
    | none =>
      simp only [remote_recv_cb, hs] at hcall
      refine h.close ?_ ?_ (hsame ?_)
      · rw [← Except.ok.inj hcall]
        exact hs
      · rw [← Except.ok.inj hcall]
        rfl
      · cases r <;> simp [Conn.answers, hs]
    | some server =>
      obtain ⟨hsends, hroom⟩ := h.server server hs
      rcases r with bs | _ | _ | _
      · have hst := hold.relay.streams hold.progress.failed hs hr
        have hread : a'.answered = a.answered ++ bs := by
          rw [hans, Conn.answers, hs, Option.any_some, if_pos (by simpa using hst)]
        obtain ⟨ctx, hsends', hserver⟩ := remote_recv_cb_answers hK hs hroom hst hio.2 hsends
          (hcount _ (by rw [hread, List.length_append])) hcall
        refine ⟨⟨ctx, hread ▸ hsends'⟩, fun server' hs' => ?_⟩
        obtain ⟨hctx, hroom'⟩ := hserver server' hs'
        exact ⟨hctx ▸ hread ▸ hsends', hroom'⟩
      all_goals
        simp only [remote_recv_cb, hs] at hcall
      · exact h.close (by rw [← Except.ok.inj hcall]; rfl) (by rw [← Except.ok.inj hcall]; rfl) (hsame rfl)
      · refine h.quiet hs ?_ (hsame rfl)
        rw [← Except.ok.inj hcall]
        exact .opened rfl List.prefix_rfl hs rfl fun _ => hroom
      · exact h.close (by rw [← Except.ok.inj hcall]; rfl) (by rw [← Except.ok.inj hcall]; rfl) (hsame rfl)
  · obtain ⟨remote, hr, -, hcall⟩ := Option.of_bind_ite hfire
    cases hs : a.observed.conn.server with
    | none =>
      simp only [remote_send_cb, hs] at hcall
      refine h.close ?_ ?_ (hsame rfl)
      · rw [← Except.ok.inj hcall]
        exact hs
      · rw [← Except.ok.inj hcall]
        rfl
    | some server => exact h.quiet hs (remote_send_cb_quiet hs (fun _ => (h.server server hs).2) hcall) (hsame rfl)
  · obtain ⟨server, -, hcall⟩ := Option.map_eq_some_iff.1 hfire
    exact h.close (by rw [← Except.ok.inj hcall]; rfl) (by rw [← Except.ok.inj hcall]; rfl) (hsame rfl)
  · have hconn := Except.ok.inj (Option.some.inj hfire)
    cases hs : a.observed.conn.server with
    | none => exact h.close (by rw [← hconn]; exact hs) (by rw [← hconn]) (hsame rfl)
    | some server =>
      refine h.quiet hs ?_ (hsame rfl)
      rw [← hconn]
      exact .opened rfl List.prefix_rfl hs rfl fun _ => (h.server server hs).2

theorem Answered.Inv.of_reach (hdec : Decodes K wire plain D fresh R) (hnil : D [] = [])
    (hinit : ∀ g, fresh d g → R [] g d) (hK : Encodes K fresh₁ d₁ Counts [] Whole sends) (hstart : sends [] [] e_ctx)
    (h : (answering K N fresh e_ctx d).Reach a) (hpre : a.observed.segs.flatten <+: wire)
    (hcount : ∀ n ≤ a.answered.length, Counts n) : a.Inv sends := by
  induction h with
  | init h =>
    obtain ⟨g, junk, -, rfl⟩ := h
    refine ⟨⟨e_ctx, hstart⟩, ?_⟩
    rintro _ ⟨⟩
    exact ⟨hstart, Nat.le_refl _⟩
  | @step a a' e hreach hstep ih =>
    have hsegs : a.observed.segs.flatten <+: a'.observed.segs.flatten := by
      rw [hstep.1.2.2.1]
      exact (List.prefix_append _ _).flatten
    have hle : a.answered.length ≤ a'.answered.length := by
      rw [hstep.2, List.length_append]
      exact Nat.le_add_right _ _
    have hold := Observed.Inv.of_reach hdec hnil hinit (observed_of_answering hreach) (hsegs.trans hpre)
    exact (ih (hsegs.trans hpre) fun n hn => hcount n (hn.trans hle)).step hdec hK hold hstep hpre hcount

end

end OutlineServer
