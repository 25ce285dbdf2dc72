import OutlineServer.LocalInv
import OutlineServer.Segmentation

/-!
# Runs of ss-local

However the client's stream is cut, the handshake answers as soon as a message is complete, and what `remote` has
accepted decrypts to a part of the address and the payload that have arrived.
-/

namespace OutlineServer.Local

section
variable {Ctx G : Type} {q : ClientStream} {A : Option AclT} {sends : Bytes → Bytes → Ctx → Prop} {c c' : Conn Ctx G}
  {server : ServerT Ctx} {remote : RemoteT} {K : CryptoT Ctx G} {fresh : Ctx → G → Prop}
  {Whole : List Bytes → Prop} {d_ctx : Ctx} {Counts : Nat → Prop}

/-! ### The loop of `server_recv_cb` -/

theorem handshakeRounds_ends (hK : Encodes K fresh d_ctx Counts q.address Whole sends)
    (hcount : ∀ n ≤ (q.address ++ q.payload).length, Counts n) (h : Selected q sends c server) (A : Option AclT)
    (hio : HandshakeIo) (io : StreamIo) :
    Ends q A sends (hio.Good ∧ io.Good) (handshakeRounds K A c server hio io) := by
  obtain ⟨r, hcall, hnext⟩ := server_handshake_next hK hcount h A hio
  rw [handshakeRounds, hcall, C.ok_bind]
  cases hnext with
  | done h ho => exact ⟨_, rfl, h, fun hgood => ho hgood.1⟩
  | more hs hr hdel hconn ht h =>
    simp only [hs]
    refine (server_stream_ends hK hcount h hr hdel ?_ ht io).mono And.right
    rw [hconn]
    exact nofun

/-- The method selection is read, in `STAGE_INIT`. -/
structure Greeted (q : ClientStream) (sends : Bytes → Bytes → Ctx → Prop) (c : Conn Ctx G) (server : ServerT Ctx) : Prop
    extends Unsent sends c server where
  received : c.received <+: q.bytes
  replies : c.replies = []
  stage : server.stage = .INIT
  bytes : server.buf.bytes = c.received

theorem Greeted.wait (h : Greeted q sends c server) (hlt : server.buf.len < q.select.length) :
    Inv q A sends { c with server := some server } := by
  have hlen : c.received.length = server.buf.len := by rw [← h.bytes, Buffer.length_bytes]
  have hrep : c.replies = q.answers c.received.length := by
    rw [h.replies, ClientStream.answers_none (by omega)]
  have hpast := h.past (A := A) h.received hrep
  refine ⟨⟨⟨hpast.received, hpast.replies, hpast.bypassed⟩, hpast.uploaded⟩, ?_, nofun⟩
  rintro _ ⟨⟩
  exact .init h.stage h.bytes (by simp only; omega)
    ⟨h.remote, h.toRemote, h.direct, h.sends, h.room, h.fits, h.abuf, h.recv_io, h.delayed⟩

/-- The rest of the buffer is for `server_handshake`, now or when it is complete. -/
theorem Greeted.selected (h : Greeted q sends c server) (hle : q.select.length ≤ server.buf.len) {buf : Buffer}
    (hbytes : buf.bytes = server.buf.bytes.drop q.select.length) (hcap : buf.capacity = server.buf.capacity) :
    Selected q sends { c.reply [SVERSION, METHOD_NOAUTH] with server := some { server with stage := .HANDSHAKE, buf } }
      { server with stage := .HANDSHAKE, buf } := by
  have hlen : buf.len = server.buf.len - q.select.length := by
    rw [← buf.length_bytes, hbytes, List.length_drop, Buffer.length_bytes]
  have hfits := h.fits
  refine ⟨⟨h.remote, h.toRemote, h.direct, h.sends, hcap ▸ h.room, by simp only; omega, h.abuf, h.recv_io, h.delayed⟩,
    h.received, ?_, rfl, ?_⟩
  · simp only [Conn.reply, h.replies, List.nil_append]
  · have hsplit := List.take_append_drop q.select.length c.received
    have htake : c.received.take q.select.length = q.select := by
      have hpre : q.select <+: c.received := by
        refine List.prefix_of_prefix_length_le (List.prefix_append _ _) h.received ?_
        rw [← h.bytes, Buffer.length_bytes]
        exact hle
      exact (List.prefix_iff_eq_take.1 hpre).symm
    rw [htake] at hsplit
    simp only [Conn.reply, hbytes, h.bytes]
    exact hsplit.symm

theorem serverInit_spec (h : Greeted q sends c server) :
    ∃ c' server' more, serverInit c server = .ok (c', server', more) ∧
      (more = false ∧ Inv q A sends c' ∧ c'.server ≠ none ∨ more = true ∧ Selected q sends c' server') := by
  have hsel := q.length_select
  have hreq := q.length_request
  have hcap : server.buf.len ≤ server.buf.capacity := h.fits.trans h.room
  have hb : server.buf.bytes <+: [SVERSION, UInt8.ofNat q.methods.length] ++
    (q.methods ++ (q.request ++ q.payload)) := by
    rw [h.bytes, ← List.append_assoc]
    exact h.received
  have hn : (UInt8.ofNat q.methods.length).toNat = q.methods.length := by
    rw [UInt8.toNat_ofNat', Nat.mod_eq_of_lt q.methods_lt]
  rw [serverInit]
  simp only
  by_cases h1 : server.buf.len < 1
  · rw [if_pos h1]
    exact ⟨_, _, _, rfl, .inl ⟨rfl, h.wait (by omega), nofun⟩⟩
  have hver : server.buf.byte 0 = .ok SVERSION := byte_of_prefix hb hcap (by omega) rfl
  rw [if_neg h1, hver, C.ok_bind, if_neg (by simp)]
  by_cases h2 : server.buf.len < 2
  · rw [if_pos h2]
    exact ⟨_, _, _, rfl, .inl ⟨rfl, h.wait (by omega), nofun⟩⟩
  have hnm : server.buf.byte 1 = .ok (UInt8.ofNat q.methods.length) := byte_of_prefix hb hcap (by omega) rfl
  rw [if_neg h2, hnm, C.ok_bind, hn]
  by_cases hlt : server.buf.len < q.methods.length + 2
  · rw [if_pos hlt]
    exact ⟨_, _, _, rfl, .inl ⟨rfl, h.wait (by omega), nofun⟩⟩
  have hget := get_of_prefix hb hcap (by simp only [List.length_cons, List.length_nil]; omega) 0 q.methods.length
    (by omega)
  rw [List.drop_zero, List.take_length] at hget
  have hget' : server.buf.get 2 q.methods.length = .ok q.methods := hget
  have hacc : METHOD_NOAUTH ≠ METHOD_UNACCEPTABLE := by decide
  rw [if_neg hlt, hget', C.ok_bind, if_pos q.noauth, if_neg hacc]
  by_cases hrest : q.methods.length + 2 < server.buf.len
  · obtain ⟨buf, hshift, hbytes, -, hbufcap⟩ :=
      Buffer.shift_ok (b := server.buf) (n := q.methods.length + 2) (by omega) hcap
    rw [if_pos hrest, hshift, C.ok_bind]
    refine ⟨_, _, _, rfl, .inr ⟨rfl, h.selected (by omega) ?_ hbufcap⟩⟩
    rw [hbytes, hsel, Nat.add_comm]
  · rw [if_neg hrest]
    have hnone : ({ server.buf with len := 0 } : Buffer).bytes = server.buf.bytes.drop q.select.length := by
      rw [List.drop_of_length_le (by rw [Buffer.length_bytes]; omega)]
      rfl
    refine ⟨_, _, _, rfl, .inl ⟨rfl, (h.selected (by omega) hnone rfl).wait ?_, nofun⟩⟩
    simp only
    omega

/-! ### The callbacks -/

theorem ClientStream.plain_append {received : Bytes} (h : q.select.length + q.request.length ≤ received.length)
    (direct : Bool) (bs : Bytes) : q.plain direct (received ++ bs) = q.plain direct received ++ bs := by
  simp only [plain, body, List.drop_append_of_le_length h]
  split
  · rfl
  · exact (List.append_assoc _ _ _).symm

theorem Inv.closeBoth (h : Inv q A sends c) : Inv q A sends c.closeBoth := h.toPast.closeBoth

/-- `server->buf` is not used any more once there is `remote`, and the timer can be stopped. -/
theorem Phase.keep (h : Phase q sends c server) (g : G) {buf : Buffer} {delayed_connect : Bool}
    (hbuf : c.remote = none → buf = server.buf) (hdel : delayed_connect = true → server.delayed_connect = true) :
    Phase q sends { c with g, server := some { server with buf, delayed_connect } }
      { server with buf, delayed_connect } := by
  have hstopped : server.delayed_connect = false → delayed_connect = false := by
    intro hfalse
    rw [hfalse] at hdel
    exact Bool.eq_false_iff.2 fun htrue => Bool.false_ne_true (hdel htrue)
  cases h with
  | init hst hbytes hlt h =>
    obtain rfl := hbuf h.remote
    exact .init hst hbytes hlt
      ⟨h.remote, h.toRemote, h.direct, h.sends, h.room, h.fits, h.abuf, h.recv_io, hstopped h.delayed⟩
  | handshake hst hbytes hlt h =>
    obtain rfl := hbuf h.remote
    exact .handshake hst hbytes hlt
      ⟨h.remote, h.toRemote, h.direct, h.sends, h.room, h.fits, h.abuf, h.recv_io, hstopped h.delayed⟩
  | listening remote hr hlen h =>
    exact .listening remote hr hlen ⟨⟨h.stage, h.direct, h.arrived, h.room, h.abuf⟩, h.recv_io, h.send_io,
      fun htrue => h.delayed (hdel htrue), h.fits, h.carries⟩
  | sending remote hr h =>
    exact .sending remote hr ⟨⟨h.stage, h.direct, h.arrived, h.room, h.abuf⟩, h.recv_io, h.send_io, hstopped h.delayed,
      h.busy, h.fits, h.header, h.carries⟩

theorem Inv.keep (h : Inv q A sends c) (hs : c.server = some server) (g : G) {buf : Buffer} {delayed_connect : Bool}
    (hbuf : c.remote = none → buf = server.buf) (hdel : delayed_connect = true → server.delayed_connect = true) :
    Inv q A sends { c with g, server := some { server with buf, delayed_connect } } := by
  refine ⟨⟨⟨h.received, h.replies, h.bypassed⟩, h.uploaded⟩, ?_, nofun⟩
  rintro _ ⟨⟩
  exact (h.server server hs).keep g hbuf hdel

theorem server_recv_cb_buf {bs : Bytes} {buf : Buffer} (hr : c.remote = none) (happ : server.buf.append bs = .ok buf)
    (A : Option AclT) (hio : HandshakeIo) (io : StreamIo) :
    server_recv_cb K A c server (some (.data bs)) hio io =
      serverRounds K A { c with received := c.received ++ bs }
        { server with delayed_connect := false, buf } hio io := by
  simp only [server_recv_cb, hr, happ, C.ok_bind]

theorem server_recv_cb_remote_buf {bs : Bytes} {buf : Buffer} (hr : c.remote = some remote)
    (happ : remote.buf.append bs = .ok buf) (A : Option AclT) (hio : HandshakeIo) (io : StreamIo) :
    server_recv_cb K A c server (some (.data bs)) hio io =
      serverRounds K A { c with received := c.received ++ bs, remote := some { remote with buf } }
        { server with delayed_connect := false } hio io := by
  simp only [server_recv_cb, hr, happ, C.ok_bind]

/-- The loop, by the stage that it starts in. -/
theorem serverRounds_eq (A : Option AclT) (hio : HandshakeIo) (io : StreamIo) :
    (server.stage = .STREAM → serverRounds K A c server hio io = server_stream K c server io) ∧
      (server.stage = .HANDSHAKE → serverRounds K A c server hio io = handshakeRounds K A c server hio io) ∧
        (server.stage = .INIT → ∀ {c' server' more}, serverInit c server = .ok (c', server', more) →
          serverRounds K A c server hio io = if more then handshakeRounds K A c' server' hio io else .ok c') := by
  refine ⟨?_, ?_, ?_⟩
  · intro hst
    simp only [serverRounds, hst]
  · intro hst
    simp only [serverRounds, hst]
  · intro hst c' server' more hcall
    simp only [serverRounds, hst, hcall, C.ok_bind]
    rfl

theorem server_recv_cb_data_ends (hK : Encodes K fresh d_ctx Counts q.address Whole sends)
    (hcount : ∀ n ≤ (q.address ++ q.payload).length, Counts n) (h : Inv q A sends c) (hs : c.server = some server)
    (hrecv : server.recv_io = true) {bs : Bytes} (hcan : c.canRecv server (.data bs) = true)
    (hdata : c.received ++ bs <+: q.bytes) (hio : HandshakeIo) (io : StreamIo) :
    Ends q A sends (hio.Good ∧ io.Good) (server_recv_cb K A c server (some (.data bs)) hio io) := by
  simp only [Conn.canRecv, decide_eq_true_eq] at hcan
  obtain ⟨hne, hlen⟩ := hcan
  have hpos := List.length_pos_iff.2 hne
  obtain ⟨hst, hbuf, hlt, hu⟩ | ⟨hst, hbuf, hlt, hu⟩ | ⟨remote, hr, hempty, hready⟩ | ⟨remote, hr, hsending⟩ :=
    h.server server hs
  · rw [hu.remote, Option.elim_none] at hlen
    have hroom := hu.room
    obtain ⟨buf, happ, hbytes, hbuflen, hcap⟩ := Buffer.append_ok server.buf bs (by omega)
    have hgreeted : Greeted q sends { c with received := c.received ++ bs }
        { server with delayed_connect := false, buf } := by
      refine ⟨⟨hu.remote, hu.toRemote, hu.direct, hu.sends, hcap ▸ hu.room, ?_, hu.abuf, hu.recv_io, rfl⟩, hdata, ?_,
        hst, ?_⟩
      · simp only
        omega
      · exact h.replies.trans (ClientStream.answers_none hlt)
      · rw [hbytes, hbuf]
    obtain ⟨c₁, server₁, more, hcall, hround⟩ := serverInit_spec hgreeted
    rw [server_recv_cb_buf hu.remote happ, (serverRounds_eq A hio io).2.2 hgreeted.stage hcall]
    rcases hround with ⟨rfl, hinv, ho⟩ | ⟨rfl, hsel⟩
    · exact ⟨_, rfl, hinv, fun _ => ho⟩
    · exact handshakeRounds_ends hK hcount hsel A hio io
  · rw [hu.remote, Option.elim_none] at hlen
    have hroom := hu.room
    obtain ⟨buf, happ, hbytes, hbuflen, hcap⟩ := Buffer.append_ok server.buf bs (by omega)
    have hreclen := congrArg List.length hbuf
    rw [List.length_append, Buffer.length_bytes] at hreclen
    have hsel : Selected q sends { c with received := c.received ++ bs }
        { server with delayed_connect := false, buf } := by
      refine ⟨⟨hu.remote, hu.toRemote, hu.direct, hu.sends, hcap ▸ hu.room, ?_, hu.abuf, hu.recv_io, rfl⟩, hdata, ?_,
        hst, ?_⟩
      · simp only
        omega
      · simp only
        rw [h.replies, ClientStream.answers_selected (by omega) (by omega)]
      · simp only
        rw [hbytes, hbuf, List.append_assoc]
    rw [server_recv_cb_buf hu.remote happ, (serverRounds_eq A hio io).2.1 hsel.stage]
    exact handshakeRounds_ends hK hcount hsel A hio io
  · rw [hr, Option.elim_some] at hlen
    have hroom := hready.room
    have harr := hready.arrived
    obtain ⟨buf, happ, hbytes, hbuflen, hcap⟩ := Buffer.append_ok remote.buf bs (by omega)
    obtain ⟨plain, hplain, hcar⟩ := hready.carries
    have hnil : remote.buf.bytes = [] := List.length_eq_zero_iff.1 (remote.buf.length_bytes.trans hempty)
    rw [hnil, List.append_nil] at hplain
    have hready' : Ready q sends { c with received := c.received ++ bs, remote := some { remote with buf } }
        { server with delayed_connect := false } { remote with buf } := by
      refine ⟨⟨hready.stage, hready.direct, ?_, hcap ▸ hready.room, hready.abuf⟩, hready.recv_io, hready.send_io,
        nofun, ?_, plain, ?_, hcar⟩
      · simp only [List.length_append]
        omega
      · simp only
        omega
      · rw [hbytes, hnil, List.nil_append, ClientStream.plain_append harr, hplain]
    have hrep : c.replies = q.answers (c.received ++ bs).length := by
      rw [h.replies, ClientStream.answers_all harr, ClientStream.answers_all (by rw [List.length_append]; omega)]
    rw [server_recv_cb_remote_buf hr happ, (serverRounds_eq A hio io).1 hready'.stage]
    have hbusy : remote.connected = true → 0 < buf.len := fun _ => by omega
    exact (server_stream_ends hK hcount hready' rfl rfl hbusy ⟨hdata, hrep, h.bypassed⟩ io).mono And.right
  · rw [hsending.recv_io] at hrecv
    cases hrecv

/-- The address is sent without payload. -/
theorem server_recv_cb_timer_ends (hK : Encodes K fresh d_ctx Counts q.address Whole sends)
    (hcount : ∀ n ≤ (q.address ++ q.payload).length, Counts n) (h : Inv q A sends c) (hs : c.server = some server)
    (hdel : server.delayed_connect = true) (hio : HandshakeIo) (io : StreamIo) :
    Ends q A sends (hio.Good ∧ io.Good) (server_recv_cb K A c server none hio io) := by
  obtain ⟨hst, hbuf, hlt, hu⟩ | ⟨hst, hbuf, hlt, hu⟩ | ⟨remote, hr, hempty, hready⟩ | ⟨remote, hr, hsending⟩ :=
    h.server server hs
  · rw [hu.delayed] at hdel
    cases hdel
  · rw [hu.delayed] at hdel
    cases hdel
  · have hready' : Ready q sends c { server with delayed_connect := false } remote :=
      ⟨⟨hready.stage, hready.direct, hready.arrived, hready.room, hready.abuf⟩, hready.recv_io, hready.send_io, nofun,
        hready.fits, hready.carries⟩
    rw [server_recv_cb, (serverRounds_eq A hio io).1 hready'.stage]
    refine (server_stream_ends hK hcount hready' hr rfl ?_ h.toTold io).mono And.right
    rw [hready.delayed hdel]
    exact nofun
  · rw [hsending.delayed] at hdel
    cases hdel

theorem server_recv_cb_ends (hK : Encodes K fresh d_ctx Counts q.address Whole sends)
    (hcount : ∀ n ≤ (q.address ++ q.payload).length, Counts n) (h : Inv q A sends c) (hs : c.server = some server)
    (hrecv : server.recv_io = true) {r : Recv} (hcan : c.canRecv server r = true) {hio : HandshakeIo} {io : StreamIo}
    (hdata : c.received ++ (Event.serverRecv (G := G) r hio io).data <+: q.bytes) :
    Ends q A sends (Event.serverRecv (G := G) r hio io).Good (server_recv_cb K A c server (some r) hio io) := by
  cases r with
  | data bs =>
    exact (server_recv_cb_data_ends hK hcount h hs hrecv hcan hdata hio io).mono fun hgood => hgood.2.2
  | again => exact ⟨_, rfl, h.keep hs c.g (fun _ => rfl) nofun, fun _ => nofun⟩
  | eof => exact ⟨_, rfl, h.closeBoth, fun hgood => absurd rfl hgood.1⟩
  | error => exact ⟨_, rfl, h.closeBoth, fun hgood => absurd rfl hgood.2.1⟩

/-- `remote` takes some of what is on the way, or all of it. -/
theorem remoteSendData_ends (h : Sending q sends c server remote) (hpos : 0 < remote.buf.len) (ht : Told q A c)
    (hs : c.server = some server) (s : Send) : Ends q A sends (s ≠ .error) (remoteSendData c server remote s) := by
  have hfits := h.fits
  have hpast : Past q A sends c := ⟨ht, ⟨_, _, _, h.carries, List.prefix_append _ _, List.prefix_rfl⟩⟩
  have hopen : c.server ≠ none := by
    rw [hs]
    exact nofun
  unfold remoteSendData
  rw [if_neg (by omega)]
  split
  · exact ⟨_, rfl, hpast.closeBoth, fun hgood => absurd rfl hgood⟩
  · refine ⟨_, rfl, ⟨⟨⟨ht.received, ht.replies, ht.bypassed⟩, hpast.uploaded⟩, ?_, fun hs' => absurd hs' hopen⟩,
      fun _ => hopen⟩
    intro server' hs'
    obtain rfl : server = server' := Option.some.inj (hs.symm.trans hs')
    exact .sending remote rfl ⟨⟨h.stage, h.direct, h.arrived, h.room, h.abuf⟩, h.recv_io, h.send_io, h.delayed, h.busy,
      h.fits, h.header, h.carries⟩
  · rename_i n
    split
    · rename_i hlt
      rw [sendRemote_ok (by omega), C.ok_bind]
      have hcar := h.carries
      rw [remote.buf.pending_eq_append (Nat.le_of_lt hlt), ← List.append_assoc] at hcar
      refine ⟨_, rfl, ⟨⟨⟨ht.received, ht.replies, ht.bypassed⟩, ⟨_, _, _, hcar, List.prefix_append _ _,
        List.prefix_rfl⟩⟩, ?_,
        fun hs' => absurd hs' hopen⟩, fun _ => hopen⟩
      intro server' hs'
      obtain rfl : server = server' := Option.some.inj (hs.symm.trans hs')
      refine .sending _ rfl ⟨⟨h.stage, h.direct, h.arrived, h.room, h.abuf⟩, h.recv_io, h.send_io, h.delayed,
        fun _ => Nat.sub_pos_of_lt hlt, ?_, h.header, hcar⟩
      simp only
      omega
    · rw [sendRemote_ok (by omega), C.ok_bind]
      have hcar := h.carries
      refine ⟨_, rfl, ⟨⟨⟨ht.received, ht.replies, ht.bypassed⟩, ⟨_, _, _, hcar, List.prefix_rfl, List.prefix_rfl⟩⟩,
        ?_, nofun⟩,
        fun _ => nofun⟩
      rintro _ ⟨⟩
      refine .listening _ rfl rfl ⟨⟨h.stage, h.direct, h.arrived, h.room, h.abuf⟩, rfl, rfl, ?_, Nat.zero_le _, _,
        List.append_nil _, ?_⟩
      · rw [h.delayed]
        exact nofun
      · have hheader : ServerT.header { server with recv_io := true } c.direct = [] := h.header
        simp only at hheader ⊢
        rw [hheader, List.append_nil]
        exact hcar

/-- Fast open has sent it all. -/
theorem Sending.listen (h : Sending q sends c server remote) (hempty : remote.buf.len = 0) (ht : Told q A c) :
    Inv q A sends { c with
      server := some { server with recv_io := true }
      remote := some { remote with connected := true, send_io := false } } := by
  have hbytes : remote.buf.bytes = [] := List.length_eq_zero_iff.1 (remote.buf.length_bytes.trans hempty)
  have hpending : remote.buf.pending = [] := List.length_eq_zero_iff.1 (remote.buf.length_pending.trans hempty)
  have hcar := h.carries
  rw [hpending] at hcar
  refine ⟨⟨⟨ht.received, ht.replies, ht.bypassed⟩, ⟨_, _, _, hcar, List.prefix_append _ _, List.prefix_rfl⟩⟩, ?_, nofun⟩
  rintro _ ⟨⟩
  refine .listening _ rfl hempty ⟨⟨h.stage, h.direct, h.arrived, h.room, h.abuf⟩, rfl, rfl, ?_, ?_,
    q.plain c.direct c.received, ?_, ?_⟩
  · rw [h.delayed]
    exact nofun
  · simp only
    omega
  · simp only [hbytes, List.append_nil]
  · have hheader : ServerT.header { server with recv_io := true } c.direct = [] := h.header
    simp only at hheader ⊢
    rw [hheader]
    exact hcar

theorem remote_send_cb_ends (h : Inv q A sends c) (hr : c.remote = some remote) (hsend : remote.send_io = true)
    (connected : Bool) (s : Send) :
    Ends q A sends (connected = true ∧ s ≠ .error) (remote_send_cb c remote connected s) := by
  rw [remote_send_cb]
  cases hs : c.server with
  | none =>
    rw [h.closed hs] at hr
    cases hr
  | some server =>
    simp only
    have hsending : Sending q sends c server remote := by
      obtain ⟨-, -, -, hu⟩ | ⟨-, -, -, hu⟩ | ⟨remote', hr', -, hready⟩ | ⟨remote', hr', hsending⟩ := h.server server hs
      · rw [hu.remote] at hr
        cases hr
      · rw [hu.remote] at hr
        cases hr
      · rw [hr] at hr'
        cases hr'
        rw [hready.send_io] at hsend
        cases hsend
      · rw [hr] at hr'
        cases hr'
        exact hsending
    split
    · rename_i hconn
      exact (remoteSendData_ends hsending (hsending.busy hconn) h.toTold hs s).mono And.right
    · split
      · split
        · rename_i hempty
          exact ⟨_, rfl, hsending.listen hempty h.toTold, fun _ => nofun⟩
        · rename_i hne
          have hpos := Nat.pos_of_ne_zero hne
          have hconn : Sending q sends c server { remote with connected := true } :=
            ⟨⟨hsending.stage, hsending.direct, hsending.arrived, hsending.room, hsending.abuf⟩, hsending.recv_io,
              hsending.send_io, hsending.delayed, fun _ => hpos, hsending.fits, hsending.header, hsending.carries⟩
          exact (remoteSendData_ends hconn hpos h.toTold hs s).mono And.right
      · rename_i hfail
        exact ⟨_, rfl, h.closeBoth, fun hgood => absurd hgood.1 hfail⟩

/-- Every callback ends and keeps the invariant, and the connection, if no system call fails. -/
theorem Inv.fire (hK : Encodes K fresh d_ctx Counts q.address Whole sends)
    (hcount : ∀ n ≤ (q.address ++ q.payload).length, Counts n)
    (h : Inv q A sends c) {e : Event G} (hdata : c.received ++ e.data <+: q.bytes) {x : C (Conn Ctx G)}
    (hfire : c.fire K A e = some x) : Ends q A sends (e.Good ∧ c.server ≠ none) x := by
  cases e with
  | serverRecv r hio io =>
    obtain ⟨server, hs, hfire⟩ := Option.bind_eq_some_iff.1 hfire
    split at hfire
    · rename_i hen
      rw [Bool.and_eq_true] at hen
      cases hfire
      exact (server_recv_cb_ends hK hcount h hs hen.1 hen.2 hdata).mono And.left
    · cases hfire
  | delayedConnect hio io =>
    obtain ⟨server, hs, hfire⟩ := Option.bind_eq_some_iff.1 hfire
    split at hfire
    · rename_i hdel
      cases hfire
      exact (server_recv_cb_timer_ends hK hcount h hs hdel hio io).mono And.left
    · cases hfire
  | remoteSend connected s =>
    obtain ⟨remote, hr, hfire⟩ := Option.bind_eq_some_iff.1 hfire
    split at hfire
    · rename_i hsend
      cases hfire
      exact (remote_send_cb_ends h hr hsend connected s).mono And.left
    · cases hfire
  | download buf =>
    obtain ⟨server, hs, hfire⟩ := Option.bind_eq_some_iff.1 hfire
    split at hfire
    · rename_i hconn
      cases hfire
      refine ⟨_, rfl, h.keep hs c.g ?_ id, fun _ => nofun⟩
      intro hr
      rw [hr] at hconn
      cases hconn
    · cases hfire
  | close =>
    cases hfire
    exact ⟨_, rfl, h.closeBoth, fun hgood => hgood.1.elim⟩
  | other g =>
    cases hfire
    cases hs : c.server with
    | none =>
      exact ⟨_, rfl, ⟨⟨⟨h.received, h.replies, h.bypassed⟩, h.uploaded⟩, nofun, fun _ => h.closed hs⟩,
        fun hgood => hgood.2⟩
    | some server => exact ⟨_, rfl, h.keep hs g (fun _ => rfl) id, fun hgood => hgood.2⟩

theorem acceptedConn_inv {e_ctx : Ctx} (h : sends [] [] e_ctx) (g : G) (junk junk' : Block) :
    Inv q A sends (acceptedConn g junk junk' e_ctx) := by
  have hsel : 0 < q.select.length := by
    rw [q.length_select]
    omega
  refine ⟨⟨⟨List.nil_prefix, (ClientStream.answers_none hsel).symm, nofun⟩, [], [], e_ctx, h, List.prefix_rfl,
    List.nil_prefix⟩, ?_, nofun⟩
  rintro _ ⟨⟩
  exact .init rfl rfl hsel ⟨rfl, rfl, rfl, h, Nat.le_refl _, Nat.zero_le _, ⟨_, rfl, Nat.le_refl _, Nat.zero_le _⟩,
    rfl, rfl⟩

theorem Inv.of_reach (hK : Encodes K fresh d_ctx Counts q.address Whole sends)
    (hcount : ∀ n ≤ (q.address ++ q.payload).length, Counts n)
    {e_ctx : Ctx} (hinit : sends [] [] e_ctx) (h : (client K A e_ctx q.bytes).Reach c) : Inv q A sends c := by
  refine h.invariant ?_ ?_
  · rintro c ⟨g, junk, junk', rfl⟩
    exact acceptedConn_inv hinit g junk junk'
  · rintro c e c' - hinv ⟨hdata, hfire⟩
    obtain ⟨c₁, hok, hinv', -⟩ := hinv.fire hK hcount hdata hfire
    cases hok
    exact hinv'

/-! ### Segmentation -/

/-- All that has been read has been passed on: the next segment is waited for. -/
def Conn.Idle (c : Conn Ctx G) : Prop :=
  ∃ server, c.server = some server ∧ server.stage = .STREAM ∧ server.recv_io = true ∧ server.abuf = none

/-- In every run with the stream of `q`, whatever its cuts and the results of the system calls. -/
structure Serves (K : CryptoT Ctx G) (A : Option AclT) (fresh : Ctx → G → Prop) (e_ctx d_ctx : Ctx) (q : ClientStream) :
    Prop where
  /-- Every callback ends. -/
  defined : ∀ c, (client K A e_ctx q.bytes).Reach c → ∀ e x, c.received ++ e.data <+: q.bytes → c.fire K A e = some x →
    ∃ c', x = .ok c'
  /-- As long as no system call fails, the connection waits for the client or for `remote`. -/
  stays : ∀ c, ((client K A e_ctx q.bytes).guarded fun _ e => e.Good).Reach c → ∃ server, c.server = some server ∧
    (server.recv_io = true ∨ ∃ remote, c.remote = some remote ∧ remote.send_io = true)
  replies : ∀ c, (client K A e_ctx q.bytes).Reach c → c.replies = q.answers c.received.length
  upload : ∀ c, (client K A e_ctx q.bytes).Reach c → c.direct = false →
    ∃ out, K.Delivers (fresh d_ctx) d_ctx c.toRemote out ∧ out <+: q.address ++ q.body c.received ∧
      q.body c.received <+: q.payload ∧ (c.Idle → out = q.address ++ q.body c.received)
  bypass : ∀ c, (client K A e_ctx q.bytes).Reach c → c.direct = true →
    Bypasses A q.dst ∧ c.toRemote <+: q.body c.received ∧ q.body c.received <+: q.payload

theorem Phase.waits (h : Phase q sends c server) :
    server.recv_io = true ∨ ∃ remote, c.remote = some remote ∧ remote.send_io = true := by
  obtain ⟨-, -, -, hu⟩ | ⟨-, -, -, hu⟩ | ⟨remote, hr, -, hready⟩ | ⟨remote, hr, hsending⟩ := h
  · exact .inl hu.recv_io
  · exact .inl hu.recv_io
  · exact .inl hready.recv_io
  · exact .inr ⟨remote, hr, hsending.send_io⟩

theorem Inv.of_good (hK : Encodes K fresh d_ctx Counts q.address Whole sends)
    (hcount : ∀ n ≤ (q.address ++ q.payload).length, Counts n)
    {e_ctx : Ctx} (hinit : sends [] [] e_ctx) (h : ((client K A e_ctx q.bytes).guarded fun _ e => e.Good).Reach c) :
    Inv q A sends c ∧ c.server ≠ none := by
  refine h.invariant (I := fun c => Inv q A sends c ∧ c.server ≠ none) ?_ ?_
  · rintro c ⟨g, junk, junk', rfl⟩
    exact ⟨acceptedConn_inv hinit g junk junk', nofun⟩
  · rintro c e c' - ⟨hinv, hopen⟩ ⟨hgood, hdata, hfire⟩
    obtain ⟨c₁, hok, hinv', ho⟩ := hinv.fire hK hcount hdata hfire
    cases hok
    exact ⟨hinv', ho ⟨hgood, hopen⟩⟩

/-- What `remote` has accepted is a part of what has been encrypted, in the end all. -/
theorem Inv.sent (h : Inv q A sends c) (hdirect : c.direct = false) :
    ∃ plain wire ctx, sends plain wire ctx ∧ c.toRemote <+: wire ∧ plain <+: q.address ++ q.body c.received ∧
      (c.Idle → wire = c.toRemote ∧ plain = q.address ++ q.body c.received) := by
  by_cases hidle : c.Idle
  · obtain ⟨server, hs, hst, hrecv, habuf⟩ := hidle
    obtain ⟨hst', -⟩ | ⟨hst', -⟩ | ⟨remote, hr, hempty, hready⟩ | ⟨remote, hr, hsending⟩ := h.server server hs
    · rw [hst] at hst'
      cases hst'
    · rw [hst] at hst'
      cases hst'
    · obtain ⟨plain, hplain, hcar⟩ := hready.carries
      have hnil : remote.buf.bytes = [] := List.length_eq_zero_iff.1 (remote.buf.length_bytes.trans hempty)
      rw [hnil, List.append_nil, hdirect] at hplain
      subst hplain
      rw [hdirect, Carries, if_neg (by decide), ServerT.header, if_neg (by decide), habuf, Option.elim_none,
        List.append_nil] at hcar
      exact ⟨_, _, _, hcar, List.prefix_rfl, List.prefix_rfl, fun _ => ⟨rfl, rfl⟩⟩
    · rw [hsending.recv_io] at hrecv
      cases hrecv
  · obtain ⟨plain, wire, ctx, hcar, hwire, hplain⟩ := h.uploaded
    rw [hdirect] at hcar hplain
    rw [Carries, if_neg (by decide)] at hcar
    exact ⟨plain, wire, ctx, hcar, hwire, hplain, fun hi => absurd hi hidle⟩

theorem Inv.upload (hK : Encodes K fresh d_ctx Counts q.address Whole sends)
    (hcount : ∀ n ≤ (q.address ++ q.payload).length, Counts n) (h : Inv q A sends c) (hdirect : c.direct = false) :
    ∃ out, K.Delivers (fresh d_ctx) d_ctx c.toRemote out ∧ out <+: q.address ++ q.body c.received ∧
      q.body c.received <+: q.payload ∧ (c.Idle → out = q.address ++ q.body c.received) := by
  obtain ⟨plain, wire, ctx, hsends, hwire, hplain, hidle⟩ := h.sent hdirect
  have hpre := hplain.trans (ClientStream.plain_prefix h.received)
  obtain ⟨out, hout, hall, hdel⟩ := hK.delivers hsends (hcount _ hpre.length_le) hwire
  refine ⟨out, hdel, hout.trans hplain, ClientStream.body_prefix h.received, fun hi => ?_⟩
  obtain ⟨rfl, rfl⟩ := hidle hi
  exact hall rfl

theorem serves_of_encodes (hK : Encodes K fresh d_ctx Counts q.address Whole sends)
    {e_ctx : Ctx} (hinit : sends [] [] e_ctx)
    (hcount : ∀ n ≤ (q.address ++ q.payload).length, Counts n) : Serves K A fresh e_ctx d_ctx q where
  defined c hc e x hdata hfire := by
    obtain ⟨c', hx, -⟩ := (Inv.of_reach hK hcount hinit hc).fire hK hcount hdata hfire
    exact ⟨c', hx⟩
  stays c hc := by
    obtain ⟨hinv, hopen⟩ := Inv.of_good hK hcount hinit hc
    obtain ⟨server, hs⟩ := Option.ne_none_iff_exists'.1 hopen
    exact ⟨server, hs, (hinv.server server hs).waits⟩
  replies c hc := (Inv.of_reach hK hcount hinit hc).replies
  upload c hc hdirect := (Inv.of_reach hK hcount hinit hc).upload hK hcount hdirect
  bypass c hc hdirect := by
    have h := Inv.of_reach hK hcount hinit hc
    obtain ⟨plain, wire, ctx, hcar, hwire, hplain⟩ := h.uploaded
    rw [hdirect, Carries, if_pos rfl] at hcar
    rw [hdirect] at hplain
    subst hcar
    exact ⟨h.bypassed hdirect, hwire.trans hplain, ClientStream.body_prefix h.received⟩

end

section
variable {L : CryptoLib} {byte : StreamMethod → Bool → Bytes → Bytes → Bytes → UInt8 → UInt8}
  {ks : StreamMethod → Bytes → Bytes → Nat → UInt8}

/-- With an AEAD cipher. -/
theorem serves_aead (hL : L.Lawful) (hlen : L.Lengths) (A : Option AclT) (q : ClientStream)
    (M : AeadMethod) (key : Bytes) {salt : Bytes} (hsalt : salt.length = supported_aead_ciphers_key_size M) :
    Serves (aeadCrypto L) A (AeadCtx.Fresh L salt) (aead_ctx_init (aead_key_init M key) (some salt))
      (aead_ctx_init (aead_key_init M key) none) q := by
  have hs : (aead_key_init M key).Supported := supported_aead_key_init M key
  exact serves_of_encodes (aead_encodes hL hlen hs hsalt q.address) (aead_ctx_init_sent hL hs hsalt) fun _ _ => trivial

/-- With a stream cipher. -/
theorem serves_stream (hlen : L.Lengths) (hS : L.Streams byte ks) (A : Option AclT) (q : ClientStream)
    {M : StreamMethod} {key iv : Bytes} (hM : stream_supported L M)
    (hkey : key.length = supported_stream_ciphers_key_size M) (hiv : iv.length = supported_stream_ciphers_nonce_size M)
    (hcount : M.Counts (q.address ++ q.payload).length) :
    ∃ e_ctx d_ctx, stream_ctx_init L (stream_key_init M key) true iv = .ok e_ctx ∧
      stream_ctx_init L (stream_key_init M key) false [] = .ok d_ctx ∧
      Serves (localStreamCrypto L) A (StreamCtx.Fresh L (stream_key_init M key) iv) e_ctx d_ctx q := by
  have hstart : ∃ ctx, stream_ctx_init L (stream_key_init M key) true iv = .ok ctx ∧
      ctx.Sent L byte ks (stream_key_init M key) iv [] [] := stream_ctx_init_sent hM key hiv
  obtain ⟨e_ctx, he, hsent⟩ := hstart
  obtain ⟨d_ctx, hd, -⟩ := stream_ctx_init_decoding hM key iv
  exact ⟨e_ctx, d_ctx, he, hd, serves_of_encodes (local_stream_encodes hS hlen hM hkey hiv hd q.address) hsent
    fun n hn => hcount.mono hn⟩

/-- Both families: the replies are those to the bytes that have arrived, and unless the ACL lets the client connect to
the destination itself, what `remote` has accepted decrypts to a part of the address and the payload, in the end to all
of it. A destination itself gets a part of the payload as it is. -/
theorem upload_segmentation (hL : L.Lawful) (hlen : L.Lengths) (hS : L.Streams byte ks) (A : Option AclT)
    (q : ClientStream) :
    (∀ (M : AeadMethod) (key salt : Bytes), salt.length = supported_aead_ciphers_key_size M →
      Serves (aeadCrypto L) A (AeadCtx.Fresh L salt)
        (aead_ctx_init (aead_key_init M key) (some salt)) (aead_ctx_init (aead_key_init M key) none) q) ∧
    ∀ (M : StreamMethod) (key iv : Bytes), stream_supported L M → key.length = supported_stream_ciphers_key_size M →
      iv.length = supported_stream_ciphers_nonce_size M → M.Counts (q.address ++ q.payload).length →
      ∃ e_ctx d_ctx, stream_ctx_init L (stream_key_init M key) true iv = .ok e_ctx ∧
        stream_ctx_init L (stream_key_init M key) false [] = .ok d_ctx ∧
        Serves (localStreamCrypto L) A (StreamCtx.Fresh L (stream_key_init M key) iv) e_ctx d_ctx q := by
  constructor
  · intro M key salt hsalt
    exact serves_aead hL hlen A q M key hsalt
  · intro M key iv hM hkey hiv hcount
    exact serves_stream hlen hS A q hM hkey hiv hcount

end

/-- No authentication, 127.0.0.1:80 and sixty bytes of payload. -/
def loopbackStream : ClientStream where
  methods := [METHOD_NOAUTH]
  ver := SVERSION
  rsv := 0
  address := SOCKS5_ATYP_IPV4 :: [127, 0, 0, 1] ++ [0, 80]
  dst := .ip (.v4 [127, 0, 0, 1])
  payload := List.replicate 60 9
  methods_lt := by decide
  noauth := by decide
  is_address := .ipv4 rfl rfl

theorem upload_segmentation_loopback :
    Serves (aeadCrypto xorLib) none (AeadCtx.Fresh xorLib (List.replicate 16 4))
      (aead_ctx_init (aead_key_init .AES128GCM (List.replicate 16 1)) (some (List.replicate 16 4)))
      (aead_ctx_init (aead_key_init .AES128GCM (List.replicate 16 1)) none) loopbackStream ∧
    ∃ e_ctx d_ctx, stream_ctx_init xorLib (stream_key_init .CHACHA20 (List.replicate 32 1)) true (List.replicate 8 2) =
        .ok e_ctx ∧
      stream_ctx_init xorLib (stream_key_init .CHACHA20 (List.replicate 32 1)) false [] = .ok d_ctx ∧
      Serves (localStreamCrypto xorLib) none
        (StreamCtx.Fresh xorLib (stream_key_init .CHACHA20 (List.replicate 32 1)) (List.replicate 8 2))
        e_ctx d_ctx loopbackStream := by
  have h := upload_segmentation xorLib_lawful xorLib_lengths xorLib_streams none loopbackStream
  refine ⟨h.1 .AES128GCM (List.replicate 16 1) (List.replicate 16 4) rfl, ?_⟩
  exact h.2 .CHACHA20 (List.replicate 32 1) (List.replicate 8 2) ⟨by decide, .inl (by decide)⟩ rfl rfl
    (StreamMethod.counts_of_lt (by decide))

end OutlineServer.Local
