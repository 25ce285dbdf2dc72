import OutlineServer.Relay

/-!
# What holds of a connection

`Conn.Inv`: each socket has accepted all that the other one has sent, except for what the buffer holds while
its send watcher is active; in each phase of a connection (`Conn.Phase`) no watcher is active that would read
into such a buffer. The one exception is `STAGE_STOP`, where the client's segments go into the buffer of the other
direction: `Undisturbed` says of a step that this does no harm.
-/

namespace OutlineServer

variable {Ctx G : Type}

/-! ### Buffers -/

def RelayBuf.Clean (buf : RelayBuf) : Prop := ∀ i, buf.late i = false

theorem RelayBuf.lateIn_eq_false {buf : RelayBuf} {off n : Nat} :
    buf.lateIn off n = false ↔ ∀ i < n, buf.late (off + i) = false := by
  simp [RelayBuf.lateIn]

theorem RelayBuf.Clean.lateIn {buf : RelayBuf} (h : buf.Clean) (off n : Nat) : buf.lateIn off n = false :=
  RelayBuf.lateIn_eq_false.2 fun i _ => h (off + i)

theorem RelayBuf.of_recv {buf buf' : RelayBuf} {bs : Bytes} {late : Bool} (h : buf.recv bs late = .ok buf') :
    buf' = { buf with
      data := buf.data.write 0 bs
      late := fun i => if i < bs.length then late else buf.late i } := by
  obtain ⟨b, hput, h⟩ := C.bind_eq_ok h
  obtain ⟨-, rfl⟩ := Buffer.of_put hput
  cases h
  rfl

theorem RelayBuf.Clean.recv {buf buf' : RelayBuf} (hb : buf.Clean) {bs : Bytes} (h : buf.recv bs false = .ok buf') :
    buf'.Clean := by
  intro i
  rw [RelayBuf.of_recv h]
  show (if i < bs.length then false else buf.late i) = false
  rw [hb i, ite_self]

/-- Bytes in front of the unsent ones leave them as they are. -/
theorem RelayBuf.recv_pending {buf buf' : RelayBuf} {bs : Bytes} {late : Bool} (h : buf.recv bs late = .ok buf')
    (hidx : bs.length ≤ buf.idx) :
    buf'.idx = buf.idx ∧ buf'.len = buf.len ∧ buf'.pending = buf.pending ∧
      buf'.lateIn buf.idx buf.len = buf.lateIn buf.idx buf.len := by
  rw [RelayBuf.of_recv h]
  refine ⟨rfl, rfl, buf.data.read_write_after 0 buf.len buf.idx bs (by omega), ?_⟩
  rw [Bool.eq_iff_iff]
  simp only [RelayBuf.lateIn, List.any_eq_true, List.mem_range]
  refine exists_congr fun i => and_congr_right fun _ => ?_
  rw [if_neg (by omega)]

theorem Buffer.pending_eq_append (b : Buffer) {n : Nat} (h : n ≤ b.len) :
    b.pending = b.data.read b.idx n ++ b.data.read (b.idx + n) (b.len - n) := by
  rw [← Block.read_add, Nat.add_sub_of_le h]
  rfl

theorem Buffer.bytes_eq_append (b : Buffer) {n : Nat} (h : n ≤ b.len) :
    b.bytes = b.data.read 0 n ++ b.data.read n (b.len - n) := by
  rw [Buffer.bytes, ← Nat.add_sub_of_le h, Block.read_add, Nat.zero_add, Nat.add_sub_cancel_left]

theorem Conn.of_sendClient {c c' : Conn Ctx G} {buf : RelayBuf} {off n : Nat} (h : c.sendClient buf off n = .ok c')
    (hlate : buf.lateIn off n = false) : c' = { c with toClient := c.toClient ++ buf.data.read off n } := by
  obtain ⟨bs, hget, h⟩ := C.bind_eq_ok h
  obtain ⟨-, rfl⟩ := Buffer.of_get hget
  cases h
  rw [hlate, Bool.or_false]

theorem Conn.of_sendRemote {c c' : Conn Ctx G} {buf : RelayBuf} {off n : Nat} (h : c.sendRemote buf off n = .ok c')
    (hlate : buf.lateIn off n = false) : c' = { c with toRemote := c.toRemote ++ buf.data.read off n } := by
  obtain ⟨bs, hget, h⟩ := C.bind_eq_ok h
  obtain ⟨-, rfl⟩ := Buffer.of_get hget
  cases h
  rw [hlate, Bool.or_false]

/-! ### The invariant -/

/-- What `remote->buf` still has to give to the destination. -/
def RemoteT.unsent (remote : RemoteT) : Bytes := if remote.send_io then remote.buf.pending else []

/-- What `server->buf` still has to give to the client. -/
def ServerT.unsent (server : ServerT Ctx) : Bytes := if server.send_io then server.buf.pending else []

/-- A connection before a segment of its client has failed to decrypt. -/
structure Conn.Healthy (c : Conn Ctx G) (server : ServerT Ctx) : Prop where
  failed : c.failed = false
  clean : server.buf.Clean

inductive Conn.Phase (c : Conn Ctx G) (server : ServerT Ctx) : Prop
  | header (hstage : server.stage = .INIT) (hok : c.Healthy server) (hremote : c.remote = none)
      (hsend : server.send_io = false) (hquery : server.query = false) (hnew : c.decrypted = [])
  | resolving (hstage : server.stage = .RESOLVE) (hok : c.Healthy server) (hremote : c.remote = none)
      (hrecv : server.recv_io = false) (hsend : server.send_io = false)
      (hpayload : c.decrypted = c.toRemote ++ server.buf.pending)
  | connecting (remote : RemoteT) (hstage : server.stage = .INIT ∨ server.stage = .RESOLVE) (hok : c.Healthy server)
      (hremote : c.remote = some remote) (hrecv : server.recv_io = false) (hsend : server.send_io = false)
      (hquery : server.query = false) (hrecv' : remote.recv_io = false) (hsend' : remote.send_io = true)
  | streaming (remote : RemoteT) (hstage : server.stage = .STREAM) (hok : c.Healthy server)
      (hremote : c.remote = some remote) (hquery : server.query = false) (hconn : remote.connected = true)
      (hup : server.recv_io = true → remote.send_io = false)
      (hdown : remote.recv_io = true → server.send_io = false)
  | stopped (hstage : server.stage = .STOP) (hquery : server.query = false)
      (hok : c.failed = false → server.buf.Clean ∧ server.send_io = false ∧ c.remote = none ∧
        c.toRemote = c.decrypted)
      (hremote : ∀ remote, c.remote = some remote → remote.send_io = false ∧
        (remote.recv_io = true → server.send_io = false))

structure Conn.Inv (c : Conn Ctx G) : Prop where
  toRemote : c.toRemote <+: c.decrypted
  toClient : c.toClient <+: c.encrypted
  leaked : c.leaked = false
  remote : ∀ remote, c.remote = some remote → c.decrypted = c.toRemote ++ remote.unsent ∧ remote.buf.Clean
  server : ∀ server, c.server = some server → c.encrypted = c.toClient ++ server.unsent ∧
    (server.send_io = true → server.buf.lateIn server.buf.idx server.buf.len = false) ∧ c.Phase server

def Recv.bytes : Recv → Bytes
  | .data bs => bs
  | .eof | .again | .error => []

/-- The events that do not overwrite bytes that a stopped connection still has to send to its client: the segment that
is received fits into the part of `server->buf` that has been sent. -/
def Undisturbed (c : Conn Ctx G) : RelayEvent G → Prop
  | .serverRecv _ r _ _ => ∀ server ∈ c.server, server.stage = .STOP → server.send_io = true →
      r.bytes.length ≤ server.buf.idx
  | .serverSend _ | .resolved _ _ _ | .remoteRecv _ _ | .remoteSend _ _ | .timeout | .other _ => True

instance (c : Conn Ctx G) (e : RelayEvent G) : Decidable (Undisturbed c e) :=
  match e with
  | .serverRecv _ r _ _ => inferInstanceAs (Decidable (∀ server ∈ c.server, server.stage = .STOP →
      server.send_io = true → r.bytes.length ≤ server.buf.idx))
  | .serverSend _ | .resolved _ _ _ | .remoteRecv _ _ | .remoteSend _ _ | .timeout | .other _ => .isTrue trivial

/-! ### Building and closing -/

section
variable {c c' : Conn Ctx G} {server : ServerT Ctx} {remote : RemoteT}

theorem Conn.Inv.opened (hs : c.server = some server) (hr : c.remote = some remote) (hleaked : c.leaked = false)
    (hup : c.decrypted = c.toRemote ++ remote.unsent) (hclean : remote.buf.Clean)
    (hdown : c.encrypted = c.toClient ++ server.unsent)
    (hlate : server.send_io = true → server.buf.lateIn server.buf.idx server.buf.len = false)
    (hphase : c.Phase server) : c.Inv := by
  refine ⟨⟨_, hup.symm⟩, ⟨_, hdown.symm⟩, hleaked, ?_, ?_⟩
  · intro remote' hr'
    rw [hr] at hr'
    cases hr'
    exact ⟨hup, hclean⟩
  · intro server' hs'
    rw [hs] at hs'
    cases hs'
    exact ⟨hdown, hlate, hphase⟩

theorem Conn.Inv.alone (hs : c.server = some server) (hr : c.remote = none) (hleaked : c.leaked = false)
    (hup : c.toRemote <+: c.decrypted) (hdown : c.encrypted = c.toClient ++ server.unsent)
    (hlate : server.send_io = true → server.buf.lateIn server.buf.idx server.buf.len = false)
    (hphase : c.Phase server) : c.Inv := by
  refine ⟨hup, ⟨_, hdown.symm⟩, hleaked, ?_, ?_⟩
  · intro remote' hr'
    rw [hr] at hr'
    cases hr'
  · intro server' hs'
    rw [hs] at hs'
    cases hs'
    exact ⟨hdown, hlate, hphase⟩

theorem Conn.Inv.closed (hup : c.toRemote <+: c.decrypted) (hdown : c.toClient <+: c.encrypted)
    (hleaked : c.leaked = false) : c.closeBoth.Inv := by
  refine ⟨hup, hdown, hleaked, ?_, ?_⟩
  · intro remote' hr'
    cases hr'
  · intro server' hs'
    cases hs'

theorem Conn.Inv.closeBoth (h : c.Inv) : c.closeBoth.Inv := .closed h.toRemote h.toClient h.leaked

theorem Conn.Inv.serverGone (hs : c.server = none) (hup : c.toRemote <+: c.decrypted)
    (hdown : c.toClient <+: c.encrypted) (hleaked : c.leaked = false)
    (hremote : ∀ remote, c.remote = some remote → c.decrypted = c.toRemote ++ remote.unsent ∧ remote.buf.Clean) :
    c.Inv := by
  refine ⟨hup, hdown, hleaked, hremote, ?_⟩
  intro server' hs'
  rw [hs] at hs'
  cases hs'

theorem Conn.Inv.close_and_free_server (h : c.Inv) : c.close_and_free_server.Inv :=
  .serverGone rfl h.toRemote h.toClient h.leaked h.remote

theorem Conn.Inv.close_and_free_remote (h : c.Inv) (hs : c.server = none) : c.close_and_free_remote.Inv := by
  refine ⟨h.toRemote, h.toClient, h.leaked, ?_, ?_⟩
  · intro remote' hr'
    cases hr'
  · intro server' hs'
    rw [show c.close_and_free_remote.server = c.server from rfl, hs] at hs'
    cases hs'

/-- Nothing is unsent while the send watcher is not active. -/
theorem RemoteT.idle {out sent : Bytes} (h : remote.send_io = false) (hout : out = sent) :
    out = sent ++ remote.unsent := by
  rw [RemoteT.unsent, h, hout]
  exact (List.append_nil _).symm

theorem RemoteT.busy {out sent : Bytes} (h : remote.send_io = true) (hout : out = sent ++ remote.buf.pending) :
    out = sent ++ remote.unsent := by
  rw [RemoteT.unsent, h, hout]
  rfl

theorem ServerT.idle {out sent : Bytes} (h : server.send_io = false) (hout : out = sent) :
    out = sent ++ server.unsent := by
  rw [ServerT.unsent, h, hout]
  exact (List.append_nil _).symm

theorem ServerT.busy {out sent : Bytes} (h : server.send_io = true) (hout : out = sent ++ server.buf.pending) :
    out = sent ++ server.unsent := by
  rw [ServerT.unsent, h, hout]
  rfl

theorem Conn.Phase.of_stream (h : c.Phase server) (hstage : server.stage = .STREAM) :
    c.Healthy server ∧ server.query = false ∧ ∃ remote, c.remote = some remote ∧ remote.connected = true ∧
      (server.recv_io = true → remote.send_io = false) ∧ (remote.recv_io = true → server.send_io = false) := by
  rcases h with ⟨hst⟩ | ⟨hst⟩ | ⟨_, hst⟩ | ⟨remote, -, hok, hr, hq, hconn, hup, hdown⟩ | ⟨hst⟩
  · rw [hst] at hstage
    cases hstage
  · rw [hst] at hstage
    cases hstage
  · rw [hstage] at hst
    rcases hst with hst | hst <;> cases hst
  · exact ⟨hok, hq, remote, hr, hconn, hup, hdown⟩
  · rw [hst] at hstage
    cases hstage

theorem Conn.Phase.of_stop (h : c.Phase server) (hstage : server.stage = .STOP) : server.query = false ∧
    (c.failed = false → server.buf.Clean ∧ server.send_io = false ∧ c.remote = none ∧ c.toRemote = c.decrypted) ∧
      ∀ remote, c.remote = some remote → remote.send_io = false ∧ (remote.recv_io = true → server.send_io = false) := by
  rcases h with ⟨hst⟩ | ⟨hst⟩ | ⟨_, hst⟩ | ⟨_, hst⟩ | ⟨-, hq, hok, hr⟩
  · rw [hst] at hstage
    cases hstage
  · rw [hst] at hstage
    cases hstage
  · rw [hstage] at hst
    rcases hst with hst | hst <;> cases hst
  · rw [hst] at hstage
    cases hstage
  · exact ⟨hq, hok, hr⟩

end

/-! ### `server_recv_cb` -/

section
variable {c c' : Conn Ctx G} {server : ServerT Ctx} {remote : RemoteT}

theorem serverRecvStream_inv (h : c.Inv) (hs : c.server = some server) (hr : c.remote = some remote)
    (hstage : server.stage = .STREAM) (hrecv : server.recv_io = true) {g : G} {d_ctx : Ctx} {b : Buffer}
    {ret : CryptoRet} {s : Send} {c₁ : Conn Ctx G} (hc : c₁ = { c with g })
    (hcall : serverRecvStream c₁ { server with d_ctx } remote ⟨b, fun _ => c.failed⟩ ret s = .ok c') :
    c'.Inv := by
  subst hc
  obtain ⟨hdown, hlate, hphase⟩ := h.server server hs
  obtain ⟨hok, hquery, remote', hr', hconn, hup, hrw⟩ := hphase.of_stream hstage
  rw [hr] at hr'
  cases hr'
  have hsend : remote.send_io = false := hup hrecv
  have hsent : c.decrypted = c.toRemote := by
    rw [(h.remote remote hr).1, RemoteT.unsent, hsend]
    exact List.append_nil _
  have hclean : RelayBuf.Clean ⟨b, fun _ => c.failed⟩ := fun _ => hok.failed
  rcases ret with _ | _ | _
  · -- the segment does not decrypt
    cases hcall
    refine .opened rfl rfl h.leaked (RemoteT.idle hsend hsent) hclean hdown hlate (.stopped rfl hquery ?_ ?_)
    · intro hf
      cases hf
    · intro remote' hr'
      cases hr'
      exact ⟨hsend, hrw⟩
  · cases hcall
    exact .opened rfl rfl h.leaked (RemoteT.idle hsend hsent) hclean hdown hlate
      (.streaming _ hstage ⟨hok.failed, hok.clean⟩ rfl hquery hconn (fun _ => hsend) hrw)
  · rcases s with n | _ | _
    · simp only [serverRecvStream] at hcall
      split at hcall
      · -- a part of the bytes: reading stops until the rest has been sent
        rename_i hn
        obtain ⟨c₁, hsent₁, hcall⟩ := C.bind_eq_ok hcall
        obtain rfl := Conn.of_sendRemote hsent₁ (hclean.lateIn 0 n)
        cases hcall
        refine .opened rfl rfl h.leaked (RemoteT.busy rfl ?_) hclean hdown hlate
          (.streaming _ hstage ⟨hok.failed, hok.clean⟩ rfl hquery hconn (fun hr => by cases hr) hrw)
        show c.decrypted ++ b.bytes = c.toRemote ++ b.data.read 0 n ++ b.data.read n (b.len - n)
        rw [hsent, b.bytes_eq_append (Nat.le_of_lt hn), List.append_assoc]
      · obtain ⟨c₁, hsent₁, hcall⟩ := C.bind_eq_ok hcall
        obtain rfl := Conn.of_sendRemote hsent₁ (hclean.lateIn 0 b.len)
        cases hcall
        exact .opened rfl rfl h.leaked (RemoteT.idle hsend (congrArg (· ++ b.bytes) hsent)) hclean hdown hlate
          (.streaming _ hstage ⟨hok.failed, hok.clean⟩ rfl hquery hconn (fun _ => hsend) hrw)
    · cases hcall
      exact .opened rfl rfl h.leaked (RemoteT.busy rfl (congrArg (· ++ b.bytes) hsent)) hclean hdown hlate
        (.streaming _ hstage ⟨hok.failed, hok.clean⟩ rfl hquery hconn (fun hr => by cases hr) hrw)
    · cases hcall
      exact .closed (h.toRemote.trans (List.prefix_append _ _)) h.toClient h.leaked

/-- What fast open takes is sent, and the rest of the payload moves to `remote->buf`. -/
theorem attachRemote_ok {N : NetLib} {addr : SockAddr} {buf : RelayBuf} {junk : Block} {t : Connect}
    (h : connect_to_remote N addr c buf junk t >>= attachRemote c server = .ok c') (hclean : buf.Clean) :
    c' = c.close_and_free_server ∨ ∃ k ≤ buf.len, ∃ sbuf rbuf : RelayBuf, sbuf.Clean ∧ rbuf.Clean ∧
      rbuf.pending = buf.data.read (buf.idx + k) (buf.len - k) ∧ SOCKET_BUF_SIZE ≤ rbuf.capacity ∧
      c' = { c with
        toRemote := c.toRemote ++ buf.data.read buf.idx k
        server := some { server with buf := sbuf }
        remote := some ⟨rbuf, false, true, false⟩ } := by
  obtain ⟨res, hconn, hatt⟩ := C.bind_eq_ok h
  rcases res with _ | ⟨c₁, buf₁, remote₁⟩
  · cases hatt
    exact .inl rfl
  right
  obtain ⟨k, hk, rfl, rfl, rfl⟩ : ∃ k ≤ buf.len, c₁ = { c with toRemote := c.toRemote ++ buf.data.read buf.idx k } ∧
      buf₁ = { buf with idx := buf.idx + k, len := buf.len - k } ∧ remote₁ = new_remote junk := by
    unfold connect_to_remote at hconn
    split at hconn
    · cases hconn
    rcases t with _ | _ | n
    · cases hconn
    · cases hconn
      refine ⟨0, Nat.zero_le _, ?_, rfl, rfl⟩
      rw [Block.read_zero, List.append_nil]
    · obtain ⟨c₂, hsend, hconn⟩ := C.bind_eq_ok hconn
      obtain rfl := Conn.of_sendRemote hsend (hclean.lateIn _ _)
      cases hconn
      exact ⟨min n buf.len, Nat.min_le_right _ _, rfl, rfl, rfl⟩
  refine ⟨k, hk, ?_⟩
  simp only [attachRemote] at hatt
  split at hatt
  · obtain ⟨payload, hget, hatt⟩ := C.bind_eq_ok hatt
    obtain ⟨-, rfl⟩ := Buffer.of_get hget
    obtain ⟨rbuf, hput, hatt⟩ := C.bind_eq_ok hatt
    obtain ⟨-, rfl⟩ := Buffer.of_put hput
    cases hatt
    obtain ⟨n, hn, hroom, -⟩ := brealloc_eq (new_remote junk).buf.toBuffer (buf.len - k) SOCKET_BUF_SIZE
    refine ⟨_, _, ?_, ?_, ?_, ?_, rfl⟩
    · exact hclean
    · exact fun i => hclean _
    · have hread := Block.read_write_same (brealloc (new_remote junk).buf.toBuffer (buf.len - k) SOCKET_BUF_SIZE).data 0
        (buf.data.read (buf.idx + k) (buf.len - k))
      rwa [Block.length_read] at hread
    · rw [hn]
      exact hroom
  · rename_i hlen
    cases hatt
    refine ⟨_, _, ?_, ?_, ?_, Nat.le_refl _, rfl⟩
    · exact hclean
    · exact fun i => rfl
    rw [show buf.len - k = 0 from Nat.eq_zero_of_not_pos hlen]
    rfl

theorem connecting_inv (hleaked : c.leaked = false) (hfailed : c.failed = false) {buf : RelayBuf} {k : Nat}
    (hk : k ≤ buf.len) {sbuf rbuf : RelayBuf} (hsbuf : sbuf.Clean) (hrbuf : rbuf.Clean)
    (hpending : rbuf.pending = buf.data.read (buf.idx + k) (buf.len - k))
    (hpayload : c.decrypted = c.toRemote ++ buf.pending) (hdown : c.encrypted = c.toClient)
    (hstage : server.stage = .INIT ∨ server.stage = .RESOLVE) (hrecv : server.recv_io = false)
    (hsend : server.send_io = false) (hquery : server.query = false) :
    Conn.Inv { c with
      toRemote := c.toRemote ++ buf.data.read buf.idx k
      server := some { server with buf := sbuf }
      remote := some ⟨rbuf, false, true, false⟩ } := by
  refine .opened rfl rfl hleaked (RemoteT.busy rfl ?_) hrbuf (ServerT.idle hsend hdown) ?_
    (.connecting _ hstage ⟨hfailed, hsbuf⟩ rfl hrecv hsend hquery rfl rfl)
  · show c.decrypted = c.toRemote ++ buf.data.read buf.idx k ++ rbuf.pending
    rw [hpayload, hpending, List.append_assoc, ← Buffer.pending_eq_append _ hk]
  · intro hs
    rw [show _ = _ from hsend] at hs
    cases hs

theorem serverRecvInit_inv {N : NetLib} (h : c.Inv) (hs : c.server = some server) (hok : c.Healthy server)
    (hremote : c.remote = none) (hstage : server.stage = .INIT) (hsend : server.send_io = false)
    (hquery : server.query = false) (hnew : c.decrypted = []) {g : G} {d_ctx : Ctx} {b : Buffer} {junk : Block}
    {ret : CryptoRet} {t : Connect}
    (hcall : serverRecvInit N { c with g } { server with d_ctx } ⟨b, fun _ => c.failed⟩ junk ret t = .ok c') :
    c'.Inv := by
  obtain ⟨hdown, hlate, -⟩ := h.server server hs
  have hclean : RelayBuf.Clean ⟨b, fun _ => c.failed⟩ := fun _ => hok.failed
  have hnone : c.toRemote = [] := List.prefix_nil.1 (hnew ▸ h.toRemote)
  have hsent : c.encrypted = c.toClient := by
    rw [hdown, ServerT.unsent, hsend]
    exact List.append_nil _
  have hlate' : ∀ buf : RelayBuf, server.send_io = true → buf.lateIn buf.idx buf.len = false := by
    intro buf hs
    rw [hsend] at hs
    cases hs
  have hno : ∀ remote : RemoteT, c.remote = some remote → remote.send_io = false ∧
      (remote.recv_io = true → server.send_io = false) := by
    intro remote hr
    rw [hremote] at hr
    cases hr
  rcases ret with _ | _ | _
  · cases hcall
    refine .alone rfl hremote h.leaked h.toRemote (ServerT.idle hsend hsent) (hlate' _) (.stopped rfl hquery ?_ hno)
    intro hf
    cases hf
  · cases hcall
    exact .alone rfl hremote h.leaked h.toRemote (ServerT.idle hsend hsent) (hlate' _)
      (.header hstage ⟨hok.failed, hclean⟩ hremote hsend hquery hnew)
  · obtain ⟨q, hq, hcall⟩ := C.bind_eq_ok hcall
    rcases q with _ | _ | ⟨addr, offset⟩ | ⟨host, port, offset⟩
    · cases hcall
      exact .alone rfl hremote h.leaked h.toRemote (ServerT.idle hsend hsent) (hlate' _)
        (.stopped rfl hquery (fun _ => ⟨hclean, hsend, hremote, hnone.trans hnew.symm⟩) hno)
    · cases hcall
      exact .serverGone rfl h.toRemote h.toClient h.leaked h.remote
    · dsimp only at hcall
      rcases attachRemote_ok hcall (fun i => hclean i) with rfl | ⟨k, hk, sbuf, rbuf, hsbuf, hrbuf, hpending, -, rfl⟩
      · refine .serverGone rfl (h.toRemote.trans (List.prefix_append _ _)) h.toClient h.leaked ?_
        intro remote hr
        rw [show _ = none from hremote] at hr
        cases hr
      · refine connecting_inv (c := { c with g, decrypted := _ }) h.leaked hok.failed hk hsbuf hrbuf hpending ?_ hsent
          (.inl hstage) rfl hsend hquery
        rw [hnew, hnone]
    · cases hcall
      refine .alone rfl hremote h.leaked (h.toRemote.trans (List.prefix_append _ _)) (ServerT.idle hsend hsent)
        (hlate' _) (.resolving rfl ⟨hok.failed, hclean⟩ hremote rfl hsend ?_)
      rw [hnew, hnone]

/-- A segment that is read in `STAGE_STOP` does no harm if it fits into what has been sent. -/
theorem stopped_recv_inv (h : c.Inv) (hs : c.server = some server) (hstage : server.stage = .STOP) {buf : RelayBuf}
    {bs : Bytes} (hbuf : server.buf.recv bs c.failed = .ok buf)
    (hquiet : server.send_io = true → bs.length ≤ server.buf.idx) :
    Conn.Inv { c with server := some { server with buf } } := by
  obtain ⟨hdown, hlate, hphase⟩ := h.server server hs
  obtain ⟨hquery, hok, hremote⟩ := hphase.of_stop hstage
  refine ⟨h.toRemote, h.toClient, h.leaked, h.remote, ?_⟩
  intro server' hs'
  cases hs'
  refine ⟨?_, ?_, .stopped hstage hquery ?_ hremote⟩
  · by_cases hsend : server.send_io = true
    · obtain ⟨-, -, hpending, -⟩ := RelayBuf.recv_pending hbuf (hquiet hsend)
      refine ServerT.busy hsend ?_
      rw [hdown, ServerT.unsent, if_pos hsend, hpending]
    · rw [Bool.not_eq_true] at hsend
      refine ServerT.idle hsend ?_
      rw [hdown, ServerT.unsent, hsend]
      exact List.append_nil _
  · intro hsend
    obtain ⟨hidx, hlen, -, hin⟩ := RelayBuf.recv_pending hbuf (hquiet hsend)
    show buf.lateIn buf.idx buf.len = false
    rw [hidx, hlen, hin]
    exact hlate hsend
  · intro hf
    obtain ⟨hclean, hrest⟩ := hok hf
    rw [show c.failed = false from hf] at hbuf
    exact ⟨hclean.recv hbuf, hrest⟩

theorem server_recv_cb_inv {K : CryptoT Ctx G} {N : NetLib} (h : c.Inv) (hs : c.server = some server)
    (hrecv : server.recv_io = true) {junk : Block} {r : Recv} {s : Send} {t : Connect}
    (hquiet : Undisturbed c (.serverRecv junk r s t)) (hcall : server_recv_cb K N c server junk r s t = .ok c') :
    c'.Inv := by
  obtain ⟨hdown, hlate, hphase⟩ := h.server server hs
  simp only [server_recv_cb] at hcall
  split at hcall
  · rename_i hstage
    obtain ⟨-, -, remote, hr, -⟩ := hphase.of_stream hstage
    rw [hr] at hcall
    rcases r with bs | _ | _ | _
    · obtain ⟨buf, -, hcall⟩ := C.bind_eq_ok hcall
      obtain ⟨⟨ret, b, d_ctx, g⟩, -, hcall⟩ := C.bind_eq_ok hcall
      refine serverRecvStream_inv (g := g) h hs hr hstage hrecv ?_ hcall
      rw [hr]
    · cases hcall
      exact h.closeBoth
    · cases hcall
      exact h
    · cases hcall
      exact h.closeBoth
  rename_i hstream
  rcases r with bs | _ | _ | _
  · obtain ⟨buf, hbuf, hcall⟩ := C.bind_eq_ok hcall
    split at hcall
    · -- a stopped connection: the segment is dropped, but it has been read into `server->buf`
      rename_i hstop
      cases hcall
      exact stopped_recv_inv h hs hstop hbuf fun hsend => hquiet server hs hstop hsend
    · rename_i hstop
      obtain ⟨⟨ret, b, d_ctx, g⟩, -, hcall⟩ := C.bind_eq_ok hcall
      dsimp only at hcall
      rcases hphase with ⟨hst, hok, hr, hsend, hq, hnew⟩ | ⟨-, -, -, hrw⟩ | ⟨_, -, -, -, hrw⟩ | ⟨_, hst⟩ | ⟨hst⟩
      · rw [if_neg (fun hf => hf.2 hst)] at hcall
        exact serverRecvInit_inv h hs hok hr hst hsend hq hnew hcall
      · rw [hrw] at hrecv
        cases hrecv
      · rw [hrw] at hrecv
        cases hrecv
      · exact absurd hst hstream
      · exact absurd hst hstop
  · cases hcall
    exact h.close_and_free_server
  · cases hcall
    exact h
  · cases hcall
    exact h.close_and_free_server

/-! ### The other callbacks -/

theorem RelayBuf.lateIn_mono {buf : RelayBuf} {off n off' n' : Nat} (h : buf.lateIn off n = false) (hoff : off ≤ off')
    (hn : off' + n' ≤ off + n) : buf.lateIn off' n' = false := by
  rw [RelayBuf.lateIn_eq_false] at h ⊢
  intro i hi
  have hlate := h (off' - off + i) (by omega)
  rwa [show off + (off' - off + i) = off' + i by omega] at hlate

/-- The client has taken some of the unsent bytes; `data` is `server` then, with all of them gone or not. -/
theorem Conn.Phase.sent (h : c.Phase server) (hsend : server.send_io = true) (hr : c.remote = some remote)
    {buf : RelayBuf} (hbuf : server.buf.Clean → buf.Clean) (out : Bytes) :
    Conn.Phase { c with toClient := out, server := some { server with buf } } { server with buf } ∧
      Conn.Phase { c with
        toClient := out
        server := some { server with buf, send_io := false }
        remote := some { remote with recv_io := true } } { server with buf, send_io := false } := by
  rcases h with ⟨-, -, -, hs⟩ | ⟨-, -, -, -, hs⟩ | ⟨_, -, -, -, -, hs⟩ |
    ⟨remote', hstage, hok, hr', hq, hconn, hup, hdown⟩ | ⟨hstage, hq, hok, hremote⟩
  · rw [hs] at hsend
    cases hsend
  · rw [hs] at hsend
    cases hsend
  · rw [hs] at hsend
    cases hsend
  · rw [hr] at hr'
    cases hr'
    exact ⟨.streaming _ hstage ⟨hok.failed, hbuf hok.clean⟩ hr hq hconn hup hdown,
      .streaming _ hstage ⟨hok.failed, hbuf hok.clean⟩ rfl hq hconn hup fun _ => rfl⟩
  · have hfailed : c.failed = true := by
      by_contra hf
      have hnone := (hok (by simpa using hf)).2.2.1
      rw [hr] at hnone
      cases hnone
    refine ⟨.stopped hstage hq ?_ hremote, .stopped hstage hq ?_ ?_⟩
    · intro hf
      rw [show c.failed = false from hf] at hfailed
      cases hfailed
    · intro hf
      rw [show c.failed = false from hf] at hfailed
      cases hfailed
    · intro remote' hr'
      cases hr'
      exact ⟨(hremote remote hr).1, fun _ => rfl⟩

theorem server_send_cb_inv (h : c.Inv) (hs : c.server = some server) (hsend : server.send_io = true) {s : Send}
    (hcall : server_send_cb c server s = .ok c') : c'.Inv := by
  obtain ⟨hdown, hlate, hphase⟩ := h.server server hs
  have hlate := hlate hsend
  rw [ServerT.unsent, if_pos hsend] at hdown
  simp only [server_send_cb] at hcall
  split at hcall
  · cases hcall
    exact h.close_and_free_server
  rename_i remote hr
  obtain ⟨hup, hclean⟩ := h.remote remote hr
  split at hcall
  · cases hcall
    exact h.closeBoth
  rcases s with n | _ | _
  · dsimp only at hcall
    split at hcall
    · rename_i hn
      obtain ⟨c₁, hsent, hcall⟩ := C.bind_eq_ok hcall
      obtain rfl := Conn.of_sendClient hsent (RelayBuf.lateIn_mono hlate (Nat.le_refl _) (by omega))
      cases hcall
      refine .opened rfl hr h.leaked hup hclean (ServerT.busy hsend ?_) (fun _ => ?_)
        (hphase.sent hsend hr ?_ _).1
      · rw [hdown, Buffer.pending_eq_append _ (Nat.le_of_lt hn), ← List.append_assoc]
        rfl
      · exact RelayBuf.lateIn_mono hlate (Nat.le_add_right _ _) (by dsimp only; omega)
      · exact fun hc i => hc i
    · obtain ⟨c₁, hsent, hcall⟩ := C.bind_eq_ok hcall
      obtain rfl := Conn.of_sendClient hsent hlate
      cases hcall
      refine .opened rfl rfl h.leaked hup hclean (ServerT.idle rfl hdown) ?_ (hphase.sent hsend hr ?_ _).2
      · intro hs
        cases hs
      · exact fun hc i => hc i
  · cases hcall
    exact h
  · cases hcall
    exact h.closeBoth

theorem resolv_cb_inv {N : NetLib} (h : c.Inv) (hs : c.server = some server) (hquery : server.query = true)
    {junk : Block} {addr : Option SockAddr} {t : Connect} (hcall : resolv_cb N c server junk addr t = .ok c') :
    c'.Inv := by
  obtain ⟨hdown, hlate, hphase⟩ := h.server server hs
  rcases addr with _ | addr
  · cases hcall
    exact h.close_and_free_server
  rcases hphase with ⟨-, -, -, -, hq⟩ | ⟨hstage, hok, hr, hrecv, hsend, hpayload⟩ | ⟨_, -, -, -, -, -, hq⟩ |
    ⟨_, -, -, -, hq⟩ | ⟨-, hq⟩
  · rw [hq] at hquery
    cases hquery
  · rw [ServerT.unsent, hsend] at hdown
    rcases attachRemote_ok hcall hok.clean with rfl | ⟨k, hk, sbuf, rbuf, hsbuf, hrbuf, hpending, -, rfl⟩
    · exact h.close_and_free_server
    · exact connecting_inv h.leaked hok.failed hk hsbuf hrbuf hpending hpayload
        (hdown.trans (List.append_nil _)) (.inr hstage) hrecv hsend rfl
  · rw [hq] at hquery
    cases hquery
  · rw [hq] at hquery
    cases hquery
  · rw [hq] at hquery
    cases hquery

theorem Conn.Phase.of_remote_recv (h : c.Phase server) (hr : c.remote = some remote) (hrecv : remote.recv_io = true) :
    server.query = false ∧ server.send_io = false ∧
      (server.stage = .STREAM ∧ c.Healthy server ∧ remote.connected = true ∧
          (server.recv_io = true → remote.send_io = false) ∨
        server.stage = .STOP ∧ c.failed = true ∧ remote.send_io = false) := by
  rcases h with ⟨-, -, hr'⟩ | ⟨-, -, hr'⟩ | ⟨remote', -, -, hr', -, -, -, hrecv'⟩ |
    ⟨remote', hstage, hok, hr', hq, hconn, hup, hdown⟩ | ⟨hstage, hq, hok, hremote⟩
  · rw [hr] at hr'
    cases hr'
  · rw [hr] at hr'
    cases hr'
  · rw [hr] at hr'
    cases hr'
    rw [hrecv'] at hrecv
    cases hrecv
  · rw [hr] at hr'
    cases hr'
    exact ⟨hq, hdown hrecv, .inl ⟨hstage, hok, hconn, hup⟩⟩
  · obtain ⟨hsend', hdown⟩ := hremote remote hr
    refine ⟨hq, hdown hrecv, .inr ⟨hstage, ?_, hsend'⟩⟩
    by_contra hf
    have hnone := (hok (by simpa using hf)).2.2.1
    rw [hr] at hnone
    cases hnone

theorem remote_recv_cb_inv {K : CryptoT Ctx G} (h : c.Inv) (hr : c.remote = some remote)
    (hrecv : remote.recv_io = true) {r : Recv} {s : Send} (hcall : remote_recv_cb K c remote r s = .ok c') :
    c'.Inv := by
  simp only [remote_recv_cb] at hcall
  split at hcall
  · rename_i hs
    cases hcall
    exact h.close_and_free_remote hs
  rename_i server hs
  obtain ⟨hdown, -, hphase⟩ := h.server server hs
  obtain ⟨hup, hclean⟩ := h.remote remote hr
  obtain ⟨hq, hsend, hphase⟩ := hphase.of_remote_recv hr hrecv
  have hsent : c.encrypted = c.toClient := by
    rw [hdown, ServerT.unsent, hsend]
    exact List.append_nil _
  rcases r with bs | _ | _ | _
  · obtain ⟨buf, hbuf, hcall⟩ := C.bind_eq_ok hcall
    rcases hphase with ⟨hstage, hok, hconn, hup'⟩ | ⟨hstage, hfailed, hsend'⟩
    · rw [if_neg (by rw [hstage]; decide)] at hcall
      obtain ⟨⟨ret, b, e_ctx, g⟩, -, hcall⟩ := C.bind_eq_ok hcall
      dsimp only at hcall
      have hb : RelayBuf.Clean ⟨b, fun _ => false⟩ := fun _ => rfl
      split at hcall
      · cases hcall
        exact .closed h.toRemote h.toClient h.leaked
      rcases s with n | _ | _
      · dsimp only at hcall
        split at hcall
        · -- a part of the bytes: reading stops until the rest has been sent
          rename_i hn
          obtain ⟨c₁, hsent₁, hcall⟩ := C.bind_eq_ok hcall
          obtain rfl := Conn.of_sendClient hsent₁ (hb.lateIn 0 n)
          cases hcall
          refine .opened rfl rfl h.leaked hup hclean (ServerT.busy rfl ?_) (fun _ => hb.lateIn n (b.len - n))
            (.streaming _ hstage ⟨hok.failed, hb⟩ rfl hq hconn hup' fun hr => by cases hr)
          show c.encrypted ++ b.bytes = c.toClient ++ b.data.read 0 n ++ b.data.read n (b.len - n)
          rw [hsent, b.bytes_eq_append (Nat.le_of_lt hn), List.append_assoc]
        · obtain ⟨c₁, hsent₁, hcall⟩ := C.bind_eq_ok hcall
          obtain rfl := Conn.of_sendClient hsent₁ (hb.lateIn 0 b.len)
          cases hcall
          exact .opened rfl hr h.leaked hup hclean (ServerT.idle hsend (congrArg (· ++ b.bytes) hsent))
            (fun _ => hb.lateIn b.idx b.len) (.streaming _ hstage ⟨hok.failed, hb⟩ hr hq hconn hup' fun _ => hsend)
      · cases hcall
        exact .opened rfl rfl h.leaked hup hclean (ServerT.busy rfl (congrArg (· ++ b.bytes) hsent))
          (fun _ => hb.lateIn 0 b.len)
          (.streaming _ hstage ⟨hok.failed, hb⟩ rfl hq hconn hup' fun hr => by cases hr)
      · cases hcall
        exact .closed h.toRemote (h.toClient.trans (List.prefix_append _ _)) h.leaked
    · rw [if_pos hstage] at hcall
      cases hcall
      refine .opened rfl hr h.leaked hup hclean (ServerT.idle hsend hsent) ?_ (.stopped hstage hq ?_ ?_)
      · intro hs
        rw [show _ = _ from hsend] at hs
        cases hs
      · intro hf
        rw [show c.failed = false from hf] at hfailed
        cases hfailed
      · intro remote' hr'
        rw [show c.remote = some remote' from hr'] at hr
        cases hr
        exact ⟨hsend', fun _ => hsend⟩
  · cases hcall
    exact h.closeBoth
  · cases hcall
    exact h
  · cases hcall
    exact h.closeBoth

theorem remoteSendData_inv (h : c.Inv) (hs : c.server = some server) {buf : RelayBuf} {recv_io : Bool}
    (hup : c.decrypted = c.toRemote ++ buf.pending) (hclean : buf.Clean) (hok : c.Healthy server)
    (hquery : server.query = false) (hrecv : server.recv_io = false)
    (hphase : server.stage = .STREAM ∧ (recv_io = true → server.send_io = false) ∨
      (server.stage = .INIT ∨ server.stage = .RESOLVE) ∧ recv_io = false ∧ server.send_io = false) {s : Send}
    (hcall : remoteSendData c server ⟨buf, recv_io, true, true⟩ s = .ok c') : c'.Inv := by
  obtain ⟨hdown, hlate, -⟩ := h.server server hs
  -- the send watcher stays active
  have hwait : ∀ (buf' : RelayBuf) (out : Bytes), Conn.Phase { c with
      toRemote := out, remote := some ⟨buf', recv_io, true, true⟩ } server := by
    intro buf' out
    rcases hphase with ⟨hstage, hrw⟩ | ⟨hstage, hrecv', hsend⟩
    · refine .streaming _ hstage ⟨hok.failed, hok.clean⟩ rfl hquery rfl ?_ hrw
      intro hr
      rw [hrecv] at hr
      cases hr
    · exact .connecting _ hstage ⟨hok.failed, hok.clean⟩ rfl hrecv hsend hquery hrecv' rfl
  simp only [remoteSendData] at hcall
  split at hcall
  · cases hcall
    exact h.closeBoth
  rcases s with n | _ | _
  · dsimp only at hcall
    split at hcall
    · rename_i hn
      obtain ⟨c₁, hsent, hcall⟩ := C.bind_eq_ok hcall
      obtain rfl := Conn.of_sendRemote hsent (hclean.lateIn _ _)
      cases hcall
      refine .opened hs rfl h.leaked (RemoteT.busy rfl ?_) ?_ hdown hlate (hwait _ _)
      · rw [hup, Buffer.pending_eq_append _ (Nat.le_of_lt hn), ← List.append_assoc]
        rfl
      · exact fun i => hclean i
    · obtain ⟨c₁, hsent, hcall⟩ := C.bind_eq_ok hcall
      obtain rfl := Conn.of_sendRemote hsent (hclean.lateIn _ _)
      dsimp only at hcall
      rcases hphase with ⟨hstage, hrw⟩ | ⟨hstage, hrecv', hsend⟩
      · rw [if_pos hstage] at hcall
        cases hcall
        exact .opened rfl rfl h.leaked (RemoteT.idle rfl hup) (fun i => hclean i) hdown hlate
          (.streaming _ hstage ⟨hok.failed, hok.clean⟩ rfl hquery rfl (fun _ => rfl) hrw)
      · rw [if_neg (by rcases hstage with hst | hst <;> rw [hst] <;> decide)] at hcall
        cases hcall
        exact .opened rfl rfl h.leaked (RemoteT.idle rfl hup) (fun i => hclean i) hdown hlate
          (.streaming _ rfl ⟨hok.failed, hok.clean⟩ rfl hquery rfl (fun _ => rfl) fun _ => hsend)
  · cases hcall
    exact .opened hs rfl h.leaked (RemoteT.busy rfl hup) hclean hdown hlate (hwait _ _)
  · cases hcall
    exact h.closeBoth

theorem Conn.Phase.of_remote_send (h : c.Phase server) (hr : c.remote = some remote) (hsend : remote.send_io = true) :
    c.Healthy server ∧ server.query = false ∧ server.recv_io = false ∧
      (server.stage = .STREAM ∧ (remote.recv_io = true → server.send_io = false) ∧ remote.connected = true ∨
        (server.stage = .INIT ∨ server.stage = .RESOLVE) ∧ remote.recv_io = false ∧ server.send_io = false) := by
  rcases h with ⟨-, -, hr'⟩ | ⟨-, -, hr'⟩ | ⟨remote', hstage, hok, hr', hrecv, hsend', hq, hrecv', -⟩ |
    ⟨remote', hstage, hok, hr', hq, hconn, hup, hdown⟩ | ⟨-, -, -, hremote⟩
  · rw [hr] at hr'
    cases hr'
  · rw [hr] at hr'
    cases hr'
  · rw [hr] at hr'
    cases hr'
    exact ⟨hok, hq, hrecv, .inr ⟨hstage, hrecv', hsend'⟩⟩
  · rw [hr] at hr'
    cases hr'
    refine ⟨hok, hq, ?_, .inl ⟨hstage, hdown, hconn⟩⟩
    by_contra hrecv
    rw [hup (by simpa using hrecv)] at hsend
    cases hsend
  · rw [(hremote remote hr).1] at hsend
    cases hsend

theorem remote_send_cb_inv (h : c.Inv) (hr : c.remote = some remote) (hsend : remote.send_io = true)
    {connected : Bool} {s : Send} (hcall : remote_send_cb c remote connected s = .ok c') : c'.Inv := by
  simp only [remote_send_cb] at hcall
  split at hcall
  · rename_i hs
    cases hcall
    exact h.close_and_free_remote hs
  rename_i server hs
  obtain ⟨hdown, hlate, hphase⟩ := h.server server hs
  obtain ⟨hup, hclean⟩ := h.remote remote hr
  obtain ⟨hok, hq, hrecv, hphase⟩ := hphase.of_remote_send hr hsend
  rcases remote with ⟨buf, recv_io, send_io, conn⟩
  obtain rfl : send_io = true := hsend
  have hphase' : server.stage = .STREAM ∧ (recv_io = true → server.send_io = false) ∨
      (server.stage = .INIT ∨ server.stage = .RESOLVE) ∧ recv_io = false ∧ server.send_io = false :=
    hphase.imp_left fun hst => ⟨hst.1, hst.2.1⟩
  split at hcall
  · rename_i hconn
    obtain rfl : conn = true := hconn
    exact remoteSendData_inv h hs hup hclean hok hq hrecv hphase' hcall
  rename_i hconn
  split at hcall
  · dsimp only at hcall
    split at hcall
    · -- fast open has taken everything
      rename_i hlen
      rcases hphase with ⟨-, -, hc⟩ | ⟨-, -, hsend'⟩
      · exact absurd hc hconn
      cases hcall
      refine .opened rfl rfl h.leaked (RemoteT.idle rfl ?_) hclean hdown hlate
        (.streaming _ rfl ⟨hok.failed, hok.clean⟩ rfl hq rfl (fun _ => rfl) fun _ => hsend')
      rw [hup, RemoteT.unsent, if_pos rfl, Buffer.pending, hlen]
      exact List.append_nil _
    · exact remoteSendData_inv h hs hup hclean hok hq hrecv hphase' hcall
  · cases hcall
    exact h.closeBoth

end

/-! ### Runs -/

theorem acceptedConn_inv (g : G) (junk : Block) (e_ctx d_ctx : Ctx) : (acceptedConn g junk e_ctx d_ctx).Inv := by
  refine .alone rfl rfl rfl List.prefix_rfl (ServerT.idle rfl rfl) ?_ (.header rfl ⟨rfl, fun _ => rfl⟩ rfl rfl rfl rfl)
  intro hs
  cases hs

theorem Conn.Inv.other {c : Conn Ctx G} (h : c.Inv) (g : G) : Conn.Inv { c with g } := by
  refine ⟨h.toRemote, h.toClient, h.leaked, h.remote, ?_⟩
  intro server hs
  obtain ⟨hdown, hlate, hphase⟩ := h.server server hs
  refine ⟨hdown, hlate, ?_⟩
  rcases hphase with ⟨hst, hok, hr, hsend, hq, hnew⟩ | ⟨hst, hok, hr, hrecv, hsend, hpayload⟩ |
    ⟨remote, hst, hok, hr, hrecv, hsend, hq, hrecv', hsend'⟩ | ⟨remote, hst, hok, hr, hq, hconn, hup, hdown⟩ |
    ⟨hst, hq, hok, hr⟩
  · exact .header hst ⟨hok.failed, hok.clean⟩ hr hsend hq hnew
  · exact .resolving hst ⟨hok.failed, hok.clean⟩ hr hrecv hsend hpayload
  · exact .connecting remote hst ⟨hok.failed, hok.clean⟩ hr hrecv hsend hq hrecv' hsend'
  · exact .streaming remote hst ⟨hok.failed, hok.clean⟩ hr hq hconn hup hdown
  · exact .stopped hst hq hok hr

theorem Option.of_bind_ite {α β : Type} {o : Option α} {p : α → Bool} {f : α → β} {b : β}
    (h : (o.bind fun a => if p a then some (f a) else none) = some b) : ∃ a, o = some a ∧ p a = true ∧ f a = b := by
  obtain ⟨a, ha, h⟩ := Option.bind_eq_some_iff.1 h
  split at h
  · exact ⟨a, ha, ‹_›, Option.some.inj h⟩
  · cases h

theorem Conn.Inv.fire {K : CryptoT Ctx G} {N : NetLib} {c c' : Conn Ctx G} {e : RelayEvent G} (h : c.Inv)
    (hquiet : Undisturbed c e) (hstep : c.fire K N e = some (.ok c')) : c'.Inv := by
  rcases e with ⟨junk, r, s, t⟩ | s | ⟨junk, addr, t⟩ | ⟨r, s⟩ | ⟨connected, s⟩ | _ | g
  · obtain ⟨server, hs, hio, hcall⟩ := Option.of_bind_ite hstep
    rw [Bool.and_eq_true] at hio
    exact server_recv_cb_inv h hs hio.1 hquiet hcall
  · obtain ⟨server, hs, hio, hcall⟩ := Option.of_bind_ite hstep
    exact server_send_cb_inv h hs hio hcall
  · obtain ⟨server, hs, hio, hcall⟩ := Option.of_bind_ite hstep
    exact resolv_cb_inv h hs hio hcall
  · obtain ⟨remote, hr, hio, hcall⟩ := Option.of_bind_ite hstep
    rw [Bool.and_eq_true] at hio
    exact remote_recv_cb_inv h hr hio.1 hcall
  · obtain ⟨remote, hr, hio, hcall⟩ := Option.of_bind_ite hstep
    exact remote_send_cb_inv h hr hio hcall
  · obtain ⟨server, -, hcall⟩ := Option.map_eq_some_iff.1 hstep
    cases hcall
    exact h.closeBoth
  · cases hstep
    exact h.other g

/-- Before a segment has failed to decrypt, nothing is disturbed. -/
theorem Conn.Inv.undisturbed {c : Conn Ctx G} (h : c.Inv) (hf : c.failed = false) (e : RelayEvent G) :
    Undisturbed c e := by
  rcases e with ⟨_, _, _, _⟩ | _ | _ | _ | _ | _ | _
  · intro server hs hstage hsend
    obtain ⟨-, hok, -⟩ := (h.server server hs).2.2.of_stop hstage
    rw [(hok hf).2.1] at hsend
    cases hsend
  all_goals exact trivial

end OutlineServer
