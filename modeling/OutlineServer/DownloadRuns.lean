import OutlineServer.Download

/-!
# Runs of ss-local in both directions

A run in both directions is one of `client`, in which the direction to the client is not looked at (`Duplex.of_reach`).
Whatever the cuts and the order of the callbacks, the client gets what the answer decrypts to (`download_segmentation`).
-/

namespace OutlineServer.Local

section
variable {Ctx G : Type} {K : CryptoT Ctx G} {A : Option AclT} {fresh : Ctx → G → Prop} {e_ctx d_ctx : Ctx}
  {stream : Bytes} {d d' : Duplex Ctx G} {server : ServerT Ctx} {remote : RemoteT} {r : Recv} {s : Send}

/-! ### What the callbacks do to the rest of a connection -/

/-- The connection is closed, or only the crypto code and `server->buf` have changed. -/
inductive Duplex.Passes (d : Duplex Ctx G) (server : ServerT Ctx) (d' : Duplex Ctx G) : Prop
  | closed (g : G) (h : d'.conn = ({ d.conn with g } : Conn Ctx G).closeBoth)
  | kept (g : G) (buf : Buffer) (h : d'.conn = { d.conn with g, server := some { server with buf } })

theorem of_sendClient {buf : Buffer} {off n : Nat} (h : d.sendClient buf off n = .ok d') :
    d' = { d with toClient := d.toClient ++ buf.data.read off n } := by
  obtain ⟨bs, hget, h⟩ := C.bind_eq_ok h
  obtain ⟨-, rfl⟩ := Buffer.of_get hget
  cases h
  rfl

theorem sendClient_ok {buf : Buffer} {off n : Nat} (h : off + n ≤ buf.capacity) :
    d.sendClient buf off n = .ok { d with toClient := d.toClient ++ buf.data.read off n } := by
  rw [Duplex.sendClient, Buffer.get_ok h]
  rfl

theorem remoteRecvSend_passes {buf : Buffer} (h : remoteRecvSend d server buf s = .ok d') :
    d.Passes server d' ∧ d'.fetched = d.fetched := by
  rcases s with n | _ | _
  · rw [remoteRecvSend] at h
    split at h
    · obtain ⟨d₁, hsent, h⟩ := C.bind_eq_ok h
      obtain rfl := of_sendClient hsent
      cases h
      exact ⟨.kept _ _ rfl, rfl⟩
    · obtain ⟨d₁, hsent, h⟩ := C.bind_eq_ok h
      obtain rfl := of_sendClient hsent
      cases h
      exact ⟨.kept _ _ rfl, rfl⟩
  · cases h
    exact ⟨.kept _ _ rfl, rfl⟩
  · cases h
    exact ⟨.closed _ rfl, rfl⟩

theorem remote_recv_cb_passes (hs : d.conn.server = some server) (h : remote_recv_cb K d remote r s = .ok d') :
    d.Passes server d' ∧ d'.fetched = d.fetched ++ r.bytes := by
  have hsame : ∀ {bs : Bytes}, bs = [] → d.fetched = d.fetched ++ bs := by
    rintro _ rfl
    exact (List.append_nil _).symm
  simp only [remote_recv_cb, hs] at h
  rcases r with bs | _ | _ | _
  · obtain ⟨buf, -, h⟩ := C.bind_eq_ok h
    split at h
    · obtain ⟨hpasses, hfetched⟩ := remoteRecvSend_passes h
      refine ⟨?_, hfetched⟩
      rcases hpasses with ⟨g, hconn⟩ | ⟨g, buf, hconn⟩
      · exact .closed g hconn
      · exact .kept g buf hconn
    · obtain ⟨⟨ret, buf, d_ctx, g⟩, -, h⟩ := C.bind_eq_ok h
      cases ret with
      | CRYPTO_ERROR =>
        cases h
        exact ⟨.closed g rfl, rfl⟩
      | CRYPTO_NEED_MORE =>
        cases h
        exact ⟨.kept g buf rfl, rfl⟩
      | CRYPTO_OK =>
        obtain ⟨hpasses, hfetched⟩ := remoteRecvSend_passes h
        refine ⟨?_, hfetched⟩
        rcases hpasses with ⟨g, hconn⟩ | ⟨g, buf, hconn⟩
        · exact .closed g hconn
        · exact .kept g buf hconn
  · cases h
    exact ⟨.closed _ rfl, hsame rfl⟩
  · cases h
    refine ⟨.kept d.conn.g server.buf ?_, hsame rfl⟩
    rw [← hs]
  · cases h
    exact ⟨.closed _ rfl, hsame rfl⟩

theorem server_send_cb_passes (hs : d.conn.server = some server) (h : server_send_cb d server s = .ok d') :
    d.Passes server d' ∧ d'.fetched = d.fetched := by
  simp only [server_send_cb] at h
  split at h
  · cases h
    exact ⟨.closed _ rfl, rfl⟩
  rcases s with n | _ | _
  · dsimp only at h
    split at h
    · obtain ⟨d₁, hsent, h⟩ := C.bind_eq_ok h
      obtain rfl := of_sendClient hsent
      cases h
      exact ⟨.kept _ _ rfl, rfl⟩
    · obtain ⟨d₁, hsent, h⟩ := C.bind_eq_ok h
      obtain rfl := of_sendClient hsent
      split at h
      · cases h
      · cases h
        exact ⟨.kept _ _ rfl, rfl⟩
  · cases h
    refine ⟨.kept d.conn.g server.buf ?_, rfl⟩
    rw [← hs]
  · cases h
    exact ⟨.closed _ rfl, rfl⟩

/-! ### Refinement -/

theorem Duplex.Passes.run (h : d.Passes server d') (hs : d.conn.server = some server) (hconn : d.conn.connected = true)
    (hrec : d.conn.received <+: stream) : ∃ es, (client K A e_ctx stream).Run d.conn es d'.conn := by
  have hstep : ∀ {c c' : Conn Ctx G} (e : Event G), e.data = [] → c.received <+: stream →
      c.fire K A e = some (.ok c') → (client K A e_ctx stream).step c e c' := by
    intro c c' e hdata hrec hfire
    refine ⟨?_, hfire⟩
    rwa [hdata, List.append_nil]
  rcases h with ⟨g, h⟩ | ⟨g, buf, h⟩
  · rw [h]
    exact ⟨_, .cons (hstep (.other g) rfl hrec rfl) (.cons (hstep .close rfl hrec rfl) (.nil _))⟩
  · have hdown : Conn.fire K A { d.conn with g } (.download buf) =
        some (.ok { d.conn with g, server := some { server with buf } }) := by
      simp only [Conn.fire, hs, Option.bind_some]
      exact if_pos hconn
    rw [h]
    exact ⟨_, .cons (hstep (.other g) rfl hrec rfl) (.cons (hstep (.download buf) rfl hrec hdown) (.nil _))⟩

/-- A run in both directions has a run of `client`, and nothing comes from `remote` before it is connected. -/
structure Duplex.Linked (K : CryptoT Ctx G) (A : Option AclT) (e_ctx : Ctx) (stream : Bytes) (d : Duplex Ctx G) :
    Prop where
  conn : (client K A e_ctx stream).Reach d.conn
  quiet : d.conn.server ≠ none → d.conn.connected = false → d.recv_io = false ∧ d.send_io = false ∧ d.fetched = []

theorem Duplex.Passes.quiet (h : d.Passes server d') (hconn : d.conn.connected = true) :
    d'.conn.server ≠ none → d'.conn.connected = false → d'.recv_io = false ∧ d'.send_io = false ∧ d'.fetched = [] := by
  intro hopen hnot
  rcases h with ⟨g, h⟩ | ⟨g, buf, h⟩
  · rw [h] at hopen
    exact absurd rfl hopen
  · have hsame : d'.conn.connected = d.conn.connected := by
      rw [h]
      rfl
    rw [hsame, hconn] at hnot
    cases hnot

theorem Duplex.fire_upload {e : Event G} {x : C (Duplex Ctx G)} (h : d.fire K A (.upload e) = some x) :
    (∀ buf, e ≠ .download buf) ∧ ∃ y, d.conn.fire K A e = some y ∧ x = (do return d.upload (← y)) := by
  have hne : ∀ buf, e ≠ .download buf := by
    rintro buf rfl
    cases h
  have hfire : d.fire K A (.upload e) = (d.conn.fire K A e).map fun x => do return d.upload (← x) := by
    cases e with
    | download buf => exact absurd rfl (hne buf)
    | serverRecv | delayedConnect | remoteSend | close | other => rfl
  rw [hfire] at h
  obtain ⟨y, hy, hx⟩ := Option.map_eq_some_iff.1 h
  exact ⟨hne, y, hy, hx.symm⟩

end

section
variable {Ctx G : Type} {K : CryptoT Ctx G} {A : Option AclT} {q : ClientStream} {fresh₀ fresh : Ctx → G → Prop}
  {d₀ d_ctx e_ctx : Ctx} {Counts : Nat → Prop} {Whole : List Bytes → Prop} {sends : Bytes → Bytes → Ctx → Prop}
  {c c' : Conn Ctx G} {d d' : Duplex Ctx G} {server : ServerT Ctx} {remote : RemoteT}

theorem Inv.stage_stream (h : Inv q A sends c) (hs : c.server = some server) :
    server.stage = .STREAM ∨ c.remote = none := by
  obtain ⟨-, -, -, hu⟩ | ⟨-, -, -, hu⟩ | ⟨remote, -, -, hready⟩ | ⟨remote, -, hsending⟩ := h.server server hs
  · exact .inr hu.remote
  · exact .inr hu.remote
  · exact .inl hready.stage
  · exact .inl hsending.stage

theorem Duplex.Linked.step (h : d.Linked K A e_ctx q.bytes) (hinv : Local.Inv q A sends d.conn) {e : DuplexEvent G}
    (hstep : (duplex K A fresh e_ctx d_ctx q.bytes).step d e d') :
    (∃ es, (client K A e_ctx q.bytes).Run d.conn es d'.conn) ∧ d'.Linked K A e_ctx q.bytes := by
  obtain ⟨hdata, hfire, -⟩ := hstep
  -- a callback of the download runs only when `remote` is connected
  have hpasses : ∀ server, d.conn.server = some server → d.recv_io = true ∨ d.send_io = true →
      d.Passes server d' → (∃ es, (client K A e_ctx q.bytes).Run d.conn es d'.conn) ∧ d'.Linked K A e_ctx q.bytes := by
    intro server hs hio hpass
    have hconn : d.conn.connected = true := by
      by_contra hnot
      obtain ⟨hrecv, hsend, -⟩ := h.quiet (by rw [hs]; exact nofun) (by simpa using hnot)
      rw [hrecv, hsend] at hio
      exact hio.elim nofun nofun
    obtain ⟨es, hrun⟩ : ∃ es, (client K A e_ctx q.bytes).Run d.conn es d'.conn := hpass.run hs hconn hinv.received
    exact ⟨⟨es, hrun⟩, hrun.reach h.conn, hpass.quiet hconn⟩
  cases e with
  | upload e =>
    obtain ⟨hdown, y, hy, hx⟩ := Duplex.fire_upload hfire
    obtain ⟨c', hc', hx⟩ := C.bind_eq_ok hx.symm
    cases hx
    subst hc'
    obtain ⟨hnone, hleaves⟩ := fire_leaves (fun server hs => hinv.stage_stream hs) hdown hy
    have hstep' : (client K A e_ctx q.bytes).step d.conn e c' := ⟨hdata, hy⟩
    refine ⟨⟨_, .cons hstep' (.nil _)⟩, h.conn.step hstep', fun hopen hnot => ?_⟩
    have hopen' : c'.server ≠ none := hopen
    have hnot' : c'.connected = false := hnot
    obtain ⟨server, hs⟩ : ∃ server, d.conn.server = some server := by
      refine Option.ne_none_iff_exists'.1 fun hs => hopen' (hnone hs).1
    have hbefore : d.conn.connected = false := by
      by_contra hconn
      have hstays := (hleaves server hs).connected (by simpa using hconn) hopen'
      rw [hstays] at hnot'
      cases hnot'
    obtain ⟨hrecv, hsend, hfetched⟩ := h.quiet (by rw [hs]; exact nofun) hbefore
    refine ⟨?_, hsend, hfetched⟩
    simp only [Duplex.upload, hrecv, hnot', Bool.and_false, Bool.or_false]
  | remoteRecv r s =>
    obtain ⟨remote, hr, hen, hcall⟩ := Option.of_bind_ite hfire
    obtain ⟨server, hs⟩ : ∃ server, d.conn.server = some server := by
      refine Option.ne_none_iff_exists'.1 fun hs => ?_
      rw [hinv.closed hs] at hr
      cases hr
    rw [Bool.and_eq_true] at hen
    exact hpasses server hs (.inl hen.1) (remote_recv_cb_passes hs hcall).1
  | serverSend s =>
    obtain ⟨server, hs, hen, hcall⟩ := Option.of_bind_ite hfire
    exact hpasses server hs (.inr hen) (server_send_cb_passes hs hcall).1

theorem Duplex.Linked.of_reach (hK : Encodes K fresh₀ d₀ Counts q.address Whole sends)
    (hcount : ∀ n ≤ (q.address ++ q.payload).length, Counts n) (hinit : sends [] [] e_ctx)
    (h : (duplex K A fresh e_ctx d_ctx q.bytes).Reach d) : d.Linked K A e_ctx q.bytes := by
  refine h.invariant ?_ ?_
  · rintro d ⟨g, junk, junk', -, rfl⟩
    exact ⟨.init ⟨g, junk, junk', rfl⟩, fun _ _ => ⟨rfl, rfl, rfl⟩⟩
  · intro d e d' _ hlinked hstep
    exact (hlinked.step (Inv.of_reach hK hcount hinit hlinked.conn) hstep).2

/-! ### What the client gets -/

variable {wire plain : Bytes} {D : Bytes → Bytes} {R : Bytes → G → Ctx → Prop} {r : Recv} {s : Send} {buf : Buffer}

/-- What has come from `remote`, decrypted if it is encrypted. -/
def Duplex.answer (D : Bytes → Bytes) (d : Duplex Ctx G) : Bytes := if d.conn.direct then d.fetched else D d.fetched

theorem Duplex.answer_direct (h : d.conn.direct = true) : d.answer D = d.fetched := if_pos h

theorem Duplex.answer_encrypted (h : d.conn.direct = false) : d.answer D = D d.fetched :=
  if_neg (by rw [h]; exact Bool.false_ne_true)

inductive Duplex.Phase (D : Bytes → Bytes) (d : Duplex Ctx G) (server : ServerT Ctx) : Prop
  | waiting (hconn : d.conn.connected = false) (hrecv : d.recv_io = false) (hsend : d.send_io = false)
      (hfetched : d.fetched = []) (hclient : d.toClient = [])
  | reading (hconn : d.conn.connected = true) (hrecv : d.recv_io = true) (hsend : d.send_io = false)
      (hclient : d.toClient = d.answer D)
  | writing (hconn : d.conn.connected = true) (hrecv : d.recv_io = false) (hsend : d.send_io = true)
      (hclient : d.toClient ++ server.buf.pending = d.answer D) (hpos : 0 < server.buf.len)
      (hfits : server.buf.idx + server.buf.len ≤ server.buf.capacity)

structure Duplex.Open (D : Bytes → Bytes) (R : Bytes → G → Ctx → Prop) (d : Duplex Ctx G) (server : ServerT Ctx) :
    Prop where
  room : SOCKET_BUF_SIZE ≤ server.buf.capacity
  phase : d.Phase D server
  receives : d.conn.direct = false → R d.fetched d.conn.g d.d_ctx

structure Duplex.Inv (q : ClientStream) (A : Option AclT) (sends : Bytes → Bytes → Ctx → Prop) (D : Bytes → Bytes)
    (R : Bytes → G → Ctx → Prop) (d : Duplex Ctx G) : Prop where
  conn : Local.Inv q A sends d.conn
  toClient : d.toClient <+: d.answer D
  server : ∀ server, d.conn.server = some server → d.Open D R server

/-- The computation ends in a connection that keeps the invariant, and is open if `good`. -/
def Duplex.Ends (q : ClientStream) (A : Option AclT) (sends : Bytes → Bytes → Ctx → Prop) (D : Bytes → Bytes)
    (R : Bytes → G → Ctx → Prop) (good : Prop) (x : C (Duplex Ctx G)) : Prop :=
  ∃ d', x = .ok d' ∧ d'.Inv q A sends D R ∧ (good → d'.conn.server ≠ none)

theorem Duplex.Ends.mono {good good' : Prop} {x : C (Duplex Ctx G)} (h : Ends q A sends D R good x)
    (hg : good' → good) : Ends q A sends D R good' x := by
  obtain ⟨d', hx, hinv, ho⟩ := h
  exact ⟨d', hx, hinv, fun hgood => ho (hg hgood)⟩

/-- Another state of the crypto code. -/
theorem Inv.other (h : Inv q A sends c) (g : G) : Inv q A sends { c with g } := by
  cases hs : c.server with
  | none => exact ⟨⟨⟨h.received, h.replies, h.bypassed⟩, h.uploaded⟩, nofun, fun _ => h.closed hs⟩
  | some server => exact h.keep hs g (fun _ => rfl) id

theorem Duplex.Inv.close (h : Local.Inv q A sends d.conn) (hclient : d.toClient <+: d.answer D) :
    d.closeBoth.Inv q A sends D R :=
  ⟨h.closeBoth, hclient, by rintro _ ⟨⟩⟩

/-- The connection is open, with `server->buf` in the state `buf`. -/
theorem Duplex.Inv.put (h : Local.Inv q A sends d.conn) (hs : d.conn.server = some server)
    (hconn : d.conn.connected = true) (hroom : SOCKET_BUF_SIZE ≤ buf.capacity)
    (hphase : (d.putServer { server with buf }).Phase D { server with buf })
    (hrec : d.conn.direct = false → R d.fetched d.conn.g d.d_ctx) (hclient : d.toClient <+: d.answer D) :
    (d.putServer { server with buf }).Inv q A sends D R := by
  refine ⟨?_, hclient, ?_⟩
  · exact h.keep hs d.conn.g (fun hr => absurd hr (Conn.remote_of_connected hconn)) id
  · rintro _ ⟨⟩
    exact ⟨hroom, hphase, hrec⟩

/-- The bytes of `buf` are sent, or wait in it. -/
theorem remoteRecvSend_ends (h : Local.Inv q A sends d.conn) (hs : d.conn.server = some server)
    (hconn : d.conn.connected = true) (hrecv : d.recv_io = true) (hsend : d.send_io = false)
    (hbuf : buf.Hands SOCKET_BUF_SIZE) (hne : buf.bytes ≠ []) (hclient : d.toClient ++ buf.bytes = d.answer D)
    (hrec : d.conn.direct = false → R d.fetched d.conn.g d.d_ctx) (s : Send) :
    Duplex.Ends q A sends D R (s ≠ .error) (remoteRecvSend d server buf s) := by
  have hpos : 0 < buf.len := by
    rw [← buf.length_bytes]
    exact List.length_pos_iff.2 hne
  have hfits := hbuf.fits
  have hpart : d.toClient <+: d.answer D := ⟨_, hclient⟩
  rcases s with n | _ | _
  · rw [remoteRecvSend]
    split
    · rename_i hlt
      have hsplit := buf.bytes_eq_append (Nat.le_of_lt hlt)
      rw [hsplit, ← List.append_assoc] at hclient
      rw [sendClient_ok (by omega), C.ok_bind]
      refine ⟨_, rfl, Duplex.Inv.put (d := { d with
        recv_io := false, send_io := true, toClient := d.toClient ++ buf.data.read 0 n }) h hs hconn hbuf.room
        (.writing hconn rfl rfl hclient (Nat.sub_pos_of_lt hlt) ?_) hrec ⟨_, hclient⟩, fun _ => nofun⟩
      simp only
      omega
    · rw [sendClient_ok (by omega), C.ok_bind]
      have hall : d.toClient ++ buf.data.read 0 buf.len = d.answer D := hclient
      exact ⟨_, rfl, Duplex.Inv.put (d := { d with toClient := d.toClient ++ buf.data.read 0 buf.len }) h hs hconn
        hbuf.room (.reading hconn hrecv hsend hall) hrec (hall ▸ List.prefix_rfl), fun _ => nofun⟩
  · refine ⟨_, rfl, Duplex.Inv.put (d := { d with recv_io := false, send_io := true }) h hs hconn hbuf.room
      (.writing hconn rfl rfl hclient hpos ?_) hrec hpart, fun _ => nofun⟩
    simp only
    omega
  · exact ⟨_, rfl, .close h hpart, fun hgood => absurd rfl hgood⟩

theorem remote_recv_cb_ends (hdec : Decodes K wire plain D fresh R) (h : d.Inv q A sends D R)
    (hr : d.conn.remote = some remote) (hrecv : d.recv_io = true) (hposs : r.possible = true)
    (hfed : d.conn.direct = false → d.fetched ++ r.bytes <+: wire) :
    Duplex.Ends q A sends D R (r ≠ .eof ∧ r ≠ .error ∧ s ≠ .error) (remote_recv_cb K d remote r s) := by
  obtain ⟨server, hs⟩ : ∃ server, d.conn.server = some server := by
    refine Option.ne_none_iff_exists'.1 fun hs => ?_
    rw [h.conn.closed hs] at hr
    cases hr
  obtain ⟨hroom, hphase, hrec⟩ := h.server server hs
  obtain ⟨hconn, hsend, hclient⟩ : d.conn.connected = true ∧ d.send_io = false ∧ d.toClient = d.answer D := by
    rcases hphase with ⟨-, hrecv', -⟩ | ⟨hconn, -, hsend, hclient⟩ | ⟨-, hrecv', -⟩
    · rw [hrecv'] at hrecv
      cases hrecv
    · exact ⟨hconn, hsend, hclient⟩
    · rw [hrecv'] at hrecv
      cases hrecv
  have hdirect : remote.direct = d.conn.direct := by
    obtain ⟨-, -, -, hu⟩ | ⟨-, -, -, hu⟩ | ⟨remote', hr', -, hready⟩ | ⟨remote', hr', hsending⟩ :=
      h.conn.server server hs
    · rw [hu.remote] at hr
      cases hr
    · rw [hu.remote] at hr
      cases hr
    · rw [hr] at hr'
      cases hr'
      exact hready.direct
    · rw [hr] at hr'
      cases hr'
      exact hsending.direct
  unfold remote_recv_cb
  split
  · rename_i hnone
    rw [hs] at hnone
    cases hnone
  · exact ⟨_, rfl, h, fun _ => by rw [hs]; exact Option.some_ne_none _⟩
  · exact ⟨_, rfl, .close h.conn h.toClient, fun hgood => absurd rfl hgood.1⟩
  · exact ⟨_, rfl, .close h.conn h.toClient, fun hgood => absurd rfl hgood.2.1⟩
  · rename_i bs hs'
    obtain rfl : server = _ := Option.some.inj (hs.symm.trans hs')
    have hp : bs ≠ [] ∧ bs.length ≤ SOCKET_BUF_SIZE := by simpa [Recv.possible] using hposs
    have hput : server.buf.put 0 bs = .ok { server.buf with data := server.buf.data.write 0 bs } :=
      Buffer.put_ok (by omega)
    have hbytes : ({ server.buf with data := server.buf.data.write 0 bs, len := bs.length } : Buffer).bytes = bs :=
      Block.read_write_same _ _ _
    have hbuf : ({ server.buf with data := server.buf.data.write 0 bs, len := bs.length } : Buffer).Hands
        SOCKET_BUF_SIZE := ⟨hroom, hp.2.trans hroom⟩
    simp only [hput, C.ok_bind]
    split
    · rename_i hdir
      rw [hdirect] at hdir
      rw [Duplex.answer_direct hdir] at hclient
      refine (remoteRecvSend_ends (d := { d with fetched := d.fetched ++ bs }) h.conn hs hconn hrecv hsend hbuf ?_ ?_ ?_
        s).mono fun hgood => hgood.2.2
      · rw [hbytes]
        exact hp.1
      · rw [hbytes, hclient]
        exact (if_pos hdir).symm
      · rw [hdir]
        rintro ⟨⟩
    · rename_i hdir
      rw [hdirect] at hdir
      have hdir' : d.conn.direct = false := by simpa using hdir
      rw [Duplex.answer_encrypted hdir'] at hclient
      obtain ⟨ret, b, ctx, g, out, hcall, hD, hanswers, hb, hR⟩ := hdec.decrypt (hrec hdir') hbuf
        (List.length_pos_iff.2 hp.1) (by rw [hbytes]; exact hfed hdir')
      rw [hbytes] at hD hR
      simp only [hcall, C.ok_bind]
      cases hanswers with
      | more hout =>
        rw [hout, List.append_nil] at hD
        have hall := hclient.trans hD.symm
        refine ⟨_, rfl, Duplex.Inv.put
          (d := { d with fetched := d.fetched ++ bs, d_ctx := ctx, conn := { d.conn with g } })
          (h.conn.other g) hs hconn hb.room (.reading hconn hrecv hsend ?_) (fun _ => hR) ?_,
            fun _ => Option.some_ne_none _⟩
        · exact hall.trans (if_neg hdir).symm
        · exact (hall.trans (if_neg hdir).symm) ▸ List.prefix_rfl
      | ok hout hne =>
        have hall : d.toClient ++ b.bytes = D (d.fetched ++ bs) := by rw [hout, hD, hclient]
        exact Duplex.Ends.mono (remoteRecvSend_ends
          (d := { d with fetched := d.fetched ++ bs, d_ctx := ctx, conn := { d.conn with g } }) (h.conn.other g) hs
            hconn
          hrecv hsend hb (hout ▸ hne) (hall.trans (if_neg hdir).symm) (fun _ => hR) s)
          fun hgood => hgood.2.2

theorem server_send_cb_ends (h : d.Inv q A sends D R) (hs : d.conn.server = some server) (hsend : d.send_io = true)
    (s : Send) : Duplex.Ends q A sends D R (s ≠ .error) (server_send_cb d server s) := by
  obtain ⟨hroom, hphase, hrec⟩ := h.server server hs
  rcases hphase with ⟨-, -, hsend', -⟩ | ⟨-, -, hsend', -⟩ | ⟨hconn, hrecv, -, hclient, hpos, hfits⟩
  · rw [hsend'] at hsend
    cases hsend
  · rw [hsend'] at hsend
    cases hsend
  obtain ⟨remote, hr⟩ := Option.ne_none_iff_exists'.1 (Conn.remote_of_connected hconn)
  unfold server_send_cb
  rw [if_neg (by omega)]
  split
  · exact ⟨_, rfl, .close h.conn h.toClient, fun hgood => absurd rfl hgood⟩
  · exact ⟨_, rfl, h, fun _ => by rw [hs]; exact nofun⟩
  · rename_i n
    split
    · rename_i hlt
      have hsplit := server.buf.pending_eq_append (Nat.le_of_lt hlt)
      rw [hsplit, ← List.append_assoc] at hclient
      rw [sendClient_ok (by omega), C.ok_bind]
      refine ⟨_, rfl, Duplex.Inv.put (d := { d with toClient := d.toClient ++ server.buf.data.read server.buf.idx n })
        h.conn hs hconn hroom (.writing hconn hrecv hsend hclient (Nat.sub_pos_of_lt hlt) ?_) hrec ⟨_, hclient⟩,
        fun _ => nofun⟩
      simp only
      omega
    · rw [sendClient_ok (by omega), C.ok_bind]
      simp only [hr]
      have hall : d.toClient ++ server.buf.data.read server.buf.idx server.buf.len = d.answer D := hclient
      exact ⟨_, rfl, Duplex.Inv.put (d := { d with
        send_io := false, recv_io := true, toClient :=
          d.toClient ++ server.buf.data.read server.buf.idx server.buf.len })
        h.conn hs hconn hroom (.reading hconn rfl rfl hall) hrec (hall ▸ List.prefix_rfl), fun _ => nofun⟩

/-- The other direction: the download starts when `remote` is found to be connected. -/
theorem Duplex.Inv.upload (hK : Encodes K fresh₀ d₀ Counts q.address Whole sends)
    (hcount : ∀ n ≤ (q.address ++ q.payload).length, Counts n) (hdec : Decodes K wire plain D fresh R)
    (hnil : D [] = [])
    (h : d.Inv q A sends D R) {e : Event G} (hdown : ∀ buf, e ≠ .download buf)
    (hdata : d.conn.received ++ e.data <+: q.bytes)
    {x : C (Conn Ctx G)} (hfire : d.conn.fire K A e = some x) :
    ∃ c', x = .ok c' ∧ (fresh d.d_ctx c'.g → (d.upload c').Inv q A sends D R) ∧
      (e.Good ∧ d.conn.server ≠ none → c'.server ≠ none) := by
  obtain ⟨c', rfl, hinv', ho⟩ := h.conn.fire hK hcount hdata hfire
  obtain ⟨hnone, hleaves⟩ := fire_leaves (fun server hs => h.conn.stage_stream hs) hdown hfire
  refine ⟨c', rfl, fun hfresh => ?_, ho⟩
  have hanswer : c'.direct = d.conn.direct → (d.upload c').answer D = d.answer D := by
    intro hdirect
    rw [Duplex.answer, Duplex.answer, Duplex.upload, hdirect]
  cases hs : d.conn.server with
  | none =>
    obtain ⟨hs', hdirect⟩ := hnone hs
    refine ⟨hinv', (hanswer hdirect).symm ▸ h.toClient, fun server' hs'' => ?_⟩
    rw [Duplex.upload, hs'] at hs''
    cases hs''
  | some server =>
    obtain ⟨hroom, hphase, hrec⟩ := h.server server hs
    have hl := hleaves server hs
    by_cases hr : d.conn.remote = none
    · -- nothing has come
      have hconn := Conn.connected_of_none hr
      obtain ⟨hrecv, hsend, hfetched, hclient⟩ :
          d.recv_io = false ∧ d.send_io = false ∧ d.fetched = [] ∧ d.toClient = [] := by
        rcases hphase with ⟨-, hrecv, hsend, hfetched, hclient⟩ | ⟨hconn', -⟩ | ⟨hconn', -⟩
        · exact ⟨hrecv, hsend, hfetched, hclient⟩
        · rw [hconn] at hconn'
          cases hconn'
        · rw [hconn] at hconn'
          cases hconn'
      have hempty : (d.upload c').answer D = [] := by
        rw [Duplex.answer, Duplex.upload, hfetched, hnil, ite_self]
      have hdirect : d.conn.direct = false := by
        obtain ⟨-, -, -, hu⟩ | ⟨-, -, -, hu⟩ | ⟨remote, hr', -⟩ | ⟨remote, hr', -⟩ := h.conn.server server hs
        · exact hu.direct
        · exact hu.direct
        · rw [hr] at hr'
          cases hr'
        · rw [hr] at hr'
          cases hr'
      have hlisten : (d.upload c').recv_io = c'.connected := by
        rw [Duplex.upload, hrecv, hconn]
        rfl
      refine ⟨hinv', ?_, fun server' hs' => ⟨?_, ?_, fun _ => hdec.other (hrec hdirect) hfresh⟩⟩
      · rw [hempty]
        exact hclient ▸ List.prefix_rfl
      · exact hroom.trans (hl.capacity server' hs').ge
      · cases hc : c'.connected with
        | false => exact .waiting hc (hlisten.trans hc) hsend hfetched hclient
        | true => exact .reading hc (hlisten.trans hc) hsend (hclient.trans hempty.symm)
    · have hdirect := hl.direct hr
      refine ⟨hinv', (hanswer hdirect).symm ▸ h.toClient, fun server' hs' => ?_⟩
      have hs'' : c'.server = some server' := hs'
      have hbuf := hl.buf hr server' hs''
      refine ⟨hbuf ▸ hroom, ?_, fun hdir => hdec.other (hrec (hdirect ▸ hdir)) hfresh⟩
      have hstays := fun hconn => hl.connected hconn (by rw [hs'']; exact nofun)
      rcases hphase with ⟨hconn, hrecv, hsend, hfetched, hclient⟩ | ⟨hconn, hrecv, hsend, hclient⟩ |
        ⟨hconn, hrecv, hsend, hclient, hpos, hfits⟩
      · have hlisten : (d.upload c').recv_io = c'.connected := by
          rw [Duplex.upload, hrecv, hconn]
          rfl
        have hempty : d.answer D = [] := by
          rw [Duplex.answer, hfetched, hnil, ite_self]
        cases hc : c'.connected with
        | false => exact .waiting hc (hlisten.trans hc) hsend hfetched hclient
        | true =>
          refine .reading hc (hlisten.trans hc) hsend ?_
          rw [hanswer hdirect, hempty]
          exact hclient
      · refine .reading (hstays hconn) ?_ hsend (hclient.trans (hanswer hdirect).symm)
        rw [Duplex.upload, hrecv]
        rfl
      · refine .writing (hstays hconn) ?_ hsend ?_ (hbuf ▸ hpos) (hbuf ▸ hfits)
        · rw [Duplex.upload, hrecv, hconn]
          rfl
        · rw [hbuf, hanswer hdirect]
          exact hclient

/-- Every callback ends and keeps the invariant, and the connection, if no system call fails. -/
theorem Duplex.Inv.fire (hK : Encodes K fresh₀ d₀ Counts q.address Whole sends)
    (hcount : ∀ n ≤ (q.address ++ q.payload).length, Counts n) (hdec : Decodes K wire plain D fresh R)
    (hnil : D [] = [])
    (h : d.Inv q A sends D R) {e : DuplexEvent G} (hdata : d.conn.received ++ e.data <+: q.bytes)
    (hfed : d.conn.direct = false → d.fetched ++ e.fetched <+: wire) {x : C (Duplex Ctx G)}
    (hfire : d.fire K A e = some x) :
    ∃ d', x = .ok d' ∧ (d'.StaysFresh fresh e → d'.Inv q A sends D R) ∧
      (e.Good ∧ d.conn.server ≠ none → d'.conn.server ≠ none) := by
  have hends : ∀ {good : Prop} {y : C (Duplex Ctx G)}, Duplex.Ends q A sends D R good y → x = y → (e.Good → good) →
      ∃ d', x = .ok d' ∧ (d'.StaysFresh fresh e → d'.Inv q A sends D R) ∧
        (e.Good ∧ d.conn.server ≠ none → d'.conn.server ≠ none) := by
    rintro good y ⟨d', rfl, hinv', ho⟩ rfl hgood
    exact ⟨d', rfl, fun _ => hinv', fun hg => ho (hgood hg.1)⟩
  cases e with
  | upload e =>
    obtain ⟨hdown, y, hy, rfl⟩ := Duplex.fire_upload hfire
    obtain ⟨c', rfl, hinv', ho⟩ := h.upload hK hcount hdec hnil hdown hdata hy
    exact ⟨d.upload c', rfl, hinv', ho⟩
  | remoteRecv r s =>
    obtain ⟨remote, hr, hfire⟩ := Option.bind_eq_some_iff.1 hfire
    split at hfire
    · rename_i hen
      rw [Bool.and_eq_true] at hen
      exact hends (remote_recv_cb_ends hdec h hr hen.1 hen.2 hfed) (Option.some.inj hfire).symm id
    · cases hfire
  | serverSend s =>
    obtain ⟨server, hs, hfire⟩ := Option.bind_eq_some_iff.1 hfire
    split at hfire
    · rename_i hen
      exact hends (server_send_cb_ends h hs hen s) (Option.some.inj hfire).symm id
    · cases hfire

theorem Duplex.fetched_of_fire {e : DuplexEvent G} (hfire : d.fire K A e = some (.ok d')) :
    d'.fetched = d.fetched ++ e.fetched := by
  cases e with
  | upload e =>
    obtain ⟨-, y, -, hx⟩ := Duplex.fire_upload hfire
    obtain ⟨c', -, hx⟩ := C.bind_eq_ok hx.symm
    cases hx
    exact (List.append_nil _).symm
  | remoteRecv r s =>
    obtain ⟨remote, -, -, hcall⟩ := Option.of_bind_ite hfire
    cases hs : d.conn.server with
    | none =>
      unfold remote_recv_cb at hcall
      rw [hs] at hcall
      cases hcall
    | some server => exact (remote_recv_cb_passes hs hcall).2
  | serverSend s =>
    obtain ⟨server, hs, -, hcall⟩ := Option.of_bind_ite hfire
    exact (server_send_cb_passes hs hcall).2.trans (List.append_nil _).symm

/-- Whether `remote` is the destination itself is known before anything comes from it. -/
theorem Duplex.Linked.direct_of_fire (h : d.Linked K A e_ctx q.bytes) (hinv : Local.Inv q A sends d.conn)
    {e : DuplexEvent G} (hfire : d.fire K A e = some (.ok d')) :
    d'.conn.direct = d.conn.direct ∨ d.fetched ++ e.fetched = [] := by
  have hpasses : ∀ server, d.Passes server d' → d'.conn.direct = d.conn.direct := by
    rintro server (⟨g, hconn⟩ | ⟨g, buf, hconn⟩)
    · rw [hconn]
      rfl
    · rw [hconn]
  cases e with
  | upload e =>
    obtain ⟨hdown, y, hy, hx⟩ := Duplex.fire_upload hfire
    obtain ⟨c', rfl, hx⟩ := C.bind_eq_ok hx.symm
    cases hx
    obtain ⟨hnone, hleaves⟩ := fire_leaves (fun server hs => hinv.stage_stream hs) hdown hy
    cases hs : d.conn.server with
    | none => exact .inl (hnone hs).2
    | some server =>
      by_cases hr : d.conn.remote = none
      · refine .inr ?_
        rw [(h.quiet (by rw [hs]; exact nofun) (Conn.connected_of_none hr)).2.2]
        rfl
      · exact .inl ((hleaves server hs).direct hr)
  | remoteRecv r s =>
    obtain ⟨remote, -, -, hcall⟩ := Option.of_bind_ite hfire
    cases hs : d.conn.server with
    | none =>
      unfold remote_recv_cb at hcall
      rw [hs] at hcall
      cases hcall
    | some server => exact .inl (hpasses server (remote_recv_cb_passes hs hcall).1)
  | serverSend s =>
    obtain ⟨server, hs, -, hcall⟩ := Option.of_bind_ite hfire
    exact .inl (hpasses server (server_send_cb_passes hs hcall).1)

/-- What has come before is a part of what has come after, if it is encrypted. -/
theorem Duplex.fed_before (hK : Encodes K fresh₀ d₀ Counts q.address Whole sends)
    (hcount : ∀ n ≤ (q.address ++ q.payload).length, Counts n) (hinit : sends [] [] e_ctx)
    (h : (duplex K A fresh e_ctx d_ctx q.bytes).Reach d) {e : DuplexEvent G} (hfire : d.fire K A e = some (.ok d'))
    (hfed : d'.conn.direct = false → d'.fetched <+: wire) : d.conn.direct = false →
      d.fetched ++ e.fetched <+: wire := by
  have hlinked := Duplex.Linked.of_reach hK hcount hinit h
  intro hdir
  rcases hlinked.direct_of_fire (Inv.of_reach hK hcount hinit hlinked.conn) hfire with hsame | hempty
  · exact Duplex.fetched_of_fire hfire ▸ hfed (hsame ▸ hdir)
  · exact hempty ▸ List.nil_prefix

theorem Duplex.Inv.of_reach (hK : Encodes K fresh₀ d₀ Counts q.address Whole sends)
    (hcount : ∀ n ≤ (q.address ++ q.payload).length, Counts n) (hinit : sends [] [] e_ctx)
    (hdec : Decodes K wire plain D fresh R) (hnil : D [] = []) (hstart : ∀ g, fresh d_ctx g → R [] g d_ctx)
    (h : (duplex K A fresh e_ctx d_ctx q.bytes).Reach d) (hfed : d.conn.direct = false → d.fetched <+: wire) :
    d.Inv q A sends D R := by
  induction h with
  | init h =>
    obtain ⟨g, junk, junk', hfresh, rfl⟩ := h
    refine ⟨acceptedConn_inv hinit g junk junk', List.nil_prefix, ?_⟩
    rintro _ ⟨⟩
    exact ⟨Nat.le_refl _, .waiting rfl rfl rfl rfl rfl, fun _ => hstart g hfresh⟩
  | @step d d' e hreach hstep ih =>
    obtain ⟨hdata, hfire, hfresh⟩ := hstep
    have hpart := Duplex.fed_before hK hcount hinit hreach hfire hfed
    have hinv := ih fun hdir => (List.prefix_append _ _).trans (hpart hdir)
    obtain ⟨d₁, hok, hinv', -⟩ := hinv.fire hK hcount hdec hnil hdata hpart hfire
    cases hok
    exact hinv' hfresh

/-! ### Results -/

/-- In every run with the stream of `q`, whatever the cuts and the results of the system calls, as long as `remote`,
unless it is the destination, sends a part of `wire`, which is `plain` encrypted. -/
structure Downloads (K : CryptoT Ctx G) (A : Option AclT) (fresh : Ctx → G → Prop) (e_ctx d_ctx : Ctx)
    (q : ClientStream) (wire plain : Bytes) : Prop where
  /-- Every callback ends. -/
  defined : ∀ d, (duplex K A fresh e_ctx d_ctx q.bytes).Reach d → ∀ e x, d.conn.received ++ e.data <+: q.bytes →
    (d.conn.direct = false → d.fetched ++ e.fetched <+: wire) → d.fire K A e = some x → ∃ d', x = .ok d'
  /-- As long as no system call fails, the connection waits for `remote` or for the client. -/
  stays : ∀ d, ((duplex K A fresh e_ctx d_ctx q.bytes).guarded fun _ e => e.Good).Reach d →
    (d.conn.direct = false → d.fetched <+: wire) → d.conn.server ≠ none ∧
      (d.conn.connected = true → d.recv_io = true ∨ d.send_io = true)
  /-- The replies to the handshake come before the answer, and nothing is read while something is to be sent. -/
  ordered : ∀ d, (duplex K A fresh e_ctx d_ctx q.bytes).Reach d → (d.conn.direct = false → d.fetched <+: wire) →
    d.conn.server ≠ none → (d.fetched ≠ [] → d.conn.replies = q.answers q.bytes.length) ∧
      (d.recv_io = true → d.send_io = false)
  download : ∀ d, (duplex K A fresh e_ctx d_ctx q.bytes).Reach d → d.conn.direct = false → d.fetched <+: wire →
    ∃ out, K.Delivers (fresh d_ctx) d_ctx d.fetched out ∧ out <+: plain ∧ (d.fetched = wire → out = plain) ∧
      d.toClient <+: out ∧ (d.conn.server ≠ none → d.send_io = false → d.toClient = out)
  bypass : ∀ d, (duplex K A fresh e_ctx d_ctx q.bytes).Reach d → d.conn.direct = true →
    d.toClient <+: d.fetched ∧ (d.conn.server ≠ none → d.send_io = false → d.toClient = d.fetched)

theorem Duplex.Inv.of_good (hK : Encodes K fresh₀ d₀ Counts q.address Whole sends)
    (hcount : ∀ n ≤ (q.address ++ q.payload).length, Counts n) (hinit : sends [] [] e_ctx)
    (hdec : Decodes K wire plain D fresh R) (hnil : D [] = []) (hstart : ∀ g, fresh d_ctx g → R [] g d_ctx)
    (h : ((duplex K A fresh e_ctx d_ctx q.bytes).guarded fun _ e => e.Good).Reach d) :
    (duplex K A fresh e_ctx d_ctx q.bytes).Reach d ∧
      ((d.conn.direct = false → d.fetched <+: wire) → d.conn.server ≠ none) := by
  induction h with
  | init h =>
    refine ⟨.init h, fun _ => ?_⟩
    obtain ⟨g, junk, junk', -, rfl⟩ := h
    exact nofun
  | @step d d' e _ hstep ih =>
    obtain ⟨hgood, hdata, hfire, hfresh⟩ := hstep
    obtain ⟨hreach, hopen⟩ := ih
    refine ⟨hreach.step ⟨hdata, hfire, hfresh⟩, fun hfed => ?_⟩
    have hpart := Duplex.fed_before hK hcount hinit hreach hfire hfed
    have hbefore : d.conn.direct = false → d.fetched <+: wire :=
      fun hdir => (List.prefix_append _ _).trans (hpart hdir)
    obtain ⟨d₁, hok, -, ho⟩ := (Duplex.Inv.of_reach hK hcount hinit hdec hnil hstart hreach hbefore).fire hK hcount hdec
      hnil hdata hpart hfire
    cases hok
    exact ho ⟨hgood, hopen hbefore⟩

/-- What has been read is in the hands of the client, or on the way to it. -/
theorem Duplex.Inv.all (h : d.Inv q A sends D R) (hopen : d.conn.server ≠ none) (hsend : d.send_io = false)
    (hnil : D [] = []) : d.toClient = d.answer D := by
  obtain ⟨server, hs⟩ := Option.ne_none_iff_exists'.1 hopen
  rcases (h.server server hs).phase with ⟨-, -, -, hfetched, hclient⟩ | ⟨-, -, -, hclient⟩ | ⟨-, -, hsend', -⟩
  · rw [hclient, Duplex.answer, hfetched, hnil, ite_self]
  · exact hclient
  · rw [hsend] at hsend'
    cases hsend'

/-- The handshake is over when something has come. -/
theorem Duplex.Inv.answered (h : d.Inv q A sends D R) (hopen : d.conn.server ≠ none) (hne : d.fetched ≠ []) :
    d.conn.replies = q.answers q.bytes.length := by
  obtain ⟨server, hs⟩ := Option.ne_none_iff_exists'.1 hopen
  have hconn : d.conn.connected = true := by
    rcases (h.server server hs).phase with ⟨-, -, -, hfetched, -⟩ | ⟨hconn, -⟩ | ⟨hconn, -⟩
    · exact absurd hfetched hne
    · exact hconn
    · exact hconn
  have harrived : q.select.length + q.request.length ≤ d.conn.received.length := by
    have hnone : d.conn.remote ≠ none := Conn.remote_of_connected hconn
    obtain ⟨-, -, -, hu⟩ | ⟨-, -, -, hu⟩ | ⟨remote, -, -, hready⟩ | ⟨remote, -, hsending⟩ := h.conn.server server hs
    · exact absurd hu.remote hnone
    · exact absurd hu.remote hnone
    · exact hready.arrived
    · exact hsending.arrived
  rw [h.conn.replies, ClientStream.answers_all harrived,
    ClientStream.answers_all (harrived.trans h.conn.received.length_le)]

theorem downloads_of_encodes {K₁ : CryptoT Ctx G} {fresh₁ : Ctx → G → Prop} {Counts₁ : Nat → Prop}
    {Whole₁ : List Bytes → Prop} {sends₁ : Bytes → Bytes → Ctx → Prop} {ctx : Ctx}
    (hK : Encodes K fresh₀ d₀ Counts q.address Whole sends)
    (hcount : ∀ n ≤ (q.address ++ q.payload).length, Counts n) (hinit : sends [] [] e_ctx)
    (hK₁ : Encodes K₁ fresh₁ d_ctx Counts₁ [] Whole₁ sends₁) (hdecrypt : K.decrypt = K₁.decrypt)
    (hsent : sends₁ plain wire ctx) (hcount₁ : Counts₁ plain.length) :
    Downloads K A fresh₁ e_ctx d_ctx q wire plain := by
  obtain ⟨wire', D, R, hdec₁, hwire, hnil, hall, hstart, -⟩ := hK₁.decodes hsent hcount₁
  have hdec := hdec₁.of_decrypt hdecrypt
  have hinv : ∀ {d : Duplex Ctx G}, (duplex K A fresh₁ e_ctx d_ctx q.bytes).Reach d →
      (d.conn.direct = false → d.fetched <+: wire) → d.Inv q A sends D R :=
    fun h hfed => .of_reach hK hcount hinit hdec hnil hstart h fun hdir => (hfed hdir).trans hwire
  refine ⟨?_, ?_, ?_, ?_, ?_⟩
  · intro d h e x hdata hpart hfire
    obtain ⟨d', hx, -⟩ :=
      (hinv h fun hdir => (List.prefix_append _ _).trans (hpart hdir)).fire hK hcount hdec hnil hdata
      (fun hdir => (hpart hdir).trans hwire) hfire
    exact ⟨d', hx⟩
  · intro d h hfed
    obtain ⟨hreach, hopen⟩ := Duplex.Inv.of_good hK hcount hinit hdec hnil hstart h
    have hopen' := hopen fun hdir => (hfed hdir).trans hwire
    obtain ⟨server, hs⟩ := Option.ne_none_iff_exists'.1 hopen'
    refine ⟨hopen', fun hconn => ?_⟩
    rcases ((hinv hreach hfed).server server hs).phase with ⟨hconn', -⟩ | ⟨-, hrecv, -⟩ | ⟨-, -, hsend, -⟩
    · rw [hconn] at hconn'
      cases hconn'
    · exact .inl hrecv
    · exact .inr hsend
  · intro d h hfed hopen
    refine ⟨(hinv h hfed).answered hopen, fun hrecv => ?_⟩
    obtain ⟨server, hs⟩ := Option.ne_none_iff_exists'.1 hopen
    rcases ((hinv h hfed).server server hs).phase with ⟨-, -, hsend, -⟩ | ⟨-, -, hsend, -⟩ | ⟨-, hrecv', -⟩
    · exact hsend
    · exact hsend
    · rw [hrecv] at hrecv'
      cases hrecv'
  · intro d h hdir hfed
    have hd := hinv h fun _ => hfed
    have hans : d.answer D = D d.fetched := Duplex.answer_encrypted hdir
    refine ⟨D d.fetched, hdec.delivers hnil hstart (hfed.trans hwire), ?_, ?_, hans ▸ hd.toClient, fun hopen hsend =>
      ?_⟩
    · have hpre := hdec.mono hfed
      rwa [hall] at hpre
    · intro heq
      rw [heq, hall]
    · rw [hd.all hopen hsend hnil, hans]
  · intro d h hdir
    have hd := hinv h fun hdir' => by
      rw [hdir] at hdir'
      cases hdir'
    have hans : d.answer D = d.fetched := Duplex.answer_direct hdir
    exact ⟨hans ▸ hd.toClient, fun hopen hsend => by rw [hd.all hopen hsend hnil, hans]⟩

end

section
variable {L : CryptoLib} {byte : StreamMethod → Bool → Bytes → Bytes → Bytes → UInt8 → UInt8}
  {ks : StreamMethod → Bytes → Bytes → Nat → UInt8}

/-- Both families, with the salt of each side: what the server has encrypted reaches the client, after the replies to
the handshake, whatever happens in the other direction meanwhile. -/
theorem download_segmentation (hL : L.Lawful) (hlen : L.Lengths) (hS : L.Streams byte ks) (A : Option AclT)
    (q : ClientStream) :
    (∀ (M : AeadMethod) (key salt salt' : Bytes), salt.length = supported_aead_ciphers_key_size M →
      salt'.length = supported_aead_ciphers_key_size M → ∀ plain wire ctx,
      AeadCtx.Sent hL (aead_key_init M key) salt' [] plain wire ctx →
      Downloads (aeadCrypto L) A (AeadCtx.Fresh L salt') (aead_ctx_init (aead_key_init M key) (some salt))
        (aead_ctx_init (aead_key_init M key) none) q wire plain) ∧
    ∀ (M : StreamMethod) (key iv iv' : Bytes), stream_supported L M →
      key.length = supported_stream_ciphers_key_size M → iv.length = supported_stream_ciphers_nonce_size M →
      iv'.length = supported_stream_ciphers_nonce_size M → M.Counts (q.address ++ q.payload).length →
      ∃ e_ctx d_ctx, stream_ctx_init L (stream_key_init M key) true iv = .ok e_ctx ∧
        stream_ctx_init L (stream_key_init M key) false [] = .ok d_ctx ∧
        ∀ plain wire ctx, StreamCtx.Sent L byte ks (stream_key_init M key) iv' plain wire ctx → M.Counts plain.length →
          Downloads (localStreamCrypto L) A (StreamCtx.Fresh L (stream_key_init M key) iv') e_ctx d_ctx q wire
            plain := by
  constructor
  · intro M key salt salt' hsalt hsalt' plain wire ctx hsent
    have hs : (aead_key_init M key).Supported := supported_aead_key_init M key
    exact downloads_of_encodes (aead_encodes hL hlen hs hsalt q.address) (fun _ _ => trivial)
      (aead_ctx_init_sent hL hs hsalt) (aead_encodes hL hlen hs hsalt' []) rfl hsent trivial
  · intro M key iv iv' hM hkey hiv hiv' hcount
    have hstart : ∃ ctx, stream_ctx_init L (stream_key_init M key) true iv = .ok ctx ∧
        ctx.Sent L byte ks (stream_key_init M key) iv [] [] := stream_ctx_init_sent hM key hiv
    obtain ⟨e_ctx, he, hinit⟩ := hstart
    obtain ⟨d_ctx, hd, -⟩ := stream_ctx_init_decoding hM key iv
    refine ⟨e_ctx, d_ctx, he, hd, fun plain wire ctx hsent hcount' => ?_⟩
    exact downloads_of_encodes (local_stream_encodes hS hlen hM hkey hiv hd q.address)
      (fun n hn => hcount.mono hn) hinit (stream_encodes hS hlen hM hkey hiv' hd []) rfl hsent hcount'

end

/-- Three bytes in a buffer of ss-server. -/
def threeBytes : Buffer := { Buffer.ofBytes [1, 2, 3] with capacity := SOCKET_BUF_SIZE }

theorem threeBytes_hands : threeBytes.Hands SOCKET_BUF_SIZE := ⟨Nat.le_refl _, by decide⟩

theorem download_segmentation_loopback :
    (∃ wire, 3 ≤ wire.length ∧ Downloads (aeadCrypto xorLib) none (AeadCtx.Fresh xorLib (List.replicate 16 5))
      (aead_ctx_init (aead_key_init .AES128GCM (List.replicate 16 1)) (some (List.replicate 16 4)))
      (aead_ctx_init (aead_key_init .AES128GCM (List.replicate 16 1)) none) loopbackStream wire [1, 2, 3]) ∧
    ∃ e_ctx d_ctx, stream_ctx_init xorLib (stream_key_init .CHACHA20 (List.replicate 32 1)) true (List.replicate 8 2) =
        .ok e_ctx ∧
      stream_ctx_init xorLib (stream_key_init .CHACHA20 (List.replicate 32 1)) false [] = .ok d_ctx ∧
      ∃ wire, 3 ≤ wire.length ∧ Downloads (localStreamCrypto xorLib) none
        (StreamCtx.Fresh xorLib (stream_key_init .CHACHA20 (List.replicate 32 1)) (List.replicate 8 3)) e_ctx d_ctx
        loopbackStream wire [1, 2, 3] := by
  have h := download_segmentation xorLib_lawful xorLib_lengths xorLib_streams none loopbackStream
  have hbytes : threeBytes.bytes = [1, 2, 3] := by decide
  constructor
  · have hs : (aead_key_init .AES128GCM (List.replicate 16 1)).Supported := supported_aead_key_init _ _
    have hsalt : (List.replicate 16 (5 : UInt8)).length = (aead_key_init .AES128GCM (List.replicate 16 1)).key_len :=
      rfl
    obtain ⟨b, ctx, g, -, -, hlen, hsent⟩ := (aead_encodes xorLib_lawful xorLib_lengths hs hsalt []).encrypt .start
      (aead_ctx_init_sent xorLib_lawful hs hsalt) threeBytes_hands (by decide) trivial fun _ => List.nil_prefix
    rw [hbytes] at hsent
    refine ⟨b.bytes, ?_, h.1 .AES128GCM (List.replicate 16 1) (List.replicate 16 4) (List.replicate 16 5) rfl rfl _ _ _
      hsent⟩
    rw [b.length_bytes]
    exact hlen
  · have hM : stream_supported xorLib .CHACHA20 := ⟨by decide, .inl (by decide)⟩
    obtain ⟨e_ctx, d_ctx, he, hd, hdown⟩ :=
      h.2 .CHACHA20 (List.replicate 32 1) (List.replicate 8 2) (List.replicate 8 3) hM
      rfl rfl rfl (StreamMethod.counts_of_lt (by decide))
    obtain ⟨ctx₀, -, hinit⟩ :=
      @stream_ctx_init_sent xorLib _ _ .CHACHA20 (List.replicate 8 3) hM (List.replicate 32 1) rfl
    obtain ⟨b, ctx, g, -, -, hlen, hsent⟩ :=
      (stream_encodes xorLib_streams xorLib_lengths hM rfl rfl hd []).encrypt .start
      hinit threeBytes_hands (by decide) (StreamMethod.counts_of_lt (by decide)) fun _ => List.nil_prefix
    rw [hbytes] at hsent
    refine ⟨e_ctx, d_ctx, he, hd, b.bytes, ?_, hdown _ _ _ hsent (StreamMethod.counts_of_lt (by decide))⟩
    rw [b.length_bytes]
    exact hlen

end OutlineServer.Local
