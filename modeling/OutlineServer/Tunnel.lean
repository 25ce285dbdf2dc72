import OutlineServer.LocalCuts

/-!
# A client, ss-local and ss-server

ss-local and ss-server with the TCP connection between them, which cuts what ss-local sends anew. In every interleaving
the destination gets a part of the payload that the client has sent, and what has gone all the way is all of it.
-/

namespace OutlineServer

section
variable {Ctx G : Type}

/-- The state of both ends; the bytes in flight are those that ss-local has sent and ss-server has not read. -/
structure Tunnel (Ctx G : Type) where
  client : Local.Conn Ctx G
  server : Observed Ctx G

inductive TunnelEvent (G : Type)
  | client (e : Local.Event G)
  | server (e : RelayEvent G)

/-- A client that sends `stream`, an ss-local with the cipher `K`, and an ss-server with `K'` whose context starts as
`d_ctx`. -/
def tunnel (K K' : CryptoT Ctx G) (A : Option Local.AclT) (N : NetLib) (fresh : Ctx → G → Prop) (e_ctx d_ctx : Ctx)
    (stream : Bytes) : Lts (Tunnel Ctx G) (TunnelEvent G) where
  init t := (Local.client K A e_ctx stream).init t.client ∧ (observed K' N fresh d_ctx).init t.server
  step t e t' := match e with
    | .client e => (Local.client K A e_ctx stream).step t.client e t'.client ∧ t'.server = t.server
    | .server e => (observed K' N fresh d_ctx).step t.server e t'.server ∧ t'.client = t.client ∧
      t'.server.segs.flatten <+: t.client.toRemote

end

namespace Local

/-! ### The header -/

/-- `DST.PORT`. -/
def ClientStream.port (q : ClientStream) : Bytes := q.address.drop (q.address.length - 2)

/-- The header that ss-server reads. -/
def ClientStream.header (q : ClientStream) : AddrHeader := ⟨q.dst, q.port, q.address.length⟩

theorem ClientStream.isHeader (q : ClientStream) : IsHeader q.address q.dst q.port := by
  have hport : ∀ {a port : Bytes}, q.address = a ++ port → port.length = 2 → q.port = port := by
    intro a port ha hp
    rw [ClientStream.port, ha, List.length_append, hp, Nat.add_sub_cancel, List.drop_left]
  obtain ⟨methods, ver, rsv, address, dst, payload, hlt, hno, h⟩ := q
  cases h with
  | ipv4 ha hp =>
    rw [hport rfl hp]
    exact .ipv4 rfl ha hp
  | domain hn hp =>
    rw [hport rfl hp]
    exact .name rfl hn hp
  | ipv6 ha hp =>
    rw [hport rfl hp]
    exact .ipv6 rfl ha hp

end Local

namespace Tunnel
open Local (ClientStream AclT)

section
variable {Ctx G : Type} {K K' : CryptoT Ctx G} {A : Option AclT} {N : NetLib} {fresh : Ctx → G → Prop}
  {e_ctx d_ctx : Ctx}
  {Counts : Nat → Prop} {Whole : List Bytes → Prop} {sends : Bytes → Bytes → Ctx → Prop} {q : ClientStream}
  {req : Request} {stream : Bytes} {t : Tunnel Ctx G}

/-- Both ends are in a reachable state, and ss-server has read a part of what ss-local has sent. -/
structure Linked (K K' : CryptoT Ctx G) (A : Option AclT) (N : NetLib) (fresh : Ctx → G → Prop) (e_ctx d_ctx : Ctx)
    (stream : Bytes) (t : Tunnel Ctx G) : Prop where
  client : (Local.client K A e_ctx stream).Reach t.client
  server : (observed K' N fresh d_ctx).Reach t.server
  wire : t.server.segs.flatten <+: t.client.toRemote

theorem Linked.of_reach (h : (tunnel K K' A N fresh e_ctx d_ctx stream).Reach t) :
    Linked K K' A N fresh e_ctx d_ctx stream t := by
  induction h with
  | @init t h =>
    refine ⟨.init h.1, .init h.2, ?_⟩
    obtain ⟨-, g, junk, e_ctx, -, hserver⟩ := h
    rw [hserver]
    exact List.nil_prefix
  | @step t t' e _ hstep ih =>
    cases e with
    | client e =>
      obtain ⟨hclient, hserver⟩ := hstep
      refine ⟨ih.client.step hclient, hserver ▸ ih.server, ?_⟩
      rw [hserver]
      exact ih.wire.trans ((Local.fire_grows hclient.2).of_eq_ok rfl).2
    | server e =>
      obtain ⟨hserver, hclient, hwire⟩ := hstep
      exact ⟨hclient ▸ ih.client, ih.server.step hserver, hclient ▸ hwire⟩

/-- In every interleaving of both ends, with the stream of `q`, whose request is `req`. -/
structure Serves (K K' : CryptoT Ctx G) (A : Option AclT) (N : NetLib) (fresh : Ctx → G → Prop) (e_ctx d_ctx : Ctx)
    (Whole : List Bytes → Prop) (q : ClientStream) (req : Request) : Prop where
  /-- No other request is carried out, and the destination gets nothing but payload of the client, in order. -/
  safe : ∀ t, (tunnel K K' A N fresh e_ctx d_ctx q.bytes).Reach t → t.client.direct = false →
    (t.server.requests = [] ∨ t.server.requests = req.carried) ∧
      t.server.conn.toRemote <+: q.body t.client.received ∧ q.body t.client.received <+: q.payload
  /-- ss-server takes whatever has arrived. -/
  takes : ∀ t, (tunnel K K' A N fresh e_ctx d_ctx q.bytes).Reach t → t.client.direct = false → ∀ bs server,
    t.server.segs.flatten ++ bs <+: t.client.toRemote → (Recv.data bs).possible = true →
    t.server.conn.server = some server → server.recv_io = true → ∀ junk s c,
      ∃ conn, t.server.conn.fire K' N (.serverRecv junk (.data bs) s c) = some (.ok conn)
  /-- When nothing is on the way, the request has been carried out, and all payload has been passed on but for what
  ss-server still has to send. -/
  complete : ∀ t, (tunnel K K' A N fresh e_ctx d_ctx q.bytes).Reach t → t.client.direct = false → t.client.Idle →
    t.server.segs.flatten = t.client.toRemote → Whole t.server.segs → req.offset?.isSome →
    t.server.requests = [req] ∧ t.server.conn.decrypted = q.body t.client.received ∧
      ∀ remote, t.server.conn.remote = some remote →
        t.server.conn.toRemote ++ remote.unsent = q.body t.client.received

/-- What ss-server has read can be decrypted to a part of the address and the payload. -/
theorem Linked.inv (h : Linked K K' A N fresh e_ctx d_ctx q.bytes t)
    (hK : Encodes K fresh d_ctx Counts q.address Whole sends) (hdecrypt : K'.decrypt = K.decrypt)
    (hinit : sends [] [] e_ctx) (hcount : ∀ n ≤ (q.address ++ q.payload).length, Counts n)
    (hdirect : t.client.direct = false) :
    ∃ wire plain D R, Decodes K' wire plain D fresh R ∧ t.client.toRemote <+: wire ∧ t.server.Inv N D R ∧
      D t.server.segs.flatten <+: q.address ++ q.body t.client.received ∧
      (∀ fed, fed <+: t.client.toRemote → D fed <+: q.address ++ q.body t.client.received) ∧
      (Whole t.server.segs → HeaderWhole D q.address.length t.server.segs) ∧
      (t.client.Idle → D t.client.toRemote = q.address ++ q.body t.client.received) := by
  have hinv := Local.Inv.of_reach hK hcount hinit h.client
  obtain ⟨plain, wire, ctx, hsends, hwire, hplain, hidle⟩ := hinv.sent hdirect
  have hle := (hplain.trans (ClientStream.plain_prefix hinv.received)).length_le
  obtain ⟨wire', D, R, hdec, hwire', hnil, hall, hfresh, hwhole⟩ := hK.decodes hsends (hcount _ hle)
  have hdec' := hdec.of_decrypt hdecrypt
  have hpart : ∀ fed, fed <+: t.client.toRemote → D fed <+: q.address ++ q.body t.client.received := by
    intro fed hfed
    have hmono := hdec.mono (hfed.trans hwire)
    rw [hall] at hmono
    exact hmono.trans hplain
  refine ⟨wire', plain, D, R, hdec', hwire.trans hwire',
    Observed.Inv.of_reach hdec' hnil hfresh h.server (h.wire.trans (hwire.trans hwire')), hpart _ h.wire, hpart,
    hwhole _ (h.wire.trans hwire), fun hi => ?_⟩
  obtain ⟨rfl, rfl⟩ := hidle hi
  exact hall

/-- Before the header has been read as a whole nothing is carried out, and then the request. -/
theorem Linked.progress {D : Bytes → Bytes} {R : Bytes → G → Ctx → Prop}
    (h : Linked K K' A N fresh e_ctx d_ctx stream t)
    (hinv : t.server.Inv N D R) (hreq : serverDestination N q.header = .ok req) {body : Bytes}
    (hpart : ∀ fed, fed <+: t.client.toRemote → D fed <+: q.address ++ body) :
    (t.server.requests = [] ∧ t.server.conn.decrypted = [] ∧
      (HeaderWhole D q.address.length t.server.segs → req.offset?.isSome → D t.server.segs.flatten = [])) ∨
    (t.server.requests = req.carried ∧ (req.offset? = none → t.server.conn.decrypted = []) ∧
      (req.offset?.isSome → t.server.conn.decrypted = (D t.server.segs.flatten).drop q.address.length)) := by
  rcases hinv.progress with ⟨hnil, hw⟩ | @⟨first, rest, q', hfirst, hne, hbefore, hq', hreqs, hcarries, hrefused⟩
  · exact .inl ⟨hw.requests, hw.decrypted, fun _ _ => hnil⟩
  have hpre : first.flatten <+: t.client.toRemote := by
    refine List.IsPrefix.trans ?_ h.wire
    rw [hfirst]
    exact (List.prefix_append _ _).flatten
  rw [pieceRequest_part q.isHeader (hpart _ hpre)] at hq'
  split at hq'
  · obtain rfl : req = q' := Except.ok.inj (hreq.symm.trans hq')
    refine .inr ⟨hreqs, fun hnone => (hrefused hnone).decrypted, fun hsome => ?_⟩
    obtain ⟨offset, ho⟩ := Option.isSome_iff_exists.1 hsome
    rw [(hcarries offset ho).decrypted, serverDestination_offset hreq ho]
    rfl
  · rename_i hlt
    cases hq'
    refine .inl ⟨hreqs, (hrefused rfl).decrypted, fun hwhole _ => ?_⟩
    have hfirst' := hwhole first.length (by rw [hfirst, List.length_append]; exact Nat.le_add_right _ _)
    rw [hfirst, List.take_left] at hfirst'
    exact absurd hfirst' (not_or.2 ⟨hne, hlt⟩)

theorem serves_of_encodes (hK : Encodes K fresh d_ctx Counts q.address Whole sends) (hdecrypt : K'.decrypt = K.decrypt)
    (hinit : sends [] [] e_ctx) (hcount : ∀ n ≤ (q.address ++ q.payload).length, Counts n)
    (hreq : serverDestination N q.header = .ok req) :
    Serves K K' A N fresh e_ctx d_ctx Whole q req where
  safe t ht hdirect := by
    have h := Linked.of_reach ht
    obtain ⟨wire, plain, D, R, -, -, hinv, hdec, hpart, -, -⟩ := h.inv hK hdecrypt hinit hcount hdirect
    have hrec := (Local.Inv.of_reach hK hcount hinit h.client).received
    have hsent := hinv.relay.toRemote
    rcases h.progress hinv hreq hpart with ⟨hreqs, hnil, -⟩ | ⟨hreqs, hnone, hsome⟩
    · rw [hnil] at hsent
      rw [List.prefix_nil.1 hsent]
      exact ⟨.inl hreqs, List.nil_prefix, ClientStream.body_prefix hrec⟩
    · refine ⟨.inr hreqs, hsent.trans ?_, ClientStream.body_prefix hrec⟩
      cases ho : req.offset? with
      | none =>
        rw [hnone ho]
        exact List.nil_prefix
      | some offset =>
        rw [hsome (by rw [ho]; rfl)]
        have hdrop := hdec.drop q.address.length
        rwa [List.drop_left] at hdrop
  takes t ht hdirect bs server hbs hposs hs hrecv junk s c := by
    have h := Linked.of_reach ht
    obtain ⟨wire, plain, D, R, hdec, hwire, hinv, -, hpart, -, -⟩ := h.inv hK hdecrypt hinit hcount hdirect
    refine hinv.takes hdec (hbs.trans hwire) (fun _ => ?_) hposs hs hrecv junk s c
    rw [pieceRequest_part q.isHeader (hpart _ hbs)]
    split
    · exact ⟨req, hreq⟩
    · exact ⟨_, rfl⟩
  complete t ht hdirect hidle hall hwhole hsome := by
    have h := Linked.of_reach ht
    obtain ⟨wire, plain, D, R, -, -, hinv, -, hpart, hheader, hend⟩ := h.inv hK hdecrypt hinit hcount hdirect
    have hD : D t.server.segs.flatten = q.address ++ q.body t.client.received := hall ▸ hend hidle
    rcases h.progress hinv hreq hpart with ⟨-, -, hnil⟩ | ⟨hreqs, -, hdec⟩
    · -- the address is not empty
      have hempty := hnil (hheader hwhole) hsome
      rw [hD] at hempty
      have hlen := q.is_address.length_le
      rw [(List.append_eq_nil_iff.1 hempty).1] at hlen
      exact absurd hlen.1 (by decide)
    · have hbody : t.server.conn.decrypted = q.body t.client.received := by rw [hdec hsome, hD, List.drop_left]
      obtain ⟨offset, ho⟩ := Option.isSome_iff_exists.1 hsome
      rw [Request.carried_some ho] at hreqs
      refine ⟨hreqs, hbody, fun remote hr => ?_⟩
      rw [← hbody]
      exact (hinv.relay.remote remote hr).1.symm

end

section
variable {L : CryptoLib} {byte : StreamMethod → Bool → Bytes → Bytes → Bytes → UInt8 → UInt8}
  {ks : StreamMethod → Bytes → Bytes → Nat → UInt8}

/-- Both families: the destination gets the payload of the client and nothing else. With a stream cipher the end is only
reached if no cut falls inside the header, with an AEAD cipher the header is a chunk of its own. -/
theorem tunnel_delivers (hL : L.Lawful) (hlen : L.Lengths) (hS : L.Streams byte ks) (A : Option AclT) (N : NetLib)
    (q : ClientStream) {req : Request}
    (hreq : serverDestination N q.header = .ok req) :
    (∀ (M : AeadMethod) (key salt : Bytes), salt.length = supported_aead_ciphers_key_size M →
      Serves (aeadCrypto L) (aeadCrypto L) A N (AeadCtx.Fresh L salt) (aead_ctx_init (aead_key_init M key) (some salt))
        (aead_ctx_init (aead_key_init M key) none) (fun _ => True) q req) ∧
    ∀ (M : StreamMethod) (key iv : Bytes), stream_supported L M → key.length = supported_stream_ciphers_key_size M →
      iv.length = supported_stream_ciphers_nonce_size M → M.Counts (q.address ++ q.payload).length →
      ∃ e_ctx d_ctx, stream_ctx_init L (stream_key_init M key) true iv = .ok e_ctx ∧
        stream_ctx_init L (stream_key_init M key) false [] = .ok d_ctx ∧
        Serves (localStreamCrypto L) (streamCrypto L) A N (StreamCtx.Fresh L (stream_key_init M key) iv) e_ctx d_ctx
          (fun segs => ¬ CutsHeader iv.length q.address.length segs) q req := by
  constructor
  · intro M key salt hsalt
    have hs : (aead_key_init M key).Supported := supported_aead_key_init M key
    exact serves_of_encodes (aead_encodes hL hlen hs hsalt q.address) rfl (aead_ctx_init_sent hL hs hsalt)
      (fun _ _ => trivial) hreq
  · intro M key iv hM hkey hiv hcount
    have hstart : ∃ ctx, stream_ctx_init L (stream_key_init M key) true iv = .ok ctx ∧
        ctx.Sent L byte ks (stream_key_init M key) iv [] [] := stream_ctx_init_sent hM key hiv
    obtain ⟨e_ctx, he, hsent⟩ := hstart
    obtain ⟨d_ctx, hd, -⟩ := stream_ctx_init_decoding hM key iv
    exact ⟨e_ctx, d_ctx, he, hd, serves_of_encodes (local_stream_encodes hS hlen hM hkey hiv hd q.address) rfl hsent
      (fun n hn => hcount.mono hn) hreq⟩

end

theorem tunnel_delivers_loopback :
    Serves (aeadCrypto xorLib) (aeadCrypto xorLib) none openNet (AeadCtx.Fresh xorLib (List.replicate 16 4))
      (aead_ctx_init (aead_key_init .AES128GCM (List.replicate 16 1)) (some (List.replicate 16 4)))
      (aead_ctx_init (aead_key_init .AES128GCM (List.replicate 16 1)) none) (fun _ => True) Local.loopbackStream
      loopbackRequest ∧
    ∃ e_ctx d_ctx, stream_ctx_init xorLib (stream_key_init .CHACHA20 (List.replicate 32 1)) true (List.replicate 8 2) =
        .ok e_ctx ∧
      stream_ctx_init xorLib (stream_key_init .CHACHA20 (List.replicate 32 1)) false [] = .ok d_ctx ∧
      Serves (localStreamCrypto xorLib) (streamCrypto xorLib) none openNet
        (StreamCtx.Fresh xorLib (stream_key_init .CHACHA20 (List.replicate 32 1)) (List.replicate 8 2)) e_ctx d_ctx
        (fun segs => ¬ CutsHeader 8 7 segs) Local.loopbackStream loopbackRequest := by
  have hreq : serverDestination openNet Local.loopbackStream.header = .ok loopbackRequest := rfl
  have h := tunnel_delivers xorLib_lawful xorLib_lengths xorLib_streams none openNet
    Local.loopbackStream hreq
  refine ⟨h.1 .AES128GCM (List.replicate 16 1) (List.replicate 16 4) rfl, ?_⟩
  exact h.2 .CHACHA20 (List.replicate 32 1) (List.replicate 8 2) ⟨by decide, .inl (by decide)⟩ rfl rfl
    (StreamMethod.counts_of_lt (by decide))

end Tunnel

end OutlineServer
