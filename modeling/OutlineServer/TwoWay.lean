import OutlineServer.Answered
import OutlineServer.DownloadRuns
import OutlineServer.Tunnel

/-!
# A client, ss-local and ss-server in both directions

Two byte streams are between ss-local and ss-server, one in each direction, and each cuts anew what it is given. In
every interleaving the direction to the destination is that of `tunnel`, and the client gets, after the replies to its
handshake, a part of what the destination has sent, and what has gone all the way is all of it.
-/

namespace OutlineServer

section
variable {Ctx G : Type}

structure TwoWay (Ctx G : Type) where
  client : Local.Duplex Ctx G
  server : Answered Ctx G

inductive TwoWayEvent (G : Type)
  | client (e : Local.DuplexEvent G)
  | server (e : RelayEvent G)

/-- The contexts that both ends start with, and the filters that are fresh for either receiver. -/
structure Endpoints (Ctx G : Type) where
  e_ctx : Ctx
  d_ctx : Ctx
  fresh : Ctx → G → Prop
  server_e_ctx : Ctx
  server_d_ctx : Ctx
  server_fresh : Ctx → G → Prop

/-- A client that sends `stream`, and both ends of its connection. -/
def twoWay (K K' : CryptoT Ctx G) (A : Option Local.AclT) (N : NetLib) (E : Endpoints Ctx G) (stream : Bytes) :
    Lts (TwoWay Ctx G) (TwoWayEvent G) where
  init x := (Local.duplex K A E.fresh E.e_ctx E.d_ctx stream).init x.client ∧
    (answering K' N E.server_fresh E.server_e_ctx E.server_d_ctx).init x.server
  step x e x' := match e with
    | .client e => (Local.duplex K A E.fresh E.e_ctx E.d_ctx stream).step x.client e x'.client ∧ x'.server = x.server ∧
      x'.client.fetched <+: x.server.observed.conn.toClient
    | .server e => (answering K' N E.server_fresh E.server_e_ctx E.server_d_ctx).step x.server e x'.server ∧
      x'.client = x.client ∧ x'.server.observed.segs.flatten <+: x.client.conn.toRemote

end

namespace TwoWay
open Local (ClientStream AclT)

section
variable {Ctx G : Type} {K K' : CryptoT Ctx G} {A : Option AclT} {N : NetLib} {E : Endpoints Ctx G} {q : ClientStream}
  {Counts Counts' : Nat → Prop} {Whole Whole' : List Bytes → Prop} {sends sends' : Bytes → Bytes → Ctx → Prop}
  {x : TwoWay Ctx G}

/-- Both ends are in a reachable state, and each has read a part of what the other one has sent. -/
structure Linked (K K' : CryptoT Ctx G) (A : Option AclT) (N : NetLib) (E : Endpoints Ctx G) (q : ClientStream)
    (x : TwoWay Ctx G) : Prop where
  client : (Local.duplex K A E.fresh E.e_ctx E.d_ctx q.bytes).Reach x.client
  server : (answering K' N E.server_fresh E.server_e_ctx E.server_d_ctx).Reach x.server
  wire : x.client.fetched <+: x.server.observed.conn.toClient
  tunnel : (tunnel K K' A N E.server_fresh E.e_ctx E.server_d_ctx q.bytes).Reach ⟨x.client.conn, x.server.observed⟩

/-- A run of ss-local alone, beside an ss-server that stands still. -/
theorem tunnel_client_run {fresh : Ctx → G → Prop} {e_ctx d_ctx : Ctx} {stream : Bytes} {c c' : Local.Conn Ctx G}
    {es : List (Local.Event G)} (h : (Local.client K A e_ctx stream).Run c es c') (o : Observed Ctx G) :
    (OutlineServer.tunnel K K' A N fresh e_ctx d_ctx stream).Run ⟨c, o⟩ (es.map .client) ⟨c', o⟩ := by
  induction h with
  | nil => exact .nil _
  | @cons c c₁ c' e es hstep _ ih =>
    have hboth : (OutlineServer.tunnel K K' A N fresh e_ctx d_ctx stream).step ⟨c, o⟩ (.client e) ⟨c₁, o⟩ :=
      ⟨hstep, rfl⟩
    exact .cons hboth ih

theorem Linked.of_reach (hK : Encodes K E.server_fresh E.server_d_ctx Counts q.address Whole sends)
    (hcount : ∀ n ≤ (q.address ++ q.payload).length, Counts n) (hinit : sends [] [] E.e_ctx)
    (h : (twoWay K K' A N E q.bytes).Reach x) : Linked K K' A N E q x := by
  induction h with
  | @init x h =>
    obtain ⟨hclient, hserver⟩ := h
    refine ⟨.init hclient, .init hserver, ?_, .init ?_⟩
    · obtain ⟨g, junk, junk', -, hx⟩ := hclient
      rw [hx]
      exact List.nil_prefix
    · obtain ⟨g, junk, junk', -, hx⟩ := hclient
      obtain ⟨g', junk₁, hfresh, hx'⟩ := hserver
      rw [hx, hx']
      exact ⟨⟨g, junk, junk', rfl⟩, g', junk₁, E.server_e_ctx, hfresh, rfl⟩
  | @step x x' e _ hstep ih =>
    cases e with
    | client e =>
      obtain ⟨hclient, hserver, hwire⟩ := hstep
      have hlinked := Local.Duplex.Linked.of_reach hK hcount hinit ih.client
      obtain ⟨⟨es, hrun⟩, -⟩ := hlinked.step (Local.Inv.of_reach hK hcount hinit hlinked.conn) hclient
      refine ⟨ih.client.step hclient, hserver ▸ ih.server, hserver ▸ hwire, ?_⟩
      rw [hserver]
      exact (tunnel_client_run hrun _).reach ih.tunnel
    | server e =>
      obtain ⟨hserver, hclient, hsegs⟩ := hstep
      refine ⟨hclient ▸ ih.client, ih.server.step hserver, ?_, ?_⟩
      · rw [hclient]
        exact ih.wire.trans (Conn.fire_grows hserver.1.1)
      · rw [hclient]
        exact ih.tunnel.step (e := .server e) ⟨hserver.1, rfl, hsegs⟩

/-- In every interleaving of both ends, with the stream of `q`, whose request is `req`, unless the client connects to
its destination itself. -/
structure Serves (K K' : CryptoT Ctx G) (A : Option AclT) (N : NetLib) (E : Endpoints Ctx G) (Counts' : Nat → Prop)
    (q : ClientStream) (req : Request) : Prop where
  /-- The destination gets nothing but payload of the client, in order. -/
  upload : ∀ x, (twoWay K K' A N E q.bytes).Reach x → x.client.conn.direct = false →
    (x.server.observed.requests = [] ∨ x.server.observed.requests = req.carried) ∧
      x.server.observed.conn.toRemote <+: q.body x.client.conn.received ∧ q.body x.client.conn.received <+: q.payload
  /-- The client gets nothing but what the destination has sent, in order, and behind the replies to its handshake. -/
  download : ∀ x, (twoWay K K' A N E q.bytes).Reach x → x.client.conn.direct = false →
    (∀ n ≤ x.server.answered.length, Counts' n) → x.client.toClient <+: x.server.answered ∧
      (x.client.conn.server ≠ none → x.client.fetched ≠ [] → x.client.conn.replies = q.answers q.bytes.length)
  /-- ss-local takes whatever has arrived. -/
  takes : ∀ x, (twoWay K K' A N E q.bytes).Reach x → x.client.conn.direct = false →
    (∀ n ≤ x.server.answered.length, Counts' n) → ∀ e y, x.client.conn.received ++ e.data <+: q.bytes →
    x.client.fetched ++ e.fetched <+: x.server.observed.conn.toClient → x.client.fire K A e = some y → ∃ d, y = .ok d
  /-- When nothing is on the way, the client has all that ss-server has read from the destination. -/
  complete : ∀ x, (twoWay K K' A N E q.bytes).Reach x → x.client.conn.direct = false →
    (∀ n ≤ x.server.answered.length, Counts' n) → x.client.conn.server ≠ none → x.client.send_io = false →
    x.client.fetched = x.server.observed.conn.toClient →
    (∃ server, x.server.observed.conn.server = some server ∧ server.send_io = false) →
    x.client.toClient = x.server.answered

/-- What ss-server has encrypted is what it has read, and a part of that is on the way. -/
theorem Linked.encoded (h : Linked K K' A N E q x)
    (hK : Encodes K E.server_fresh E.server_d_ctx Counts q.address Whole sends) (hinit : sends [] [] E.e_ctx)
    (hcount : ∀ n ≤ (q.address ++ q.payload).length, Counts n)
    (hK' : Encodes K' E.fresh E.d_ctx Counts' [] Whole' sends') (hinit' : sends' [] [] E.server_e_ctx)
    (hdecrypt : K'.decrypt = K.decrypt) (hdirect : x.client.conn.direct = false)
    (hcount' : ∀ n ≤ x.server.answered.length, Counts' n) :
    x.server.observed.conn.Inv ∧ ∃ ctx, sends' x.server.answered x.server.observed.conn.encrypted ctx := by
  have hup := Tunnel.Linked.of_reach h.tunnel
  have hinv := Local.Inv.of_reach hK hcount hinit hup.client
  obtain ⟨plain, wire, ctx, hsends, hwire, hplain, -⟩ := hinv.sent hdirect
  have hle := (hplain.trans (ClientStream.plain_prefix hinv.received)).length_le
  obtain ⟨wire', D, R, hdec₁, hwire', hnil, -, hfresh, -⟩ := hK.decodes hsends (hcount _ hle)
  have hdec := hdec₁.of_decrypt hdecrypt
  have hpre := hup.wire.trans (hwire.trans hwire')
  exact ⟨(Observed.Inv.of_reach hdec hnil hfresh hup.server hpre).relay,
    (Answered.Inv.of_reach hdec hnil hfresh hK' hinit' h.server hpre hcount').encoded⟩

theorem serves_of_encodes (hK : Encodes K E.server_fresh E.server_d_ctx Counts q.address Whole sends)
    (hinit : sends [] [] E.e_ctx) (hcount : ∀ n ≤ (q.address ++ q.payload).length, Counts n)
    (hK' : Encodes K' E.fresh E.d_ctx Counts' [] Whole' sends') (hinit' : sends' [] [] E.server_e_ctx)
    (hdecrypt : K'.decrypt = K.decrypt) {req : Request}
    (hreq : serverDestination N q.header = .ok req) : Serves K K' A N E Counts' q req := by
  -- what ss-server has encrypted is the stream that ss-local receives
  have hdown : ∀ {x : TwoWay Ctx G}, (twoWay K K' A N E q.bytes).Reach x → x.client.conn.direct = false →
      (∀ n ≤ x.server.answered.length, Counts' n) → Linked K K' A N E q x ∧ x.server.observed.conn.Inv ∧
        Local.Downloads K A E.fresh E.e_ctx E.d_ctx q x.server.observed.conn.encrypted x.server.answered := by
    intro x hx hdirect hcount'
    have h := Linked.of_reach hK hcount hinit hx
    obtain ⟨hinv, ctx, hsent⟩ := h.encoded hK hinit hcount hK' hinit' hdecrypt hdirect hcount'
    exact ⟨h, hinv, Local.downloads_of_encodes hK hcount hinit hK' hdecrypt.symm hsent (hcount' _ (Nat.le_refl _))⟩
  refine ⟨?_, ?_, ?_, ?_⟩
  · intro x hx hdirect
    have htunnel := (Linked.of_reach hK hcount hinit hx).tunnel
    exact (Tunnel.serves_of_encodes hK hdecrypt hinit hcount hreq).safe _ htunnel hdirect
  · intro x hx hdirect hcount'
    obtain ⟨h, hinv, hd⟩ := hdown hx hdirect hcount'
    have hfed := h.wire.trans hinv.toClient
    obtain ⟨out, -, hout, -, hclient, -⟩ := hd.download _ h.client hdirect hfed
    exact ⟨hclient.trans hout, fun hopen => (hd.ordered _ h.client (fun _ => hfed) hopen).1⟩
  · intro x hx hdirect hcount' e y hdata hpart hfire
    obtain ⟨h, hinv, hd⟩ := hdown hx hdirect hcount'
    exact hd.defined _ h.client e y hdata (fun _ => hpart.trans hinv.toClient) hfire
  · rintro x hx hdirect hcount' hopen hsend hall ⟨server, hs, hsent⟩
    obtain ⟨h, hinv, hd⟩ := hdown hx hdirect hcount'
    obtain ⟨out, -, -, hwhole, -, hclient⟩ := hd.download _ h.client hdirect (h.wire.trans hinv.toClient)
    have hencrypted : x.server.observed.conn.encrypted = x.server.observed.conn.toClient := by
      rw [(hinv.server server hs).1, ServerT.unsent, hsent]
      exact List.append_nil _
    rw [hclient hopen hsend, hwhole (hall.trans hencrypted.symm)]

end

section
variable {L : CryptoLib} {byte : StreamMethod → Bool → Bytes → Bytes → Bytes → UInt8 → UInt8}
  {ks : StreamMethod → Bytes → Bytes → Nat → UInt8}

/-- Both ends of an AEAD cipher, with the salts that they send. -/
def aeadEndpoints (L : CryptoLib) (M : AeadMethod) (key salt salt' : Bytes) : Endpoints AeadCtx CryptoState where
  e_ctx := aead_ctx_init (aead_key_init M key) (some salt)
  d_ctx := aead_ctx_init (aead_key_init M key) none
  fresh := AeadCtx.Fresh L salt'
  server_e_ctx := aead_ctx_init (aead_key_init M key) (some salt')
  server_d_ctx := aead_ctx_init (aead_key_init M key) none
  server_fresh := AeadCtx.Fresh L salt

/-- Both ends of a stream cipher, if their contexts can be made. -/
def streamEndpoints (L : CryptoLib) (M : StreamMethod) (key iv iv' : Bytes) :
    C (Endpoints StreamCtx CryptoStatics) := do
  let e_ctx ← stream_ctx_init L (stream_key_init M key) true iv
  let d_ctx ← stream_ctx_init L (stream_key_init M key) false []
  let server_e_ctx ← stream_ctx_init L (stream_key_init M key) true iv'
  return ⟨e_ctx, d_ctx, StreamCtx.Fresh L (stream_key_init M key) iv', server_e_ctx, d_ctx,
    StreamCtx.Fresh L (stream_key_init M key) iv⟩

/-- Both families, in both directions at once. -/
theorem two_way_delivers (hL : L.Lawful) (hlen : L.Lengths) (hS : L.Streams byte ks) (A : Option AclT) (N : NetLib)
    (q : ClientStream) {req : Request}
    (hreq : serverDestination N q.header = .ok req) :
    (∀ (M : AeadMethod) (key salt salt' : Bytes), salt.length = supported_aead_ciphers_key_size M →
      salt'.length = supported_aead_ciphers_key_size M →
      Serves (aeadCrypto L) (aeadCrypto L) A N (aeadEndpoints L M key salt salt') (fun _ => True) q req) ∧
    ∀ (M : StreamMethod) (key iv iv' : Bytes), stream_supported L M →
      key.length = supported_stream_ciphers_key_size M → iv.length = supported_stream_ciphers_nonce_size M →
      iv'.length = supported_stream_ciphers_nonce_size M → M.Counts (q.address ++ q.payload).length →
      ∃ E, streamEndpoints L M key iv iv' = .ok E ∧
        Serves (localStreamCrypto L) (streamCrypto L) A N E M.Counts q req := by
  constructor
  · intro M key salt salt' hsalt hsalt'
    have hs : (aead_key_init M key).Supported := supported_aead_key_init M key
    exact serves_of_encodes (aead_encodes hL hlen hs hsalt q.address) (aead_ctx_init_sent hL hs hsalt)
      (fun _ _ => trivial) (aead_encodes hL hlen hs hsalt' []) (aead_ctx_init_sent hL hs hsalt')
      rfl hreq
  · intro M key iv iv' hM hkey hiv hiv' hcount
    have hstart : ∃ ctx, stream_ctx_init L (stream_key_init M key) true iv = .ok ctx ∧
        ctx.Sent L byte ks (stream_key_init M key) iv [] [] := stream_ctx_init_sent hM key hiv
    have hstart' : ∃ ctx, stream_ctx_init L (stream_key_init M key) true iv' = .ok ctx ∧
        ctx.Sent L byte ks (stream_key_init M key) iv' [] [] := stream_ctx_init_sent hM key hiv'
    obtain ⟨e_ctx, he, hinit⟩ := hstart
    obtain ⟨server_e_ctx, he', hinit'⟩ := hstart'
    obtain ⟨d_ctx, hd, -⟩ := stream_ctx_init_decoding hM key iv
    refine ⟨_, ?_, serves_of_encodes
      (E := ⟨e_ctx, d_ctx, StreamCtx.Fresh L (stream_key_init M key) iv', server_e_ctx, d_ctx,
        StreamCtx.Fresh L (stream_key_init M key) iv⟩)
      (local_stream_encodes hS hlen hM hkey hiv hd q.address) hinit (fun n hn => hcount.mono hn)
      (stream_encodes hS hlen hM hkey hiv' hd []) hinit' rfl hreq⟩
    simp only [streamEndpoints, he, hd, he', C.ok_bind]
    rfl

end

theorem two_way_delivers_loopback :
    Serves (aeadCrypto xorLib) (aeadCrypto xorLib) none openNet
      (aeadEndpoints xorLib .AES128GCM (List.replicate 16 1) (List.replicate 16 4) (List.replicate 16 5))
      (fun _ => True) Local.loopbackStream loopbackRequest ∧
    ∃ E, streamEndpoints xorLib .CHACHA20 (List.replicate 32 1) (List.replicate 8 2) (List.replicate 8 3) = .ok E ∧
      Serves (localStreamCrypto xorLib) (streamCrypto xorLib) none openNet E StreamMethod.CHACHA20.Counts
        Local.loopbackStream loopbackRequest := by
  have hreq : serverDestination openNet Local.loopbackStream.header = .ok loopbackRequest := rfl
  have h := two_way_delivers xorLib_lawful xorLib_lengths xorLib_streams none openNet
    Local.loopbackStream hreq
  refine ⟨h.1 .AES128GCM (List.replicate 16 1) (List.replicate 16 4) (List.replicate 16 5) rfl rfl, ?_⟩
  exact h.2 .CHACHA20 (List.replicate 32 1) (List.replicate 8 2) (List.replicate 8 3) ⟨by decide, .inl (by decide)⟩
    rfl rfl rfl (StreamMethod.counts_of_lt (by decide))

end TwoWay

end OutlineServer
