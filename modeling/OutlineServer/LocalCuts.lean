import OutlineServer.LocalRuns
import OutlineServer.Lib.Ensures

/-!
# The cuts of a client's stream

What ss-local answers, and what it passes on, depends on the bytes that have arrived and not on the segments in which
they have.
-/

namespace OutlineServer.Local

/-! ### What a callback reads and sends -/

section
variable {Ctx G α : Type} {K : CryptoT Ctx G} {A : Option AclT} {c : Conn Ctx G} {server : ServerT Ctx}
  {remote : RemoteT} {bs sent : Bytes}

/-- The bytes that have been read, and those that `remote` has accepted. -/
def Conn.moved (c : Conn Ctx G) : Bytes × Bytes := (c.received, c.toRemote)

/-- If the computation gives a connection, it has read `bs`, and `remote` has accepted `sent` first. -/
def Grows (bs sent : Bytes) (x : C (Conn Ctx G)) : Prop :=
  x.Ensures (fun _ => True) fun c => c.received = bs ∧ sent <+: c.toRemote

theorem Grows.same {c' : Conn Ctx G} (h : c'.moved = c.moved) : Grows c.received c.toRemote (.ok c') := by
  obtain ⟨hread, hsent⟩ := Prod.mk.inj h
  exact ⟨hread, hsent ▸ List.prefix_rfl⟩

theorem ensures_bind {β : Type} {x : C α} {f : α → C β} {Q : β → Prop} (h : ∀ a, (f a).Ensures (fun _ => True) Q) :
    (x >>= f).Ensures (fun _ => True) Q := by
  cases x with
  | ok a => exact h a
  | error e => exact trivial

theorem sendRemote_grows (c : Conn Ctx G) (buf : Buffer) (off n : Nat) :
    Grows c.received c.toRemote (c.sendRemote buf off n) :=
  ensures_bind fun _ => ⟨rfl, List.prefix_append _ _⟩

theorem Grows.nil {x : C (Conn Ctx G)} (h : Grows bs sent x) : Grows (bs ++ []) sent x := by
  rwa [List.append_nil]

theorem Grows.bind {x : C (Conn Ctx G)} {f : Conn Ctx G → C (Conn Ctx G)} (h : Grows bs sent x)
    (hf : ∀ c, (f c).Ensures (fun _ => True) fun c' => c'.moved = c.moved) : Grows bs sent (x >>= f) := by
  refine Except.Ensures.bind h fun c' hc' => (hf c').mono fun c'' hsame => ?_
  obtain ⟨hread, hsent⟩ := Prod.mk.inj hsame
  rw [hread, hsent]
  exact hc'

theorem streamSend_grows (c : Conn Ctx G) (server : ServerT Ctx) (remote : RemoteT) (io : StreamIo) :
    Grows c.received c.toRemote (streamSend c server remote io) := by
  rw [streamSend]
  split
  · split
    · split
      · exact .same rfl
      · exact .same rfl
    · split
      · exact .same rfl
      · exact .same rfl
      · exact (sendRemote_grows ..).bind fun _ => rfl
  · split
    · exact .same rfl
    · exact .same rfl
    · split
      · exact (sendRemote_grows ..).bind fun _ => rfl
      · exact (sendRemote_grows ..).bind fun _ => rfl

theorem server_stream_grows (K : CryptoT Ctx G) (c : Conn Ctx G) (server : ServerT Ctx) (io : StreamIo) :
    Grows c.received c.toRemote (server_stream K c server io) := by
  rw [server_stream]
  split
  · exact .same rfl
  · split
    · exact streamSend_grows ..
    · refine ensures_bind fun r => ?_
      obtain ⟨ret, buf, e_ctx, g⟩ := r
      simp only
      split
      · exact Grows.same rfl
      · exact ensures_bind fun buf => streamSend_grows { c with g } _ _ io

/-- The handshake sends nothing to `remote`. -/
theorem server_handshake_same (K : CryptoT Ctx G) (A : Option AclT) (c : Conn Ctx G) (server : ServerT Ctx)
    (io : HandshakeIo) :
    (server_handshake K A c server io).Ensures (fun _ => True) fun r => r.1.moved = c.moved := by
  have hreply : ∀ (c : Conn Ctx G) udp, (server_handshake_reply c server udp io).1.moved = c.moved := by
    intro c udp
    rw [server_handshake_reply]
    split
    · rfl
    · split
      · rfl
      · split <;> rfl
  have hconnect : ∀ (c : Conn Ctx G) (server : ServerT Ctx) abuf dst,
      (handshakeConnect K A c server abuf dst io).Ensures (fun _ => True) fun r => r.1.moved = c.moved := by
    intro c server abuf dst
    simp only [handshakeConnect]
    split
    · rfl
    · split <;> refine ensures_bind fun r => ?_ <;> split
      · rfl
      · exact ensures_bind fun _ => ensures_bind fun _ => rfl
      · rfl
      · exact ensures_bind fun _ => ensures_bind fun _ => rfl
  rw [server_handshake]
  split
  · rfl
  refine ensures_bind fun cmd => ?_
  split
  · exact hreply ..
  split
  · rfl
  split
  · exact trivial
  refine ensures_bind fun r => ?_
  obtain ⟨abuf, address⟩ := r
  cases address with
  | more => rfl
  | unsupported => rfl
  | found dst =>
    simp only
    split
    · exact hreply ..
    · refine ensures_bind fun buf => (hconnect ..).mono fun r hr => hr.trans (hreply ..)

theorem handshakeRounds_grows (K : CryptoT Ctx G) (A : Option AclT) (c : Conn Ctx G) (server : ServerT Ctx)
    (h : HandshakeIo) (s : StreamIo) : Grows c.received c.toRemote (handshakeRounds K A c server h s) := by
  refine Except.Ensures.bind (server_handshake_same K A c server h) fun r hr => ?_
  obtain ⟨c₁, more⟩ := r
  obtain ⟨hread, hsent⟩ := Prod.mk.inj hr
  rw [← hread, ← hsent]
  dsimp only
  split
  · exact server_stream_grows ..
  · exact Grows.same rfl

theorem serverRounds_grows (K : CryptoT Ctx G) (A : Option AclT) (c : Conn Ctx G) (server : ServerT Ctx)
    (h : HandshakeIo) (s : StreamIo) : Grows c.received c.toRemote (serverRounds K A c server h s) := by
  have hinit : (serverInit c server).Ensures (fun _ => True) fun r => r.1.moved = c.moved := by
    simp only [serverInit]
    split
    · rfl
    refine ensures_bind fun ver => ?_
    split
    · rfl
    split
    · rfl
    refine ensures_bind fun nmethods => ?_
    split
    · rfl
    refine ensures_bind fun methods => ?_
    generalize (if METHOD_NOAUTH ∈ methods then METHOD_NOAUTH else METHOD_UNACCEPTABLE) = method
    split
    · rfl
    split
    · exact ensures_bind fun _ => rfl
    · rfl
  rw [serverRounds]
  split
  · exact server_stream_grows ..
  · exact handshakeRounds_grows ..
  · refine Except.Ensures.bind hinit fun r hr => ?_
    obtain ⟨c₁, server₁, more⟩ := r
    obtain ⟨hread, hsent⟩ := Prod.mk.inj hr
    rw [← hread, ← hsent]
    simp only
    split
    · exact handshakeRounds_grows ..
    · exact Grows.same rfl

/-- What `recv` has read. -/
def recvData : Option Recv → Bytes
  | some (.data bs) => bs
  | _ => []

theorem server_recv_cb_grows (K : CryptoT Ctx G) (A : Option AclT) (c : Conn Ctx G) (server : ServerT Ctx)
    (r : Option Recv) (h : HandshakeIo) (s : StreamIo) :
    Grows (c.received ++ recvData r) c.toRemote (server_recv_cb K A c server r h s) := by
  simp only [server_recv_cb]
  split
  · exact Grows.nil (serverRounds_grows ..)
  · exact Grows.nil (.same rfl)
  · exact Grows.nil (.same rfl)
  · exact Grows.nil (.same rfl)
  · split
    · exact ensures_bind fun _ => serverRounds_grows K A { c with received := _ } _ h s
    · exact ensures_bind fun _ => serverRounds_grows K A { c with received := _, remote := _ } _ h s

theorem remoteSendData_grows (c : Conn Ctx G) (server : ServerT Ctx) (remote : RemoteT) (s : Send) :
    Grows c.received c.toRemote (remoteSendData c server remote s) := by
  simp only [remoteSendData]
  split
  · exact .same rfl
  split
  · exact .same rfl
  · exact .same rfl
  · split
    · exact (sendRemote_grows ..).bind fun _ => rfl
    · exact (sendRemote_grows ..).bind fun _ => rfl

theorem remote_send_cb_grows (c : Conn Ctx G) (remote : RemoteT) (connected : Bool) (s : Send) :
    Grows c.received c.toRemote (remote_send_cb c remote connected s) := by
  rw [remote_send_cb]
  split
  · exact trivial
  split
  · exact remoteSendData_grows ..
  split
  · simp only
    split
    · exact .same rfl
    · exact remoteSendData_grows ..
  · exact .same rfl

theorem fire_grows {e : Event G} {x : C (Conn Ctx G)} (hfire : c.fire K A e = some x) :
    Grows (c.received ++ e.data) c.toRemote x := by
  cases e with
  | serverRecv r h s =>
    obtain ⟨server, -, hfire⟩ := Option.bind_eq_some_iff.1 hfire
    split at hfire
    · cases hfire
      have hdata : (Event.serverRecv r h s : Event G).data = recvData (some r) := by
        cases r <;> rfl
      rw [hdata]
      exact server_recv_cb_grows ..
    · cases hfire
  | delayedConnect h s =>
    obtain ⟨server, -, hfire⟩ := Option.bind_eq_some_iff.1 hfire
    split at hfire
    · cases hfire
      exact server_recv_cb_grows K A c server none h s
    · cases hfire
  | remoteSend connected s =>
    obtain ⟨remote, -, hfire⟩ := Option.bind_eq_some_iff.1 hfire
    split at hfire
    · cases hfire
      exact Grows.nil (remote_send_cb_grows ..)
    · cases hfire
  | download buf =>
    obtain ⟨server, -, hfire⟩ := Option.bind_eq_some_iff.1 hfire
    split at hfire
    · cases hfire
      exact Grows.nil (.same rfl)
    · cases hfire
  | close | other g =>
    cases hfire
    exact Grows.nil (.same rfl)

end

/-! ### Cuts do not show -/

section
variable {Ctx G : Type} {K : CryptoT Ctx G} {A : Option AclT} {fresh : Ctx → G → Prop} {e_ctx d_ctx : Ctx}
  {q : ClientStream} {c c' : Conn Ctx G} {stream : Bytes}

/-- However the stream of `q` is cut, and whatever the results of the system calls. -/
structure CutFree (K : CryptoT Ctx G) (A : Option AclT) (fresh : Ctx → G → Prop) (e_ctx d_ctx : Ctx)
    (q : ClientStream) : Prop where
  /-- Runs that have read the same bytes have sent the same replies. -/
  replies : ∀ c c', (client K A e_ctx q.bytes).Reach c → (client K A e_ctx q.bytes).Reach c' →
    c.received = c'.received → c.replies = c'.replies
  /-- A stream that fits into the buffer can be read in one piece. -/
  uncut : q.bytes.length ≤ SOCKET_BUF_SIZE → ∀ g junk junk' h s, ∃ c',
    (acceptedConn g junk junk' e_ctx).fire K A (.serverRecv (.data q.bytes) h s) = some (.ok c') ∧
      (client K A e_ctx q.bytes).Reach c' ∧ c'.received = q.bytes
  upload : ∀ c, (client K A e_ctx q.bytes).Reach c → c.direct = false →
    ∃ out, K.Delivers (fresh d_ctx) d_ctx c.toRemote out ∧ out <+: q.address ++ q.payload ∧
      (c.received = q.bytes → c.Idle → out = q.address ++ q.payload)
  bypass : ∀ c, (client K A e_ctx q.bytes).Reach c → c.direct = true → Bypasses A q.dst ∧ c.toRemote <+: q.payload

theorem ClientStream.body_bytes (q : ClientStream) : q.body q.bytes = q.payload := by
  rw [body, bytes, ← List.append_assoc, ← List.length_append, List.drop_left]

theorem fire_uncut (hlen : q.bytes.length ≤ SOCKET_BUF_SIZE) (g : G) (junk junk' : Block) (h : HandshakeIo)
    (s : StreamIo) : (acceptedConn g junk junk' e_ctx).fire K A (.serverRecv (.data q.bytes) h s) =
      some (server_recv_cb K A (acceptedConn g junk junk' e_ctx) (new_server junk junk' e_ctx)
        (some (.data q.bytes)) h s) := by
  have hne : q.bytes ≠ [] := by simp [ClientStream.bytes, ClientStream.select]
  have hroom : (acceptedConn g junk junk' e_ctx).canRecv (new_server junk junk' e_ctx) (.data q.bytes) = true := by
    simpa [Conn.canRecv, acceptedConn, new_server, balloc] using And.intro hne hlen
  rw [Conn.fire, acceptedConn, Option.bind_some, ← acceptedConn, hroom]
  rfl

theorem Serves.cutFree (h : Serves K A fresh e_ctx d_ctx q) : CutFree K A fresh e_ctx d_ctx q where
  replies c c' hc hc' heq := by rw [h.replies c hc, h.replies c' hc', heq]
  uncut hlen g junk junk' hio io := by
    have hinit : (client K A e_ctx q.bytes).Reach (acceptedConn g junk junk' e_ctx) := .init ⟨g, junk, junk', rfl⟩
    have hdata : (acceptedConn g junk junk' e_ctx).received ++
        (Event.serverRecv (.data q.bytes) hio io : Event G).data <+: q.bytes := List.prefix_rfl
    have hfire := @fire_uncut _ _ K A e_ctx q hlen g junk junk' hio io
    obtain ⟨c', hc'⟩ := h.defined _ hinit _ _ hdata hfire
    refine ⟨c', hfire.trans (congrArg some hc'), hinit.step ⟨hdata, hfire.trans (congrArg some hc')⟩, ?_⟩
    exact ((fire_grows hfire).of_eq_ok hc').1
  upload c hc hdirect := by
    obtain ⟨out, hdel, hout, hbody, hall⟩ := h.upload c hc hdirect
    refine ⟨out, hdel, hout.trans ((List.prefix_append_right_inj _).2 hbody), fun hread hidle => ?_⟩
    rw [hall hidle, hread, q.body_bytes]
  bypass c hc hdirect := by
    obtain ⟨hacl, hsent, hbody⟩ := h.bypass c hc hdirect
    exact ⟨hacl, hsent.trans hbody⟩

end

section
variable {L : CryptoLib} {byte : StreamMethod → Bool → Bytes → Bytes → Bytes → UInt8 → UInt8}
  {ks : StreamMethod → Bytes → Bytes → Nat → UInt8}

/-- Both families: neither the replies nor what a server decrypts shows how the client's stream was cut. -/
theorem cut_free (hL : L.Lawful) (hlen : L.Lengths) (hS : L.Streams byte ks) (A : Option AclT) (q : ClientStream) :
    (∀ (M : AeadMethod) (key salt : Bytes), salt.length = supported_aead_ciphers_key_size M →
      CutFree (aeadCrypto L) A (AeadCtx.Fresh L salt)
        (aead_ctx_init (aead_key_init M key) (some salt)) (aead_ctx_init (aead_key_init M key) none) q) ∧
    ∀ (M : StreamMethod) (key iv : Bytes), stream_supported L M → key.length = supported_stream_ciphers_key_size M →
      iv.length = supported_stream_ciphers_nonce_size M → M.Counts (q.address ++ q.payload).length →
      ∃ e_ctx d_ctx, stream_ctx_init L (stream_key_init M key) true iv = .ok e_ctx ∧
        stream_ctx_init L (stream_key_init M key) false [] = .ok d_ctx ∧
        CutFree (localStreamCrypto L) A (StreamCtx.Fresh L (stream_key_init M key) iv) e_ctx d_ctx q := by
  refine ⟨fun M key salt hsalt => (serves_aead hL hlen A q M key hsalt).cutFree, ?_⟩
  intro M key iv hM hkey hiv hcount
  obtain ⟨e_ctx, d_ctx, he, hd, hserves⟩ := serves_stream hlen hS A q hM hkey hiv hcount
  exact ⟨e_ctx, d_ctx, he, hd, hserves.cutFree⟩

end

theorem cut_free_loopback :
    CutFree (aeadCrypto xorLib) none (AeadCtx.Fresh xorLib (List.replicate 16 4))
      (aead_ctx_init (aead_key_init .AES128GCM (List.replicate 16 1)) (some (List.replicate 16 4)))
      (aead_ctx_init (aead_key_init .AES128GCM (List.replicate 16 1)) none) loopbackStream ∧
    ∃ e_ctx d_ctx, stream_ctx_init xorLib (stream_key_init .CHACHA20 (List.replicate 32 1)) true (List.replicate 8 2) =
        .ok e_ctx ∧
      stream_ctx_init xorLib (stream_key_init .CHACHA20 (List.replicate 32 1)) false [] = .ok d_ctx ∧
      CutFree (localStreamCrypto xorLib) none
        (StreamCtx.Fresh xorLib (stream_key_init .CHACHA20 (List.replicate 32 1)) (List.replicate 8 2))
        e_ctx d_ctx loopbackStream := by
  have h := cut_free xorLib_lawful xorLib_lengths xorLib_streams none loopbackStream
  refine ⟨h.1 .AES128GCM (List.replicate 16 1) (List.replicate 16 4) rfl, ?_⟩
  exact h.2 .CHACHA20 (List.replicate 32 1) (List.replicate 8 2) ⟨by decide, .inl (by decide)⟩ rfl rfl
    (StreamMethod.counts_of_lt (by decide))

/-! ### A client that bypasses the server -/

theorem fire_of_toOption {Ctx G : Type} {K : CryptoT Ctx G} {A : Option AclT} {c c' : Conn Ctx G} {e : Event G}
    (h : (c.fire K A e).bind Except.toOption = some c') : c.fire K A e = some (.ok c') := by
  obtain ⟨x, hx, h⟩ := Option.bind_eq_some_iff.1 h
  cases x with
  | ok c₁ =>
    cases h
    exact hx
  | error err => cases h

/-- Every host is on the black list. -/
def bypassAll : AclT where
  get_acl_mode := .BLACK_LIST
  acl_match_host _ := 1
  inet_ntop _ := []

/-- The stream in one piece; the destination is looked up and connected to. -/
def bypassRecv : Event CryptoState :=
  .serverRecv (.data loopbackStream.bytes) ⟨none, true, none, true, true, true, fun _ => 0⟩ ⟨false, true, .again⟩

def sendingCtx : AeadCtx :=
  aead_ctx_init (aead_key_init .AES128GCM (List.replicate 16 1)) (some (List.replicate 16 4))

def receivingCtx : AeadCtx := aead_ctx_init (aead_key_init .AES128GCM (List.replicate 16 1)) none

def bypassStart : Conn AeadCtx CryptoState := acceptedConn .start (fun _ => 0) (fun _ => 0) sendingCtx

/-- The destination gets the payload as it is, which is no ciphertext. -/
theorem bypass_undecryptable :
    ∃ c, (client (aeadCrypto xorLib) (some bypassAll) sendingCtx loopbackStream.bytes).Reach c ∧
      c.direct = true ∧ c.toRemote = loopbackStream.payload ∧
      ∀ out, ¬ (aeadCrypto xorLib).Delivers (AeadCtx.Fresh xorLib (List.replicate 16 4) receivingCtx) receivingCtx
        c.toRemote out := by
  have hrun : ((bypassStart.fire (aeadCrypto xorLib) (some bypassAll) bypassRecv).bind Except.toOption).bind (fun c₁ =>
      ((c₁.fire (aeadCrypto xorLib) (some bypassAll) (.remoteSend true (.sent 60))).bind Except.toOption).map fun c =>
        (c₁.received, c.direct, c.toRemote)) = some (loopbackStream.bytes, true, loopbackStream.payload) := by
    decide +kernel
  obtain ⟨c₁, h₁, hrun⟩ := Option.bind_eq_some_iff.1 hrun
  obtain ⟨c, h₂, hfacts⟩ := Option.map_eq_some_iff.1 hrun
  simp only [Prod.mk.injEq] at hfacts
  obtain ⟨hread, hdirect, hsent⟩ := hfacts
  have hstart : (client (aeadCrypto xorLib) (some bypassAll) sendingCtx loopbackStream.bytes).Reach bypassStart :=
    .init ⟨_, _, _, rfl⟩
  have hdata : c₁.received ++ (Event.remoteSend true (.sent 60) : Event CryptoState).data <+: loopbackStream.bytes := by
    rw [hread]
    exact List.prefix_rfl
  refine ⟨c, (hstart.step ⟨List.prefix_rfl, fire_of_toOption h₁⟩).step ⟨hdata, fire_of_toOption h₂⟩, hdirect, hsent,
    fun out hdel => ?_⟩
  rw [hsent] at hdel
  obtain ⟨rs, ctx, g', hcalls, hok, -⟩ := hdel .start
    [{ Buffer.ofBytes loopbackStream.payload with capacity := SOCKET_BUF_SIZE }] (fun _ => by decide +kernel)
    (List.forall_mem_singleton.2 ⟨⟨by decide, by decide⟩, by decide⟩) (by decide +kernel)
  have herr : ((aeadCrypto xorLib).decryptCalls .start receivingCtx
      [{ Buffer.ofBytes loopbackStream.payload with capacity := SOCKET_BUF_SIZE }]).toOption.map
        (fun r => r.1.map (·.1)) = some [.CRYPTO_ERROR] := by
    decide +kernel
  rw [hcalls] at herr
  have hrets : rs.map (·.1) = [.CRYPTO_ERROR] := Option.some.inj herr
  have hmem : .CRYPTO_ERROR ∈ rs.map (·.1) := by
    rw [hrets]
    exact List.mem_singleton_self _
  obtain ⟨r, hr, hret⟩ := List.mem_map.1 hmem
  exact hok r hr hret

end OutlineServer.Local
