import OutlineServer.Segmentation

/-!
# What a connection encrypts

`Encodes` is what a sender gets from a cipher: its calls do not fail, and however the bytes of the returned buffers are
cut on the way, what has arrived decrypts to a prefix of what was encrypted.
-/

namespace OutlineServer
open Deframer Streaming

/-! ### Receiving -/

section
variable {Ctx G : Type}

/-- Calls of `crypto->decrypt` in one context. -/
abbrev CryptoT.decryptCalls (K : CryptoT Ctx G) : G → Ctx → List Buffer → C (List (CryptoRet × Bytes) × Ctx × G) :=
  callsUntilError fun g b ctx => K.decrypt g b ctx SOCKET_BUF_SIZE

/-- However `wire` is cut, a context that starts as `d_ctx` decrypts it to `out`, when the filter is `fresh`. -/
def CryptoT.Delivers (K : CryptoT Ctx G) (fresh : G → Prop) (d_ctx : Ctx) (wire out : Bytes) : Prop :=
  ∀ g bs, fresh g → (∀ b ∈ bs, b.Hands SOCKET_BUF_SIZE ∧ 0 < b.len) → fedBytes bs = wire →
    ∃ rs ctx g', K.decryptCalls g d_ctx bs = .ok (rs, ctx, g') ∧ (∀ r ∈ rs, r.1 ≠ .CRYPTO_ERROR) ∧ delivered rs = out

variable {K : CryptoT Ctx G} {wire plain : Bytes} {D : Bytes → Bytes} {fresh : Ctx → G → Prop}
  {R : Bytes → G → Ctx → Prop}

theorem Decodes.decryptCalls (hK : Decodes K wire plain D fresh R) (bs : List Buffer)
    (hbs : ∀ b ∈ bs, b.Hands SOCKET_BUF_SIZE ∧ 0 < b.len) {fed : Bytes} {g : G} {ctx : Ctx} (h : R fed g ctx)
    (hfed : fed ++ fedBytes bs <+: wire) :
    ∃ rs ctx' g', K.decryptCalls g ctx bs = .ok (rs, ctx', g') ∧ (∀ r ∈ rs, r.1 ≠ .CRYPTO_ERROR) ∧
      D (fed ++ fedBytes bs) = D fed ++ delivered rs := by
  induction bs generalizing fed g ctx with
  | nil => exact ⟨[], ctx, g, rfl, by simp, by simp [fedBytes, OutlineServer.delivered]⟩
  | cons b bs ih =>
    obtain ⟨⟨hb, hpos⟩, hbs⟩ := List.forall_mem_cons.1 hbs
    rw [fedBytes_cons, ← List.append_assoc] at hfed ⊢
    obtain ⟨ret, b', ctx₁, g₁, out, hcall, hD, hans, -, hR⟩ :=
      hK.decrypt h hb hpos ((List.prefix_append _ _).trans hfed)
    obtain ⟨rs, ctx', g', hrun, herr, hD'⟩ := ih hbs hR hfed
    have hret := hans.ne_error
    refine ⟨(ret, b'.bytes) :: rs, ctx', g', ?_, List.forall_mem_cons.2 ⟨hret, herr⟩, ?_⟩
    · simp only [callsUntilError, hcall, C.ok_bind, hret, ↓reduceIte, hrun]
      rfl
    · rw [hD', hD, delivered_cons, hans.delivered, List.append_assoc]

/-- What has arrived of a stream that can be decoded is delivered. -/
theorem Decodes.delivers (hK : Decodes K wire plain D fresh R) (hnil : D [] = []) {ok : G → Prop} {d_ctx : Ctx}
    (hinit : ∀ g, ok g → R [] g d_ctx) {fed : Bytes} (hfed : fed <+: wire) : K.Delivers ok d_ctx fed (D fed) := by
  intro g bs hok hbs hcut
  obtain ⟨rs, ctx, g', hrun, herr, hD⟩ := hK.decryptCalls bs hbs (hinit g hok) (by rwa [List.nil_append, hcut])
  refine ⟨rs, ctx, g', hrun, herr, ?_⟩
  rw [List.nil_append, hcut, hnil, List.nil_append] at hD
  exact hD.symm

end

/-! ### Sending -/

theorem Decodes.of_decrypt {Ctx G : Type} {K K' : CryptoT Ctx G} {wire plain : Bytes} {D : Bytes → Bytes}
    {fresh : Ctx → G → Prop} {R : Bytes → G → Ctx → Prop} (hK : Decodes K wire plain D fresh R)
    (hdec : K'.decrypt = K.decrypt) : Decodes K' wire plain D fresh R := by
  refine ⟨hK.mono, hK.all, hK.other, hK.settled, ?_⟩
  rw [hdec]
  exact hK.decrypt

/-- A context that has encrypted `plain` to `wire` satisfies `sends`, as long as what is encrypted `Counts`. The first
buffer has the whole header, and segments that are `Whole` do not cut it. -/
structure Encodes {Ctx G : Type} (K : CryptoT Ctx G) (fresh : Ctx → G → Prop) (d_ctx : Ctx) (Counts : Nat → Prop)
    (header : Bytes) (Whole : List Bytes → Prop) (sends : Bytes → Bytes → Ctx → Prop) : Prop where
  encrypt : ∀ {plain wire ctx} {b : Buffer} (g), sends plain wire ctx → b.Hands SOCKET_BUF_SIZE →
    b.len ≤ SOCKET_BUF_SIZE → Counts (plain.length + b.len) → (plain = [] → header <+: b.bytes) →
    ∃ b' ctx' g', K.encrypt g b ctx SOCKET_BUF_SIZE = .ok (.CRYPTO_OK, b', ctx', g') ∧ b'.Hands SOCKET_BUF_SIZE ∧
      b.len ≤ b'.len ∧ sends (plain ++ b.bytes) (wire ++ b'.bytes) ctx'
  decodes : ∀ {plain wire ctx}, sends plain wire ctx → Counts plain.length →
    ∃ wire' D R, Decodes K wire' plain D fresh R ∧ wire <+: wire' ∧ D [] = [] ∧ D wire = plain ∧
      (∀ g, fresh d_ctx g → R [] g d_ctx) ∧
      ∀ segs : List Bytes, segs.flatten <+: wire → Whole segs → HeaderWhole D header.length segs

/-- What has arrived of the wire is delivered, in the end all. -/
theorem Encodes.delivers {Ctx G : Type} {K : CryptoT Ctx G} {fresh : Ctx → G → Prop} {d_ctx ctx : Ctx}
    {Counts : Nat → Prop} {header plain wire fed : Bytes} {Whole : List Bytes → Prop}
    {sends : Bytes → Bytes → Ctx → Prop} (hK : Encodes K fresh d_ctx Counts header Whole sends)
    (h : sends plain wire ctx) (hcount : Counts plain.length) (hfed : fed <+: wire) :
    ∃ out, out <+: plain ∧ (fed = wire → out = plain) ∧ K.Delivers (fresh d_ctx) d_ctx fed out := by
  obtain ⟨wire', D, R, hdec, hwire, hnil, hall, hinit, -⟩ := hK.decodes h hcount
  refine ⟨D fed, ?_, ?_, hdec.delivers hnil hinit (hfed.trans hwire)⟩
  · have hmono := hdec.mono hfed
    rwa [hall] at hmono
  · rintro rfl
    exact hall

/-- Only the calls' results count, not what they leave in the static variables. -/
theorem Encodes.of_encrypt {Ctx G : Type} {K K' : CryptoT Ctx G} {fresh : Ctx → G → Prop} {d_ctx : Ctx}
    {Counts : Nat → Prop} {header : Bytes} {Whole : List Bytes → Prop} {sends : Bytes → Bytes → Ctx → Prop}
    (hK : Encodes K fresh d_ctx Counts header Whole sends) (hdec : K'.decrypt = K.decrypt)
    (henc : ∀ {g b ctx n ret b' ctx' g'}, K.encrypt g b ctx n = .ok (ret, b', ctx', g') →
      ∃ g'', K'.encrypt g b ctx n = .ok (ret, b', ctx', g'')) :
    Encodes K' fresh d_ctx Counts header Whole sends where
  encrypt g h hb hle hcount hfirst := by
    obtain ⟨b', ctx', g', hcall, hrest⟩ := hK.encrypt g h hb hle hcount hfirst
    obtain ⟨g'', hcall'⟩ := henc hcall
    exact ⟨b', ctx', g'', hcall', hrest⟩
  decodes h hcount := by
    obtain ⟨wire', D, R, hD, hrest⟩ := hK.decodes h hcount
    exact ⟨wire', D, R, hD.of_decrypt hdec, hrest⟩

/-- A context of an AEAD cipher that has sent `ms`. -/
structure AeadCtx.SentChunks {L : CryptoLib} (hL : L.Lawful) (cipher : Cipher AeadMethod) (salt : Bytes)
    (ms : List Bytes) (wire : Bytes) (ctx : AeadCtx) : Prop where
  fits : ctx.Fits
  cipher_eq : ctx.cipher = cipher
  salt_eq : ctx.salt = salt
  chunks : ∀ m ∈ ms, 0 < m.length ∧ m.length ≤ CHUNK_SIZE_MASK
  init : ctx.init = 0 ↔ ms = []
  skey : (ctx.keyed L).skey = aeadSubkey L cipher salt
  nonce : (ctx.keyed L).nonce = chunkNonce^[ms.length] (LeCounter.zero cipher.nonce_len)
  wire_eq : wire = (if ms = [] then [] else salt) ++ (aeadChunks hL cipher salt ms).flatten

/-- A context of an AEAD cipher that has encrypted `plain` to `wire`, the header first. -/
def AeadCtx.Sent {L : CryptoLib} (hL : L.Lawful) (cipher : Cipher AeadMethod) (salt header plain wire : Bytes)
    (ctx : AeadCtx) : Prop :=
  ∃ ms : List Bytes, plain = ms.flatten ∧ (∀ m ∈ ms.head?, header <+: m) ∧ ctx.SentChunks hL cipher salt ms wire

section
variable {L : CryptoLib} {cipher : Cipher AeadMethod} {salt header : Bytes}

theorem aead_ctx_init_sent (hL : L.Lawful) (hs : cipher.Supported) (hsalt : salt.length = cipher.key_len) :
    AeadCtx.Sent hL cipher salt header [] [] (aead_ctx_init cipher (some salt)) := by
  refine ⟨[], rfl, nofun, ⟨hs, hsalt, by simp [aead_ctx_init]⟩, rfl, rfl, by simp, by simp [aead_ctx_init], rfl, rfl,
    rfl⟩

theorem AeadCtx.SentChunks.encrypt {hL : L.Lawful} {ms : List Bytes} {wire : Bytes} {ctx : AeadCtx}
    (h : ctx.SentChunks hL cipher salt ms wire) (hs : cipher.Supported) (hlen : L.Lengths) {b : Buffer}
    (hb : b.Hands SOCKET_BUF_SIZE) (hle : b.len ≤ SOCKET_BUF_SIZE) (h0 : b.len ≠ 0) (g : CryptoState) :
    ∃ b' ctx' g', aead_encrypt L g b ctx SOCKET_BUF_SIZE = .ok (.CRYPTO_OK, b', ctx', g') ∧ b'.Hands SOCKET_BUF_SIZE ∧
      b.len ≤ b'.len ∧ ctx'.SentChunks hL cipher salt (ms ++ [b.bytes]) (wire ++ b'.bytes) := by
  have hmask : CHUNK_SIZE_MASK = SOCKET_BUF_SIZE := rfl
  have hsize : SOCKET_BUF_SIZE = 16383 := rfl
  obtain ⟨hfits, rfl, rfl, hms, hinit, hskey, hnonce, hwire⟩ := h
  obtain ⟨b', ctx', g', hcall⟩ := aead_encrypt_total hL.encrypts hs (hmask ▸ hle) hb.fits hfits.salt g SOCKET_BUF_SIZE
  obtain ⟨hb', hfits'⟩ := (aead_encrypt_within hlen hfits hb hle g).of_eq_ok hcall
  obtain ⟨hctx, -, hbytes⟩ := aead_encrypt_ok h0 hfits.salt hcall
  obtain ⟨e, he, hb₁⟩ := hbytes (by omega)
  have hinit' : ctx'.init ≠ 0 := by
    rw [hctx]
    exact ctx.keyed_init_ne
  have hkeyed : ctx'.keyed L = ctx' := AeadCtx.keyed_of_init_ne hinit'
  refine ⟨b', ctx', g', hcall, hb', ?_, hfits', ?_, ?_, ?_, iff_of_false hinit' (by simp), ?_, ?_, ?_⟩
  · have hsz := he.length_eq
    rw [← b'.length_bytes, hb₁, List.length_append, hsz, Buffer.length_bytes]
    omega
  · rw [hctx]
    exact AeadCtx.keyed_cipher ctx
  · rw [hctx]
    exact AeadCtx.keyed_salt ctx
  · intro m hm
    rcases List.mem_append.1 hm with hm | hm
    · exact hms m hm
    · rw [List.mem_singleton.1 hm, Buffer.length_bytes]
      omega
  · rw [hkeyed, hctx]
    exact hskey
  · rw [hkeyed, hctx, List.length_append, List.length_singleton, Function.iterate_succ_apply', ← hnonce]
    rfl
  · have hframe := he.eq_frame
    rw [AeadCtx.keyed_cipher, hskey, hnonce] at hframe
    have hnew : (aeadChunks hL ctx.cipher ctx.salt (ms ++ [b.bytes])).flatten =
        (aeadChunks hL ctx.cipher ctx.salt ms).flatten ++ e := by
      rw [aeadChunks, Codec.frames_concat, List.flatten_append, List.flatten_singleton, hframe]
      rfl
    rw [hnew, hb₁, hwire, if_neg (show ms ++ [b.bytes] ≠ [] by simp)]
    by_cases hnil : ms = []
    · subst hnil
      rw [if_pos rfl, if_pos (hinit.2 rfl)]
      simp only [aeadChunks, Codec.frames, List.flatten_nil, List.append_nil, List.nil_append]
    · rw [if_neg hnil, if_neg (mt hinit.1 hnil), List.nil_append, List.append_assoc]

theorem aead_encodes (hL : L.Lawful) (hlen : L.Lengths) (hs : cipher.Supported) (hsalt : salt.length = cipher.key_len)
    (header : Bytes) :
    Encodes (aeadCrypto L) (AeadCtx.Fresh L salt) (aead_ctx_init cipher none) (fun _ => True) header (fun _ => True)
      (AeadCtx.Sent hL cipher salt header) where
  encrypt := by
    rintro plain wire ctx b g ⟨ms, rfl, hhead, h⟩ hb hle - hfirst
    by_cases h0 : b.len = 0
    · have hnil : b.bytes = [] := List.length_eq_zero_iff.1 (b.length_bytes.trans h0)
      refine ⟨b, ctx, g, ?_, hb, Nat.le_refl _, ms, by rw [hnil, List.append_nil],
        hhead, by rwa [hnil, List.append_nil]⟩
      simp only [aeadCrypto, aead_encrypt, h0, ↓reduceIte]
      rfl
    · obtain ⟨b', ctx', g', hcall, hb', hgrow, h'⟩ := h.encrypt hs hlen hb hle h0 g
      refine ⟨b', ctx', g', hcall, hb', hgrow, _, by simp, ?_, h'⟩
      cases ms with
      | nil =>
        rintro m ⟨⟩
        exact hfirst rfl
      | cons m ms => exact hhead
  decodes := by
    rintro plain wire ctx ⟨ms, rfl, hhead, h⟩ -
    have hK := aead_decodes hL hlen hs hsalt h.chunks
    have hnil : aeadDecoded hL cipher salt ms [] = [] := by
      rw [aeadDecoded, ← (receives_init L _).eq_whole hL hs hsalt h.chunks List.nil_prefix]
      rfl
    refine ⟨_, aeadDecoded hL cipher salt ms, _, hK, ?_, hnil, ?_, fun g hg => ?_, fun segs hsegs _ i _ => ?_⟩
    · rw [h.wire_eq]
      split
      · subst ms
        exact List.nil_prefix
      · exact List.prefix_rfl
    · by_cases hms : ms = []
      · subst hms
        rw [h.wire_eq, if_pos rfl]
        exact hnil
      · rw [h.wire_eq, if_neg hms]
        exact hK.all
    · exact aead_ctx_init_decoding hL hs hsalt h.chunks (hg (by simp [aead_ctx_init]))
    · rw [or_iff_not_imp_left]
      intro hne
      cases ms with
      | nil =>
        rw [h.wire_eq, if_pos rfl] at hsegs
        rw [List.prefix_nil.1 ((List.take_prefix i segs).flatten.trans hsegs)] at hne
        exact absurd hnil hne
      | cons m ms => exact ((hhead m rfl).trans (prefix_aeadDecoded hL hne)).length_le

end

/-- A context of a stream cipher that has encrypted `plain` to `wire`. -/
structure StreamCtx.Sent (L : CryptoLib) (byte : StreamMethod → Bool → Bytes → Bytes → Bytes → UInt8 → UInt8)
    (ks : StreamMethod → Bytes → Bytes → Nat → UInt8) (c : Cipher StreamMethod) (iv plain wire : Bytes)
    (ctx : StreamCtx) :
    Prop where
  fits : ctx.Fits
  sends : ctx.Sends L c iv plain
  wire_eq : wire = (if ctx.init = 0 then [] else iv) ++ streamBytes L byte ks c iv plain

section
variable {L : CryptoLib} {byte : StreamMethod → Bool → Bytes → Bytes → Bytes → UInt8 → UInt8}
  {ks : StreamMethod → Bytes → Bytes → Nat → UInt8} {M : StreamMethod} {key iv : Bytes}

theorem stream_ctx_init_sent (hM : stream_supported L M) (key : Bytes)
    (hiv : iv.length = supported_stream_ciphers_nonce_size M) :
    ∃ ctx, stream_ctx_init L (stream_key_init M key) true iv = .ok ctx ∧
      ctx.Sent L byte ks (stream_key_init M key) iv [] [] := by
  obtain ⟨ctx, hctx, hun, -, hn⟩ := stream_ctx_init_unkeyed hM key true iv
  have hfits := (@stream_ctx_init_within L (stream_key_init M key) true iv fun _ => hiv).of_eq_ok hctx
  refine ⟨ctx, hctx, hfits.1, .fresh hun (hn rfl) rfl, ?_⟩
  rw [hun.init, if_pos rfl]
  rfl

theorem StreamCtx.Sends.nil_of_init {c : Cipher StreamMethod} {plain : Bytes} {ctx : StreamCtx}
    (h : ctx.Sends L c iv plain) (h0 : ctx.init = 0) : plain = [] := by
  rcases h with ⟨-, -, hpast⟩ | ⟨-, hne⟩
  · exact hpast
  · exact absurd h0 hne

theorem stream_encodes (hL : L.Streams byte ks) (hlen : L.Lengths) (hM : stream_supported L M)
    (hkey : key.length = supported_stream_ciphers_key_size M) (hiv : iv.length = supported_stream_ciphers_nonce_size M)
    {d_ctx : StreamCtx} (hd : stream_ctx_init L (stream_key_init M key) false [] = .ok d_ctx) (header : Bytes) :
    Encodes (streamCrypto L) (StreamCtx.Fresh L (stream_key_init M key) iv) d_ctx M.Counts header
      (fun segs => ¬ CutsHeader iv.length header.length segs)
      (StreamCtx.Sent L byte ks (stream_key_init M key) iv) where
  encrypt := by
    rintro plain wire ctx b g ⟨hfits, hsends, rfl⟩ hb - hcount -
    obtain ⟨b', ctx', g', hcall, hbytes, hsends', hinit⟩ :=
      stream_encrypt_spec hL hM hkey hiv hsends hcount hb.fits g SOCKET_BUF_SIZE
    obtain ⟨hb', hfits'⟩ := (stream_encrypt_within hlen hfits hb g).of_eq_ok hcall
    have hgrow : b.len ≤ b'.len := by
      rw [← b'.length_bytes, hbytes, List.length_append, length_scan, Buffer.length_bytes]
      omega
    refine ⟨b', ctx', g', hcall, hb', hgrow, hfits', hsends', ?_⟩
    rw [if_neg hinit, hbytes]
    have happ : streamBytes L byte ks (stream_key_init M key) iv (plain ++ b.bytes) =
        streamBytes L byte ks (stream_key_init M key) iv plain ++
          scan (streamByte L byte ks (stream_key_init M key) iv true) plain b.bytes := by
      rw [streamBytes, scan_append]
      rfl
    rw [happ]
    by_cases h0 : ctx.init = 0
    · obtain rfl := hsends.nil_of_init h0
      simp [h0, streamBytes, scan]
    · simp [h0]
  decodes := by
    rintro plain wire ctx ⟨-, hsends, rfl⟩ hcount
    have hK := stream_decodes hL hlen hM hkey hiv hcount
    obtain ⟨d, hd', hdec⟩ := stream_ctx_init_decoding hM key iv
    obtain rfl : d_ctx = d := by
      rw [hd] at hd'
      exact Except.ok.inj hd'
    refine ⟨_, _, _, hK, ?_, streamDecoded_nil, ?_, fun g hg => hdec g hg, fun segs _ hwhole => ?_⟩
    · split
      · rename_i h0
        obtain rfl := hsends.nil_of_init h0
        exact List.nil_prefix
      · exact List.prefix_rfl
    · split
      · rename_i h0
        obtain rfl := hsends.nil_of_init h0
        exact streamDecoded_nil
      · exact hK.all
    · rwa [headerWhole_stream]

/-- Without `MODULE_REMOTE`, as in ss-local: `stream_encrypt` leaves the filter as it is. -/
def localStreamCrypto (L : CryptoLib) : CryptoT StreamCtx CryptoStatics :=
  { streamCrypto L with
    encrypt g plaintext ctx capacity := do
      let (ret, b, ctx, g') ← stream_encrypt L g plaintext ctx capacity
      return (ret, b, ctx, { g' with bloom := g.bloom }) }

theorem local_stream_encodes (hL : L.Streams byte ks) (hlen : L.Lengths) (hM : stream_supported L M)
    (hkey : key.length = supported_stream_ciphers_key_size M) (hiv : iv.length = supported_stream_ciphers_nonce_size M)
    {d_ctx : StreamCtx} (hd : stream_ctx_init L (stream_key_init M key) false [] = .ok d_ctx) (header : Bytes) :
    Encodes (localStreamCrypto L) (StreamCtx.Fresh L (stream_key_init M key) iv) d_ctx M.Counts header
      (fun segs => ¬ CutsHeader iv.length header.length segs)
      (StreamCtx.Sent L byte ks (stream_key_init M key) iv) := by
  refine (stream_encodes hL hlen hM hkey hiv hd header).of_encrypt rfl ?_
  intro g b ctx n ret b' ctx' g' hcall
  have henc : stream_encrypt L g b ctx n = .ok (ret, b', ctx', g') := hcall
  simp only [localStreamCrypto, henc, C.ok_bind]
  exact ⟨_, rfl⟩

end

end OutlineServer
