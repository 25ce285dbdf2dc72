import OutlineServer.AeadBounds
import OutlineServer.AeadStream
import OutlineServer.RelayRuns
import OutlineServer.StreamBounds
import OutlineServer.StreamRuns

/-!
# What a connection decrypts

`Decodes` is what the relay gets from a cipher: whatever the cuts, what a context has decrypted is a function `D` of the
bytes that it has been fed, and a call answers `CRYPTO_OK` if and only if it adds to that. Both families are such
ciphers on a stream that their client has encrypted: an AEAD cipher gives whole chunks, a stream cipher all that it has.
-/

namespace OutlineServer
open Deframer Streaming

/-- A context that has been fed `fed` satisfies `R`. A filter that is `fresh` for it does not report the salt, or is not
asked any more, as after something has been decrypted. -/
structure Decodes {Ctx G : Type} (K : CryptoT Ctx G) (wire plain : Bytes) (D : Bytes → Bytes) (fresh : Ctx → G → Prop)
    (R : Bytes → G → Ctx → Prop) : Prop where
  mono : ∀ {fed fed'}, fed <+: fed' → D fed <+: D fed'
  all : D wire = plain
  other : ∀ {fed g g' ctx}, R fed g ctx → fresh ctx g' → R fed g' ctx
  settled : ∀ {fed g ctx} g', R fed g ctx → D fed ≠ [] → R fed g' ctx
  decrypt : ∀ {fed g ctx} {b : Buffer}, R fed g ctx → b.Hands SOCKET_BUF_SIZE → 0 < b.len → fed ++ b.bytes <+: wire →
    ∃ ret b' ctx' g' out, K.decrypt g b ctx SOCKET_BUF_SIZE = .ok (ret, b', ctx', g') ∧
      D (fed ++ b.bytes) = D fed ++ out ∧ Answers out ret b' ∧ b'.Hands SOCKET_BUF_SIZE ∧ R (fed ++ b.bytes) g' ctx'

/-! ### The AEAD ciphers -/

section
variable {L : CryptoLib} {ctx ctx' : AeadCtx} {g g' : CryptoState} {b b' chunk p : Buffer} {capacity : Nat}

theorem aead_chunk_decrypt_pos {poff coff clen : Nat} {r : ChunkResult}
    (h : aead_chunk_decrypt L ctx p poff chunk coff clen = .ok r) (hok : r.err = .CRYPTO_OK) : 0 < r.plen := by
  simp only [aead_chunk_decrypt] at h
  split at h
  · cases h
    cases hok
  obtain ⟨e, -, h⟩ := C.bind_eq_ok h
  split at h
  · cases h
    cases hok
  obtain ⟨-, -, h⟩ := C.bind_eq_ok h
  split at h
  · cases h
    cases hok
  split at h
  · cases h
    cases hok
  obtain ⟨e', -, h⟩ := C.bind_eq_ok h
  split at h
  · cases h
    cases hok
  obtain ⟨p', -, h⟩ := C.bind_eq_ok h
  obtain ⟨-, -, h⟩ := C.bind_eq_ok h
  cases h
  exact Nat.pos_of_ne_zero ‹_›

/-- The loop does not go past its end without a plaintext. -/
theorem aeadDecryptLoop_pos {fuel plen cidx : Nat} {r : LoopResult}
    (h : aeadDecryptLoop L fuel ctx b chunk plen cidx = .ok r) (hpos : chunk.len ≠ 0 ∨ 0 < plen) :
    r.ret ≠ some .CRYPTO_OK ∧ (r.ret = none → 0 < r.plen) := by
  induction fuel generalizing ctx b chunk plen cidx with
  | zero => cases h
  | succ fuel ih =>
    simp only [aeadDecryptLoop] at h
    split at h
    · cases h
      exact ⟨by simp, fun _ => hpos.resolve_left (not_not.2 ‹_›)⟩
    obtain ⟨c, hc, h⟩ := C.bind_eq_ok h
    split at h
    · cases h
      simp
    · split at h
      · cases h
        simp
      · cases h
        exact ⟨by simp, fun _ => Nat.pos_of_ne_zero ‹_›⟩
    · rename_i hok
      have hplen := aead_chunk_decrypt_pos hc hok
      exact ih h (.inr (by omega))

theorem aeadDecryptChunks_pos (h : aeadDecryptChunks L g b ctx chunk = .ok (.CRYPTO_OK, b', ctx', g'))
    (hpos : chunk.len ≠ 0) : 0 < b'.len := by
  obtain ⟨r, hr, h⟩ := C.bind_eq_ok h
  obtain ⟨hret, hplen⟩ := aeadDecryptLoop_pos hr (.inl hpos)
  split at h
  · rename_i hsome
    cases h
    exact absurd hsome hret
  · simp only at h
    split at h
    · split at h
      · cases h
      · cases h
        exact hplen ‹_›
    · cases h
      exact hplen ‹_›

theorem aeadDecryptFill_pos {ct ck : Buffer} (h : aeadDecryptFill b chunk capacity = .ok (ct, ck)) (hb : 0 < b.len) :
    ck.len ≠ 0 := by
  rw [aeadDecryptFill] at h
  split at h
  · cases h
    exact Nat.ne_of_gt hb
  · obtain ⟨ck₁, -, h⟩ := C.bind_eq_ok h
    obtain ⟨input, -, h⟩ := C.bind_eq_ok h
    obtain ⟨ck₂, -, h⟩ := C.bind_eq_ok h
    cases h
    simp only
    omega

theorem aead_decrypt_pos (h : aead_decrypt L g b ctx capacity = .ok (.CRYPTO_OK, b', ctx', g')) (hb : 0 < b.len) :
    0 < b'.len := by
  obtain ⟨⟨ct, ck⟩, hfill, h⟩ := C.bind_eq_ok h
  have hck := aeadDecryptFill_pos hfill hb
  simp only at h
  split at h
  · split at h
    · cases h
    obtain ⟨salt, -, h⟩ := C.bind_eq_ok h
    split at h
    · cases h
    obtain ⟨ctx₁, -, h⟩ := C.bind_eq_ok h
    exact aeadDecryptChunks_pos h (by simp only; omega)
  · exact aeadDecryptChunks_pos h hck

end

/-- The plaintexts of the chunks that have arrived. -/
def aeadDecoded {L : CryptoLib} (hL : L.Lawful) (cipher : Cipher AeadMethod) (salt : Bytes) (ms : List Bytes)
    (fed : Bytes) : Bytes :=
  (whole (fed.length - salt.length) ms (aeadChunks hL cipher salt ms)).flatten

def AeadCtx.Fresh (L : CryptoLib) (salt : Bytes) (ctx : AeadCtx) (g : CryptoState) : Prop :=
  ctx.init ≠ 2 → ppbloom_check L.murmurhash2 g.bloom salt ≠ 1

structure AeadCtx.Decoding {L : CryptoLib} (hL : L.Lawful) (cipher : Cipher AeadMethod) (salt : Bytes) (ms : List Bytes)
    (fed : Bytes) (g : CryptoState) (ctx : AeadCtx) : Prop where
  fits : ctx.Fits
  fresh : ctx.Fresh L salt g
  receives : ∃ as, Receives L cipher fed as ctx ∧ (ctx.init = 2 ↔ as ≠ []) ∧ aeadDecoded hL cipher salt ms fed =
    as.flatten

section
variable {L : CryptoLib} {cipher : Cipher AeadMethod} {salt fed : Bytes} {ms : List Bytes}

theorem aead_ctx_init_decoding (hL : L.Lawful) (hs : cipher.Supported) (hsalt : salt.length = cipher.key_len)
    (hms : ∀ m ∈ ms, 0 < m.length ∧ m.length ≤ CHUNK_SIZE_MASK) {g : CryptoState}
    (hfresh : ppbloom_check L.murmurhash2 g.bloom salt ≠ 1) :
    AeadCtx.Decoding hL cipher salt ms [] g (aead_ctx_init cipher none) := by
  refine ⟨⟨hs, by simp [aead_ctx_init], by simp [aead_ctx_init]⟩, fun _ => hfresh, [], receives_init L cipher, ?_, ?_⟩
  · simp [aead_ctx_init]
  · rw [aeadDecoded, ← (receives_init L cipher).eq_whole hL hs hsalt hms List.nil_prefix]

theorem aead_decodes (hL : L.Lawful) (hlen : L.Lengths) (hs : cipher.Supported) (hsalt : salt.length = cipher.key_len)
    (hms : ∀ m ∈ ms, 0 < m.length ∧ m.length ≤ CHUNK_SIZE_MASK) :
    Decodes (aeadCrypto L) (salt ++ (aeadChunks hL cipher salt ms).flatten) ms.flatten (aeadDecoded hL cipher salt ms)
      (AeadCtx.Fresh L salt) (AeadCtx.Decoding hL cipher salt ms) where
  mono hpre := (whole_mono (Nat.sub_le_sub_right hpre.length_le _) _ _).flatten
  all := by
    rw [aeadDecoded, List.length_append, Nat.add_sub_cancel_left]
    exact congrArg List.flatten (Codec.whole_frames _ _ ms)
  other := by
    rintro fed g g' ctx ⟨hfits, -, hR⟩ hfresh
    exact ⟨hfits, hfresh, hR⟩
  settled := by
    rintro fed g ctx g' ⟨hfits, -, as, hR, hinit, hD⟩ hne
    refine ⟨hfits, fun h2 => absurd (hinit.2 ?_) h2, as, hR, hinit, hD⟩
    rintro rfl
    exact hne hD
  decrypt := by
    rintro fed g ctx b ⟨hfits, hfresh, as, hR, hinit, hD⟩ hb hpos hfed
    obtain ⟨ret, ct, ctx₂, g₂, as', hcall, hR', hfresh', hret⟩ :=
      aead_decrypt_wire hL hs hsalt hms hb.fits hR hfed hfresh SOCKET_BUF_SIZE
    obtain ⟨hb', hfits'⟩ := (aead_decrypt_within hlen hfits hb g).of_eq_ok hcall
    have hD' : aeadDecoded hL cipher salt ms (fed ++ b.bytes) = (as ++ as').flatten := by
      rw [aeadDecoded, ← hR'.eq_whole hL hs hsalt hms hfed]
    refine ⟨ret, ct, ctx₂, g₂, as'.flatten, hcall, ?_, ?_, hb', hfits', hfresh', as ++ as', hR', ?_, hD'⟩
    · rw [hD', hD, List.flatten_append]
    · rcases hret with ⟨rfl, rfl, -⟩ | ⟨rfl, hct, -⟩
      · exact .more rfl
      · refine .ok hct ?_
        rw [← hct, ← List.length_pos_iff, Buffer.length_bytes]
        exact aead_decrypt_pos hcall hpos
    · rcases hret with ⟨rfl, rfl, h2⟩ | ⟨rfl, hct, h2⟩
      · rw [h2, hinit, List.append_nil]
      · refine iff_of_true h2 ?_
        have hne : as' ≠ [] := by
          rintro rfl
          have hct' := aead_decrypt_pos hcall hpos
          rw [← Buffer.length_bytes, hct] at hct'
          exact absurd hct' (Nat.lt_irrefl 0)
        simp [hne]

/-- What is decrypted first starts with the first plaintext. -/
theorem prefix_aeadDecoded (hL : L.Lawful) {m : Bytes} (hne : aeadDecoded hL cipher salt (m :: ms) fed ≠ []) :
    m <+: aeadDecoded hL cipher salt (m :: ms) fed := by
  simp only [aeadDecoded, aeadChunks, Codec.frames, whole] at hne ⊢
  split
  · exact List.prefix_append _ _
  · rw [if_neg ‹_›] at hne
    exact absurd rfl hne

end

/-! ### The stream ciphers -/

def streamCrypto (L : CryptoLib) : CryptoT StreamCtx CryptoStatics where
  encrypt := stream_encrypt L
  decrypt g ciphertext ctx capacity := do
    let (ret, b, ctx, state) ← stream_decrypt L g.toCryptoState ciphertext ctx capacity
    return (ret, b, ctx, { g with toCryptoState := state })

def StreamCtx.Fresh (L : CryptoLib) (c : Cipher StreamMethod) (iv : Bytes) (ctx : StreamCtx) (g : CryptoStatics) :
    Prop :=
  ctx.init ≠ 2 → IvFresh L c iv g.bloom

structure StreamCtx.Decoding (L : CryptoLib) (c : Cipher StreamMethod) (iv fed : Bytes) (g : CryptoStatics)
    (ctx : StreamCtx) : Prop where
  fits : ctx.Fits
  receives : ctx.Receives L c iv g.bloom fed

section
variable {L : CryptoLib} {byte : StreamMethod → Bool → Bytes → Bytes → Bytes → UInt8 → UInt8}
  {ks : StreamMethod → Bytes → Bytes → Nat → UInt8} {M : StreamMethod} {key iv : Bytes}

theorem stream_ctx_init_decoding (hM : stream_supported L M) (key iv : Bytes) :
    ∃ ctx, stream_ctx_init L (stream_key_init M key) false [] = .ok ctx ∧ ∀ g,
      ctx.Fresh L (stream_key_init M key) iv g → ctx.Decoding L (stream_key_init M key) iv [] g := by
  obtain ⟨ctx, hctx, hun, hchunk, -⟩ := stream_ctx_init_unkeyed hM key false []
  have hfits := (@stream_ctx_init_within L (stream_key_init M key) false [] nofun).of_eq_ok hctx
  refine ⟨ctx, hctx, ?_⟩
  intro g hfresh
  refine ⟨hfits.1, .waiting hun ?_ ?_ (Nat.zero_le _) (hfresh (by rw [hun.init]; decide))⟩
  · rw [hchunk]
    rfl
  · rw [hchunk]
    exact Nat.le_refl _

theorem stream_decodes (hL : L.Streams byte ks) (hlen : L.Lengths) (hM : stream_supported L M)
    (hkey : key.length = supported_stream_ciphers_key_size M) (hiv : iv.length = supported_stream_ciphers_nonce_size M)
    {plain : Bytes} (hcount : M.Counts plain.length) :
    Decodes (streamCrypto L) (iv ++ streamBytes L byte ks (stream_key_init M key) iv plain) plain
      (streamDecoded L byte ks (stream_key_init M key) iv) (StreamCtx.Fresh L (stream_key_init M key) iv)
      (StreamCtx.Decoding L (stream_key_init M key) iv) where
  mono := by
    rintro fed _ ⟨x, rfl⟩
    rw [streamDecoded, streamDecoded, List.drop_append, scan_append]
    exact List.prefix_append _ _
  all := by rw [streamDecoded, List.drop_left, scan_streamBytes hL]
  other := by
    rintro fed g g' ctx ⟨hfits, hR⟩ hfresh
    refine ⟨hfits, ?_⟩
    rcases hR with ⟨h, hchunk, hcap, hle, hcheck⟩ | ⟨h, rfl, hpass⟩
    · exact .waiting h hchunk hcap hle (hfresh (by rw [h.init]; decide))
    · refine .keyed h rfl ⟨hpass.init, ?_⟩
      intro hmd5
      rcases hpass.filter hmd5 with h2 | ⟨h1, hnil, -⟩
      · exact .inl h2
      · exact .inr ⟨h1, hnil, hfresh (by rw [h1]; decide) (h.cipher ▸ hmd5)⟩
  settled := by
    rintro fed g ctx g' ⟨hfits, hR⟩ hne
    refine ⟨hfits, ?_⟩
    rcases hR with ⟨-, -, -, hle, -⟩ | ⟨h, rfl, hpass⟩
    · exact absurd (streamDecoded_short (hiv ▸ hle)) hne
    · refine .keyed h rfl ⟨hpass.init, ?_⟩
      intro hmd5
      rcases hpass.filter hmd5 with h2 | ⟨-, hnil, -⟩
      · exact .inl h2
      · rw [hnil, List.append_nil] at hne
        exact absurd (streamDecoded_short (Nat.le_refl _)) hne
  decrypt := by
    rintro fed g ctx b ⟨hfits, hR⟩ hb hpos hfed
    have hpre : (fed ++ b.bytes).take iv.length <+: iv := by
      have htake := hfed.take iv.length
      rwa [List.take_left] at htake
    have hsize := hfed.length_le
    rw [List.length_append, List.length_append, Buffer.length_bytes, streamBytes, length_scan] at hsize
    obtain ⟨ret, b', ctx', g', out, hcall, hans, hR', hD⟩ :=
      stream_decrypt_spec hL hM hkey hiv hR hpre (hcount.mono (by omega)) hb.fits SOCKET_BUF_SIZE
    obtain ⟨hb', hfits'⟩ := (stream_decrypt_within hlen hfits hb g.toCryptoState).of_eq_ok hcall
    refine ⟨ret, b', ctx', { g with toCryptoState := g' }, out, ?_, hD, hans, hb', hfits', hR'⟩
    simp only [streamCrypto, hcall, C.ok_bind]
    rfl

end

end OutlineServer
