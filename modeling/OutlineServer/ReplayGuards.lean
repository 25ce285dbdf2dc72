import OutlineServer.AeadSender
import OutlineServer.Replay
import OutlineServer.Stream

/-!
# The decrypting functions are guarded

The AEAD and the stream ciphers check the salt or IV before the first output, and again when they record it
with the first output. So of all contexts and calls with one salt, at most one ever succeeds, until half of the
filter's entries have been added after it (`replay_protection`).
-/

namespace OutlineServer

/-! ### AEAD -/

section
variable {L : CryptoLib} {ctx ctx' : AeadCtx} {g g' : CryptoState} {ciphertext ct p c chunk : Buffer}
  {ret : CryptoRet}

theorem aead_chunk_decrypt_ctx {poff coff clen : Nat} {r : ChunkResult}
    (h : aead_chunk_decrypt L ctx p poff c coff clen = .ok r) : ∃ n, r.ctx = { ctx with nonce := n } := by
  simp only [aead_chunk_decrypt] at h
  split at h
  · cases h
    exact ⟨_, rfl⟩
  obtain ⟨e, -, h⟩ := C.bind_eq_ok h
  split at h
  · cases h
    exact ⟨_, rfl⟩
  obtain ⟨_, -, h⟩ := C.bind_eq_ok h
  split at h
  · cases h
    exact ⟨_, rfl⟩
  split at h
  · cases h
    exact ⟨_, rfl⟩
  obtain ⟨e', -, h⟩ := C.bind_eq_ok h
  split at h
  · cases h
    exact ⟨_, rfl⟩
  obtain ⟨p', -, h⟩ := C.bind_eq_ok h
  obtain ⟨_, -, h⟩ := C.bind_eq_ok h
  cases h
  exact ⟨_, rfl⟩

theorem aeadDecryptLoop_ctx {fuel plen cidx : Nat} {r : LoopResult}
    (h : aeadDecryptLoop L fuel ctx ciphertext chunk plen cidx = .ok r) :
    (∃ n, r.ctx = { ctx with nonce := n }) ∧ r.ret ≠ some .CRYPTO_OK := by
  induction fuel generalizing ctx ciphertext chunk plen cidx with
  | zero => cases h
  | succ fuel ih =>
    simp only [aeadDecryptLoop] at h
    split at h
    · cases h
      exact ⟨⟨_, rfl⟩, by simp⟩
    obtain ⟨r', hr, h⟩ := C.bind_eq_ok h
    obtain ⟨n, hn⟩ := aead_chunk_decrypt_ctx hr
    split at h
    · cases h
      exact ⟨⟨n, hn⟩, by simp⟩
    · split at h
      · cases h
        exact ⟨⟨n, hn⟩, by simp⟩
      · cases h
        exact ⟨⟨n, hn⟩, by simp⟩
    · obtain ⟨⟨n', hn'⟩, hret⟩ := ih h
      rw [hn] at hn'
      exact ⟨⟨n', hn'⟩, hret⟩

/-- What a call on a keyed context does with the filter. -/
theorem aeadDecryptChunks_filtered (h : aeadDecryptChunks L g ciphertext ctx chunk = .ok (ret, ct, ctx', g'))
    (hinit : ctx.init = 1 ∨ ctx.init = 2) :
    ctx'.cipher = ctx.cipher ∧ ctx'.salt = ctx.salt ∧ (ctx'.init = 1 ∨ ctx'.init = 2) ∧
      Filtered L.murmurhash2 g.bloom ctx.salt (ctx.init == 2) ret (ctx'.init == 2) g'.bloom := by
  obtain ⟨r, hr, h⟩ := C.bind_eq_ok h
  obtain ⟨⟨n, hn⟩, hret⟩ := aeadDecryptLoop_ctx hr
  split at h
  · rename_i ret' hret'
    cases h
    rw [hret'] at hret
    simp only [hn]
    exact ⟨trivial, trivial, hinit, .quiet (by simpa using hret)⟩
  · simp only [hn] at h
    rcases hinit with h1 | h2
    · simp only [h1, ↓reduceIte] at h
      split at h
      · cases h
        rw [h1]
        exact ⟨rfl, rfl, .inl rfl, .error⟩
      · rename_i hcheck
        cases h
        rw [h1]
        exact ⟨rfl, rfl, .inr rfl, .first hcheck⟩
    · have h1 : ctx.init ≠ 1 := by omega
      simp only [h1, ↓reduceIte] at h
      cases h
      rw [h2]
      exact ⟨rfl, rfl, .inr rfl, .again⟩

end

def aeadDecryptor (L : CryptoLib) (M : AeadMethod) (key : Bytes) (capacity : Nat) : Decryptor where
  Ctx := AeadCtx
  fresh ctx := ctx = aead_ctx_init (aead_key_init M key) none
  salt_len := (aead_key_init M key).key_len
  decrypt g b ctx := aead_decrypt L g b ctx capacity
  decrypt_all g b := aead_decrypt_all L g b (aead_key_init M key) capacity

/-- A context that still waits for the salt holds what it has been fed; afterwards it has the salt. -/
def AeadPresented (cipher : Cipher AeadMethod) (fed : Bytes) (won : Bool) (ctx : AeadCtx) : Prop :=
  ctx.cipher = cipher ∧
    (ctx.init = 0 ∧ won = false ∧ (∀ b ∈ ctx.chunk, b.idx + b.len ≤ b.capacity) ∧ ctx.pending = fed ∨
      (ctx.init = 1 ∨ ctx.init = 2) ∧ won = (ctx.init == 2) ∧ cipher.key_len ≤ fed.length ∧
        ctx.salt = fed.take cipher.key_len)

theorem aead_decrypt_filtered {L : CryptoLib} {cipher : Cipher AeadMethod} {ctx ctx' : AeadCtx} {g g' : CryptoState}
    {b b' : Buffer} {ret : CryptoRet} {fed : Bytes} {won : Bool} {capacity : Nat}
    (hI : AeadPresented cipher fed won ctx) (hb : b.len ≤ b.capacity)
    (h : aead_decrypt L g b ctx capacity = .ok (ret, b', ctx', g')) :
    ∃ won', AeadPresented cipher (fed ++ b.bytes) won' ctx' ∧
      Filtered L.murmurhash2 g.bloom ((fed ++ b.bytes).take cipher.key_len) won ret won' g'.bloom := by
  obtain ⟨rfl, ⟨hinit, rfl, hfits, hpend⟩ | ⟨hinit, rfl, hle, hsalt⟩⟩ := hI
  · have hchunk := ctx.chunk_getD L hfits capacity
    obtain ⟨ct, ck, hfill, hidx, hroom, hpend', -⟩ := aeadDecryptFill_spec hb hchunk.1 capacity
    rw [hchunk.2, hpend] at hpend'
    have hlen : (fed ++ b.bytes).length = ck.len := by rw [← hpend', Buffer.length_pending]
    simp only [aead_decrypt, hfill, C.ok_bind, hinit, ↓reduceIte] at h
    by_cases hle : ck.len ≤ ctx.cipher.key_len
    · simp only [hle, ↓reduceIte] at h
      cases h
      refine ⟨false, ⟨rfl, .inl ⟨rfl, rfl, ?_, ?_⟩⟩, .needMore⟩
      · simpa [hidx] using hroom
      · simpa [AeadCtx.pending] using hpend'
    have htake : ck.data.read ck.idx ctx.cipher.key_len = (fed ++ b.bytes).take ctx.cipher.key_len := by
      rw [← hpend', Buffer.pending, Block.take_read _ _ _ _ (by omega)]
    simp only [hle, ↓reduceIte, Buffer.get_ok (show ck.idx + ctx.cipher.key_len ≤ ck.capacity by omega), C.ok_bind,
      htake] at h
    by_cases hcheck : ppbloom_check L.murmurhash2 g.bloom ((fed ++ b.bytes).take ctx.cipher.key_len) = 1
    · simp only [hcheck, ↓reduceIte] at h
      cases h
      refine ⟨false, ⟨rfl, .inl ⟨rfl, rfl, ?_, ?_⟩⟩, .error⟩
      · simpa [hidx] using hroom
      · simpa [AeadCtx.pending] using hpend'
    simp only [hcheck, ↓reduceIte] at h
    obtain ⟨ctx₁, hkey, h⟩ := C.bind_eq_ok h
    obtain rfl := aead_cipher_ctx_set_key_ok hkey
    obtain ⟨hc, hs, hi, hF⟩ := aeadDecryptChunks_filtered h (.inl rfl)
    exact ⟨_, ⟨hc, .inr ⟨hi, rfl, by omega, hs⟩⟩, hF⟩
  · have hne : ctx.init ≠ 0 := by omega
    have htake : (fed ++ b.bytes).take ctx.cipher.key_len = fed.take ctx.cipher.key_len :=
      List.take_append_of_le_length hle
    obtain ⟨⟨ct, ck⟩, -, h⟩ := C.bind_eq_ok h
    simp only [hne, ↓reduceIte] at h
    obtain ⟨hc, hs, hi, hF⟩ := aeadDecryptChunks_filtered h hinit
    rw [hsalt] at hF hs
    rw [htake]
    refine ⟨_, ⟨hc, .inr ⟨hi, rfl, ?_, ?_⟩⟩, hF⟩
    · rw [List.length_append]
      omega
    · rw [hs, htake]

theorem aead_decrypt_all_filtered {L : CryptoLib} {cipher : Cipher AeadMethod} {g g' : CryptoState} {b b' : Buffer}
    {ret : CryptoRet} {capacity : Nat} (h : aead_decrypt_all L g b cipher capacity = .ok (ret, b', g')) :
    ∃ won', Filtered L.murmurhash2 g.bloom (b.bytes.take cipher.key_len) false ret won' g'.bloom := by
  simp only [aead_decrypt_all] at h
  split at h
  · cases h
    exact ⟨_, .error⟩
  obtain ⟨salt, hsalt, h⟩ := C.bind_eq_ok h
  obtain ⟨-, rfl⟩ := Buffer.of_get hsalt
  have htake : b.data.read 0 cipher.key_len = b.bytes.take cipher.key_len :=
    (Block.take_read _ _ _ _ (by omega)).symm
  rw [htake] at h
  split at h
  · cases h
    exact ⟨_, .error⟩
  rename_i hcheck
  obtain ⟨ctx, -, h⟩ := C.bind_eq_ok h
  obtain ⟨e, -, h⟩ := C.bind_eq_ok h
  split at h
  · cases h
    exact ⟨_, .error⟩
  · obtain ⟨plaintext, -, h⟩ := C.bind_eq_ok h
    cases h
    exact ⟨_, .first hcheck⟩

theorem aead_guarded (L : CryptoLib) (M : AeadMethod) (key : Bytes) (capacity : Nat) :
    Guarded (aeadDecryptor L M key capacity) L.murmurhash2 (AeadPresented (aead_key_init M key)) where
  fresh := by
    rintro ctx rfl
    exact ⟨rfl, .inl ⟨rfl, rfl, by simp [aead_ctx_init], rfl⟩⟩
  salt_le := by
    rintro fed ctx ⟨-, ⟨-, hwon, -⟩ | ⟨-, -, hle, -⟩⟩
    · cases hwon
    · exact hle
  decrypt hI hb h := aead_decrypt_filtered hI hb h
  decrypt_all _ h := aead_decrypt_all_filtered h

/-! ### Stream ciphers -/

section
variable {L : CryptoLib} {ctx ctx' : StreamCtx} {g g' : CryptoState} {b b' ct chunk ck plaintext : Buffer}
  {ret : CryptoRet}

/-- The contexts differ in the state of the cipher only. -/
def StreamCtx.Same (ctx ctx' : StreamCtx) : Prop :=
  ctx'.cipher = ctx.cipher ∧ ctx'.nonce = ctx.nonce ∧ ctx'.init = ctx.init

theorem cipher_ctx_update_same (ctx : StreamCtx) (input : Bytes) : ctx.Same (cipher_ctx_update L ctx input).2 := by
  rw [cipher_ctx_update]
  split <;> exact ⟨rfl, rfl, rfl⟩

theorem cipher_ctx_set_nonce_same {nonce : Bytes} {enc : Bool} (h : cipher_ctx_set_nonce L ctx nonce enc = .ok ctx') :
    ctx.Same ctx' := by
  simp only [cipher_ctx_set_nonce] at h
  generalize (if ctx.cipher.method = .RC4_MD5 then (L.md5 (ctx.cipher.key.take 16 ++ nonce.take 16), [])
    else (ctx.cipher.key, nonce)) = keyed at h
  split at h
  · cases h
    exact ⟨rfl, rfl, rfl⟩
  split at h
  · cases h
    exact ⟨rfl, rfl, rfl⟩
  split at h
  · cases h
    exact ⟨rfl, rfl, rfl⟩
  · cases h

theorem streamXor_same {capacity : Nat} {r : Buffer × Buffer × StreamCtx}
    (h : streamXor L b plaintext ctx capacity = .ok r) : ctx.Same r.2.2 := by
  obtain ⟨_, -, h⟩ := C.bind_eq_ok h
  obtain ⟨_, -, h⟩ := C.bind_eq_ok h
  obtain ⟨_, -, h⟩ := C.bind_eq_ok h
  obtain ⟨_, -, h⟩ := C.bind_eq_ok h
  obtain ⟨_, -, h⟩ := C.bind_eq_ok h
  cases h
  exact ⟨rfl, rfl, rfl⟩

/-- A context that has its IV, which `x` is, and what it does with the filter. -/
def StreamFiltered (L : CryptoLib) (g : CryptoState) (ctx : StreamCtx) (ret : CryptoRet) (ctx' : StreamCtx)
    (g' : CryptoState) : Prop :=
  ctx'.cipher = ctx.cipher ∧ ctx'.nonce = ctx.nonce ∧ (ctx'.init = 1 ∨ ctx'.init = 2) ∧
    Filtered L.murmurhash2 g.bloom ctx.nonce (ctx.init == 2) ret (ctx'.init == 2) g'.bloom

theorem StreamCtx.Same.filtered {ctx'' : StreamCtx} (h : ctx.Same ctx') (hF : StreamFiltered L g ctx' ret ctx'' g') :
    StreamFiltered L g ctx ret ctx'' g' := by
  obtain ⟨hc, hn, hi⟩ := h
  obtain ⟨hc', hn', hi', hF⟩ := hF
  rw [hn, hi] at hF
  exact ⟨hc'.trans hc, hn'.trans hn, hi', hF⟩

theorem streamFilter_filtered (hm : StreamMethod.RC4_MD5.code ≤ ctx.cipher.method.code)
    (hinit : ctx.init = 1 ∨ ctx.init = 2) :
    StreamFiltered L g ctx (if (streamFilter L g ctx).1 then .CRYPTO_ERROR else .CRYPTO_OK) (streamFilter L g ctx).2.1
      (streamFilter L g ctx).2.2 := by
  rcases hinit with h1 | h2
  · by_cases hcheck : ppbloom_check L.murmurhash2 g.bloom ctx.nonce = 1
    · simp only [streamFilter, h1, hm, hcheck, and_self, ↓reduceIte]
      exact ⟨rfl, rfl, .inl h1, .error⟩
    · simp only [streamFilter, h1, hm, hcheck, and_self, ↓reduceIte, Bool.false_eq_true]
      refine ⟨rfl, rfl, .inr rfl, ?_⟩
      rw [h1]
      exact .first hcheck
  · simp only [streamFilter, h2, OfNat.ofNat_ne_one, false_and, ↓reduceIte, Bool.false_eq_true]
    refine ⟨rfl, rfl, .inr h2, ?_⟩
    rw [h2]
    exact .again

theorem StreamFiltered.refl (hret : ret ≠ .CRYPTO_OK) (hinit : ctx.init = 1 ∨ ctx.init = 2) (hg : g'.bloom = g.bloom) :
    StreamFiltered L g ctx ret ctx g' := by
  refine ⟨rfl, rfl, hinit, ?_⟩
  rw [hg]
  exact .quiet hret

theorem streamDecryptDone_filtered (hm : StreamMethod.RC4_MD5.code ≤ ctx.cipher.method.code)
    (hinit : ctx.init = 1 ∨ ctx.init = 2) (h : streamDecryptDone L g b plaintext ctx = (ret, b', ctx', g')) :
    StreamFiltered L g ctx ret ctx' g' := by
  have hF : StreamFiltered L g ctx _ _ _ := streamFilter_filtered (g := g) hm hinit
  rw [streamDecryptDone] at h
  split at h
  · rename_i heq
    rw [heq] at hF
    cases h
    exact hF
  · rename_i heq
    rw [heq] at hF
    cases h
    exact hF

theorem streamDecryptInPlace_filtered (hm : StreamMethod.RC4_MD5.code ≤ ctx.cipher.method.code)
    (hinit : ctx.init = 1 ∨ ctx.init = 2) (h : streamDecryptInPlace L g b ctx = .ok (ret, b', ctx', g')) :
    StreamFiltered L g ctx ret ctx' g' := by
  simp only [streamDecryptInPlace] at h
  split at h
  · cases h
    exact .refl (by decide) hinit rfl
  obtain ⟨input, -, h⟩ := C.bind_eq_ok h
  have hsame := cipher_ctx_update_same (L := L) ctx input
  split at h
  · rename_i heq
    rw [heq] at hsame
    cases h
    exact hsame.filtered (.refl (by decide) (hsame.2.2 ▸ hinit) rfl)
  · rename_i ctx₁ heq
    rw [heq] at hsame
    obtain ⟨b₁, -, h⟩ := C.bind_eq_ok h
    have hF : StreamFiltered L g ctx₁ _ _ _ := streamFilter_filtered (g := g) (hsame.1 ▸ hm) (hsame.2.2 ▸ hinit)
    split at h
    · rename_i heq'
      rw [heq'] at hF
      cases h
      exact hsame.filtered hF
    · rename_i heq'
      rw [heq'] at hF
      cases h
      exact hsame.filtered hF

theorem streamDecryptRest_filtered {capacity : Nat} (hm : StreamMethod.RC4_MD5.code ≤ ctx.cipher.method.code)
    (hinit : ctx.init = 1 ∨ ctx.init = 2)
    (h : streamDecryptRest L g b plaintext ctx capacity = .ok (ret, b', ctx', g')) :
    StreamFiltered L g ctx ret ctx' g' := by
  simp only [streamDecryptRest] at h
  split at h
  · cases h
    exact .refl (by decide) hinit rfl
  split at h
  · obtain ⟨⟨b₁, p₁, ctx₁⟩, hx, h⟩ := C.bind_eq_ok h
    have hsame : ctx.Same ctx₁ := streamXor_same hx
    exact hsame.filtered (streamDecryptDone_filtered (hsame.1 ▸ hm) (hsame.2.2 ▸ hinit) (Except.ok.inj h))
  · obtain ⟨input, -, h⟩ := C.bind_eq_ok h
    have hsame := cipher_ctx_update_same (L := L) ctx input
    split at h
    · rename_i heq
      rw [heq] at hsame
      cases h
      exact hsame.filtered (.refl (by decide) (hsame.2.2 ▸ hinit) rfl)
    · rename_i ctx₁ heq
      rw [heq] at hsame
      obtain ⟨p₁, -, h⟩ := C.bind_eq_ok h
      exact hsame.filtered (streamDecryptDone_filtered (hsame.1 ▸ hm) (hsame.2.2 ▸ hinit) (Except.ok.inj h))

theorem streamTakeIv_ok {nonce_len : Nat} (h : streamTakeIv b chunk nonce_len = .ok (ct, ck)) :
    ck.len = chunk.len + min (nonce_len - chunk.len) b.len ∧
      ck.bytes = chunk.bytes ++ b.bytes.take (min (nonce_len - chunk.len) b.len) := by
  obtain ⟨iv, hget, h⟩ := C.bind_eq_ok h
  obtain ⟨-, rfl⟩ := Buffer.of_get hget
  obtain ⟨ck', hput, h⟩ := C.bind_eq_ok h
  obtain ⟨-, rfl⟩ := Buffer.of_put hput
  obtain ⟨_, -, h⟩ := C.bind_eq_ok h
  obtain ⟨_, -, h⟩ := C.bind_eq_ok h
  cases h
  refine ⟨rfl, ?_⟩
  have hread := Block.read_write_append chunk.data chunk.len 0
    (b.data.read 0 (min (nonce_len - chunk.len) b.len)) (Nat.zero_le _)
  rw [Nat.sub_zero, Block.length_read] at hread
  rw [Buffer.bytes, hread, Buffer.bytes, Buffer.bytes, Block.take_read _ _ _ _ (Nat.min_le_right _ _)]

end

def streamDecryptor (L : CryptoLib) (M : StreamMethod) (key : Bytes) (capacity : Nat) : Decryptor where
  Ctx := StreamCtx
  fresh ctx := stream_ctx_init L (stream_key_init M key) false [] = .ok ctx
  salt_len := (stream_key_init M key).nonce_len
  decrypt g b ctx := stream_decrypt L g b ctx capacity
  decrypt_all g b := stream_decrypt_all L g b (stream_key_init M key) capacity

/-- A context that still waits for its IV holds what it has been fed; afterwards it has the IV. -/
def StreamPresented (L : CryptoLib) (cipher : Cipher StreamMethod) (fed : Bytes) (won : Bool) (ctx : StreamCtx) :
    Prop :=
  ctx.cipher = cipher ∧
    (ctx.init = 0 ∧ won = false ∧ (ctx.chunk.getD (balloc L.malloc cipher.nonce_len)).bytes = fed ∨
      (ctx.init = 1 ∨ ctx.init = 2) ∧ won = (ctx.init == 2) ∧ cipher.nonce_len ≤ fed.length ∧
        ctx.nonce = fed.take cipher.nonce_len)

theorem stream_decrypt_filtered {L : CryptoLib} {cipher : Cipher StreamMethod} {ctx ctx' : StreamCtx}
    {g g' : CryptoState} {b b' : Buffer} {ret : CryptoRet} {fed : Bytes} {won : Bool} {capacity : Nat}
    (hm : StreamMethod.RC4_MD5.code ≤ cipher.method.code) (hI : StreamPresented L cipher fed won ctx)
    (h : stream_decrypt L g b ctx capacity = .ok (ret, b', ctx', g')) :
    ∃ won', StreamPresented L cipher (fed ++ b.bytes) won' ctx' ∧
      Filtered L.murmurhash2 g.bloom ((fed ++ b.bytes).take cipher.nonce_len) won ret won' g'.bloom := by
  obtain ⟨rfl, ⟨hinit, rfl, hchunk⟩ | ⟨hinit, rfl, hle, hnonce⟩⟩ := hI
  · simp only [stream_decrypt, hinit, ne_eq, not_true_eq_false, false_and, ↓reduceIte] at h
    obtain ⟨⟨ct, ck⟩, hiv, h⟩ := C.bind_eq_ok h
    obtain ⟨hlen, hbytes⟩ := streamTakeIv_ok hiv
    have hfed : fed.length = (ctx.chunk.getD (balloc L.malloc ctx.cipher.nonce_len)).len := by
      rw [← hchunk, Buffer.length_bytes]
    rw [hchunk] at hbytes
    by_cases hlt : ck.len < ctx.cipher.nonce_len
    · -- the IV is not complete, and all of the input belongs to it
      simp only [hlt, ↓reduceIte] at h
      cases h
      refine ⟨false, ⟨rfl, .inl ⟨rfl, rfl, ?_⟩⟩, .needMore⟩
      rw [List.take_of_length_le (by rw [Buffer.length_bytes]; omega)] at hbytes
      exact hbytes
    simp only [hlt, ↓reduceIte] at h
    obtain ⟨nonce, hget, h⟩ := C.bind_eq_ok h
    obtain ⟨-, rfl⟩ := Buffer.of_get hget
    have hnonce : ck.data.read 0 ctx.cipher.nonce_len = (fed ++ b.bytes).take ctx.cipher.nonce_len := by
      have hck : (ck.data.read 0 ck.len).take ctx.cipher.nonce_len = ck.data.read 0 ctx.cipher.nonce_len :=
        Block.take_read _ _ _ _ (by omega)
      rw [← hck, show ck.data.read 0 ck.len = ck.bytes from rfl, hbytes, List.take_append, List.take_append,
        List.take_take, ← hfed, ← Nat.min_assoc, Nat.min_self, ← b.length_bytes, ← List.take_eq_take_min]
    rw [hnonce] at h
    obtain ⟨ctx₁, hset, h⟩ := C.bind_eq_ok h
    obtain ⟨hc, hn, -⟩ := cipher_ctx_set_nonce_same hset
    have hlen' : ctx.cipher.nonce_len ≤ (fed ++ b.bytes).length := by
      rw [List.length_append, Buffer.length_bytes]
      omega
    split at h
    · cases h
      exact ⟨false, ⟨hc, .inr ⟨.inl rfl, rfl, hlen', hn⟩⟩, .error⟩
    · obtain ⟨hc', hn', hi', hF⟩ := streamDecryptRest_filtered (by simp only [hc]; exact hm) (.inl rfl) h
      simp only at hc' hn' hF
      rw [hn] at hF
      exact ⟨_, ⟨hc'.trans hc, .inr ⟨hi', rfl, hlen', hn'.trans hn⟩⟩, hF⟩
  · have hne : ctx.init ≠ 0 := by omega
    have htake : (fed ++ b.bytes).take ctx.cipher.nonce_len = fed.take ctx.cipher.nonce_len :=
      List.take_append_of_le_length hle
    have hF : StreamFiltered L g ctx ret ctx' g' := by
      simp only [stream_decrypt, hne, ne_eq, not_false_eq_true, true_and, ↓reduceIte] at h
      split at h
      · exact streamDecryptInPlace_filtered hm hinit h
      · exact streamDecryptRest_filtered hm hinit h
    obtain ⟨hc, hn, hi, hF⟩ := hF
    rw [hnonce] at hF hn
    rw [htake]
    refine ⟨_, ⟨hc, .inr ⟨hi, rfl, ?_, ?_⟩⟩, hF⟩
    · rw [List.length_append]
      omega
    · rw [hn, htake]

theorem stream_decrypt_all_filtered {L : CryptoLib} {cipher : Cipher StreamMethod} {g g' : CryptoState}
    {b b' : Buffer} {ret : CryptoRet} {capacity : Nat}
    (h : stream_decrypt_all L g b cipher capacity = .ok (ret, b', g')) :
    ∃ won', Filtered L.murmurhash2 g.bloom (b.bytes.take cipher.nonce_len) false ret won' g'.bloom := by
  simp only [stream_decrypt_all] at h
  split at h
  · cases h
    exact ⟨_, .error⟩
  obtain ⟨ctx, -, h⟩ := C.bind_eq_ok h
  obtain ⟨nonce, hget, h⟩ := C.bind_eq_ok h
  obtain ⟨-, rfl⟩ := Buffer.of_get hget
  have htake : b.data.read 0 cipher.nonce_len = b.bytes.take cipher.nonce_len :=
    (Block.take_read _ _ _ _ (by omega)).symm
  rw [htake] at h
  split at h
  · cases h
    exact ⟨_, .error⟩
  rename_i hcheck
  obtain ⟨ctx₁, -, h⟩ := C.bind_eq_ok h
  obtain ⟨input, -, h⟩ := C.bind_eq_ok h
  split at h
  · cases h
    exact ⟨_, .error⟩
  · obtain ⟨plaintext, -, h⟩ := C.bind_eq_ok h
    cases h
    exact ⟨_, .first hcheck⟩

theorem stream_guarded (L : CryptoLib) (M : StreamMethod) (key : Bytes) (capacity : Nat)
    (hm : StreamMethod.RC4_MD5.code ≤ M.code) :
    Guarded (streamDecryptor L M key capacity) L.murmurhash2 (StreamPresented L (stream_key_init M key)) where
  fresh := by
    intro ctx h
    simp only [streamDecryptor, stream_ctx_init] at h
    split at h
    · cases h
      exact ⟨rfl, .inl ⟨rfl, rfl, rfl⟩⟩
    split at h
    · cases h
      exact ⟨rfl, .inl ⟨rfl, rfl, rfl⟩⟩
    · cases h
  salt_le := by
    rintro fed ctx ⟨-, ⟨-, hwon, -⟩ | ⟨-, -, hle, -⟩⟩
    · cases hwon
    · exact hle
  decrypt hI _ h := stream_decrypt_filtered hm hI h
  decrypt_all _ h := stream_decrypt_all_filtered h

/-! ### Both -/

/-- The process of a server or client with the given method. -/
def decryptor (L : CryptoLib) (method : AeadMethod ⊕ StreamMethod) (key : Bytes) (capacity : Nat) : Decryptor :=
  match method with
  | .inl M => aeadDecryptor L M key capacity
  | .inr M => streamDecryptor L M key capacity

/-- Of the contexts and calls that were presented with one salt, a second one has returned `CRYPTO_OK` only after
half of the filter's `n` items had been added since the first. -/
theorem replay_protection (L : CryptoLib) (method : AeadMethod ⊕ StreamMethod)
    (hm : ∀ M, method = .inr M → StreamMethod.RC4_MD5.code ≤ M.code) (key : Bytes) (capacity n hashes bits : Nat)
    (hn : 2 ≤ n) {p : Process (decryptor L method key capacity)}
    (h : (replaySystem (decryptor L method key capacity) L.murmurhash2 (ppbloom_init n hashes bits)).Reach p) :
    p.g.bloom = (p.adds.map (·.2)).foldl (ppbloom_add L.murmurhash2) (ppbloom_init n hashes bits) ∧
      ∀ a b x, (a, x) ∈ p.oks → (b, x) ∈ p.oks → a ≠ b →
        ∃ l₁ l₂ l₃, (p.adds = l₁ ++ (some a, x) :: l₂ ++ (some b, x) :: l₃ ∨
          p.adds = l₁ ++ (some b, x) :: l₂ ++ (some a, x) :: l₃) ∧ n / 2 ≤ l₂.length := by
  have hf : (ppbloom_init n hashes bits).WF := ppbloom_init_wf hn
  rcases method with M | M
  · have hD := aead_guarded L M key capacity
    exact ⟨(replayInv_of_reach hf hD h).history.bloom, fun a b x ha hb hab => hD.apart hf h ha hb hab⟩
  · have hD := stream_guarded L M key capacity (hm M rfl)
    exact ⟨(replayInv_of_reach hf hD h).history.bloom, fun a b x ha hb hab => hD.apart hf h ha hb hab⟩

def Process.start (D : Decryptor) (g : CryptoState) (ctx : D.Ctx) : Process D where
  g
  ctx _ := ctx
  fed _ := []
  calls := 0
  oks := []
  adds := []

def saltedChunk : Buffer :=
  Buffer.ofBytes (List.replicate 16 2 ++ ([0, 1] ++ List.replicate 16 0) ++ ([3] ++ List.replicate 16 0))

/-- Two contexts are fed the same bytes: the second one fails. -/
theorem replay_protection_tagLib :
    ∃ p : Process (decryptor (tagLib fun _ _ => true) (.inl .AES128GCM) (List.replicate 16 1) SOCKET_BUF_SIZE),
      p.oks = [(.ctx 0, List.replicate 16 2)] ∧
      p.g.bloom = (p.adds.map (·.2)).foldl (ppbloom_add (tagLib fun _ _ => true).murmurhash2)
        (ppbloom_init 10000 7 95851) ∧
      ∀ a b x, (a, x) ∈ p.oks → (b, x) ∈ p.oks → a ≠ b →
        ∃ l₁ l₂ l₃, (p.adds = l₁ ++ (some a, x) :: l₂ ++ (some b, x) :: l₃ ∨
          p.adds = l₁ ++ (some b, x) :: l₂ ++ (some a, x) :: l₃) ∧ 10000 / 2 ≤ l₂.length := by
  have hrun : (do
      let p ← (Process.start (decryptor (tagLib fun _ _ => true) (.inl .AES128GCM) (List.replicate 16 1)
        SOCKET_BUF_SIZE) .start
        (aead_ctx_init (aead_key_init .AES128GCM (List.replicate 16 1)) none)).feed 0 saltedChunk
      let p ← p.feed 1 saltedChunk
      return p.oks : C (List (Source × Bytes))) = .ok [(Source.ctx 0, List.replicate 16 2)] := by
    decide +kernel
  obtain ⟨q, hq, hrun⟩ := C.bind_eq_ok hrun
  obtain ⟨p, hp, hoks⟩ := C.bind_eq_ok hrun
  have hb : saltedChunk.len ≤ saltedChunk.capacity := by decide
  refine ⟨p, Except.ok.inj hoks, replay_protection _ _ (by intro M h; cases h) _ _ _ _ _ (by decide) ?_⟩
  refine .step (.step ?_ (.feed hb hq)) (.feed hb hp)
  exact .init ⟨rfl, fun _ => rfl, fun _ => rfl, rfl, rfl, rfl⟩
end OutlineServer
