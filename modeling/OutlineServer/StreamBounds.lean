import OutlineServer.AeadBounds
import OutlineServer.Stream

/-!
# The bounds of the stream cipher functions

The counterpart of `AeadBounds` for `stream.c`. A context's `chunk` takes the IV and nothing else, and the
libsodium ciphers pad inputs at the front, so that both buffers need room for a block more.
-/

namespace OutlineServer

structure StreamCtx.Fits (ctx : StreamCtx) : Prop where
  nonce : ctx.nonce.length = ctx.cipher.nonce_len
  chunk : ∀ b ∈ ctx.chunk, b.idx = 0 ∧ b.len ≤ ctx.cipher.nonce_len ∧ ctx.cipher.nonce_len ≤ b.capacity

theorem StreamCtx.Fits.with_state {ctx : StreamCtx} (h : ctx.Fits) (init counter : Nat) (evp : Option CipherEvp) :
    StreamCtx.Fits { ctx with init, counter, evp } := ⟨h.nonce, h.chunk⟩

/-- What `cipher_ctx_update` of `x` leaves: an error, or as many bytes. -/
inductive UpdateSpec (ctx : StreamCtx) (x : Bytes) : Option Bytes × StreamCtx → Prop
  | error (evp : Option CipherEvp) : UpdateSpec ctx x (none, { ctx with evp })
  | ok (y : Bytes) (evp : Option CipherEvp) (hy : y.length = x.length) : UpdateSpec ctx x (some y, { ctx with evp })

section
variable {L : CryptoLib} {g : CryptoState} {gs : CryptoStatics} {ctx : StreamCtx} {b p c chunk : Buffer}
  {capacity nonce_len : Nat} {cipher : Cipher StreamMethod}

theorem crypto_stream_xor_ic_length (hL : L.Lengths) (m n k : Bytes) (ic : Nat) (M : StreamMethod) :
    (crypto_stream_xor_ic L m n ic k M).length = m.length := hL.xor_length _ _ _ _ _

theorem cipher_ctx_update_updates (hL : L.Lengths) (ctx : StreamCtx) (x : Bytes) :
    UpdateSpec ctx x (cipher_ctx_update L ctx x) := by
  rw [cipher_ctx_update]
  cases hevp : ctx.evp with
  | none =>
    have hnone := (@UpdateSpec.error ctx x) none
    rwa [← hevp] at hnone
  | some evp =>
    simp only
    cases hy : L.cipher_update ctx.cipher.method evp x with
    | none => exact .error _
    | some y => exact .ok y _ (hL.update_length hy)

/-- What either kind of cipher gives for a datagram. -/
theorem length_of_out (hL : L.Lengths) {ctx : StreamCtx} {x n y : Bytes}
    (hy : (if StreamMethod.SALSA20.code ≤ cipher.method.code then
        some (crypto_stream_xor_ic L x n 0 cipher.key cipher.method)
      else (cipher_ctx_update L ctx x).1) = some y) : y.length = x.length := by
  split at hy
  · cases hy
    exact crypto_stream_xor_ic_length hL _ _ _ _ _
  · have hspec := cipher_ctx_update_updates hL ctx x
    generalize cipher_ctx_update L ctx x = r at hy hspec
    rcases hspec with _ | ⟨y', _, hy'⟩
    · cases hy
    · cases hy
      exact hy'

theorem cipher_ctx_set_nonce_within (ctx : StreamCtx) (nonce : Bytes) (enc : Bool) :
    C.Within (cipher_ctx_set_nonce L ctx nonce enc) fun ctx' => ∃ evp, ctx' = { ctx with evp } := by
  rw [cipher_ctx_set_nonce]
  split
  · exact ⟨_, rfl⟩
  · generalize (if ctx.cipher.method = .RC4_MD5 then (L.md5 (ctx.cipher.key.take 16 ++ nonce.take 16), [])
      else (ctx.cipher.key, nonce)) = key_iv
    simp only
    split
    · exact ⟨_, rfl⟩
    · split
      · exact ⟨_, rfl⟩
      · exact Except.Ensures.error rfl

theorem stream_ctx_init_within {enc : Bool} {nonce : Bytes} (hn : enc = true → nonce.length = cipher.nonce_len) :
    C.Within (stream_ctx_init L cipher enc nonce) fun ctx =>
      ctx.Fits ∧ ctx.cipher = cipher ∧ (enc = true → ctx.nonce = nonce) := by
  have hfits : (if enc then nonce else LeCounter.zero cipher.nonce_len).length = cipher.nonce_len := by
    cases enc
    · exact List.length_replicate
    · exact hn rfl
  have hnonce : enc = true → (if enc then nonce else LeCounter.zero cipher.nonce_len) = nonce := fun h => if_pos h
  rw [stream_ctx_init]
  simp only
  split
  · exact ⟨⟨hfits, nofun⟩, rfl, hnonce⟩
  · split
    · exact ⟨⟨hfits, nofun⟩, rfl, hnonce⟩
    · exact Except.Ensures.error rfl

/-! ### Encryption -/

theorem streamEncryptInPlace_within (hL : L.Lengths) (h : ctx.Fits) (hb : b.Hands capacity) (gs : CryptoStatics) :
    C.Within (streamEncryptInPlace L gs b ctx) fun r => r.2.1.Hands capacity ∧ r.2.2.1.Fits := by
  have hfits := hb.fits
  have hspec := cipher_ctx_update_updates hL ctx (b.data.read 0 b.len)
  rw [streamEncryptInPlace, Buffer.get_ok (by omega), C.ok_bind]
  generalize cipher_ctx_update L ctx (b.data.read 0 b.len) = r at hspec ⊢
  cases hspec with
  | error evp => exact ⟨hb, h.with_state _ _ evp⟩
  | ok y evp hy =>
    rw [Block.length_read] at hy
    simp only
    rw [Buffer.put_ok (by omega), C.ok_bind]
    refine ⟨⟨hb.room, ?_⟩, h.with_state _ _ evp⟩
    simp only
    omega

/-- The padding is overwritten, and `tmp` has room for it. -/
theorem streamEncryptXor_within (hL : L.Lengths) (h : ctx.Fits) (hb : b.Hands capacity) (hlen : c.len = b.len) :
    C.Within (streamEncryptXor L b c ctx nonce_len capacity) fun r => r.2.1.len = b.len ∧
      nonce_len + b.len ≤ r.2.1.capacity ∧ capacity ≤ r.2.1.capacity ∧ r.2.2.Fits := by
  have hfits := hb.fits
  rw [streamEncryptXor]
  simp only
  generalize ctx.counter % SODIUM_BLOCK_SIZE = padding
  have hc := brealloc_room c (nonce_len + (padding + c.len) * 2) capacity
  have hp := brealloc_room b (b.len + padding) capacity
  have hroom : padding + b.len ≤ (if padding = 0 then b else brealloc b (b.len + padding) capacity).capacity := by
    split
    · omega
    · omega
  rw [Buffer.get_ok (by omega), C.ok_bind, Buffer.put_ok (by simpa using hroom), C.ok_bind,
    Buffer.put_ok (by
      rw [crypto_stream_xor_ic_length hL, List.length_append, List.length_replicate, Block.length_read]
      omega), C.ok_bind]
  simp only [brealloc_len]
  rw [Buffer.get_ok (by simp only; omega), C.ok_bind, Buffer.put_ok (by rw [Block.length_read]; simp only; omega),
    C.ok_bind]
  refine ⟨?_, ?_, hc.2.2, h.with_state _ _ _⟩
  · simp only [hlen]
  · simp only
    omega

theorem streamEncryptDone_hands (hlen : nonce_len + c.len ≤ c.capacity) (hroom : capacity ≤ c.capacity) :
    (streamEncryptDone gs b c ctx nonce_len).2.1.Hands capacity := ⟨hroom, hlen⟩

theorem streamEncryptRest_within (hL : L.Lengths) (h : ctx.Fits) (hb : b.Hands capacity) (hlen : c.len = b.len)
    (hc : nonce_len + c.len ≤ c.capacity) (hroom : capacity ≤ c.capacity) (gs : CryptoStatics) :
    C.Within (streamEncryptRest L gs b c ctx nonce_len capacity) fun r => r.2.1.Hands capacity ∧ r.2.2.1.Fits := by
  have hfits := hb.fits
  rw [streamEncryptRest]
  split
  · refine (streamEncryptXor_within hL h hb hlen).bind ?_
    rintro ⟨b', c', ctx'⟩ ⟨hlen', hc', hroom', h'⟩
    exact ⟨streamEncryptDone_hands (by simp only at hlen' hc'; omega) hroom', h'⟩
  · have hspec := cipher_ctx_update_updates hL ctx (b.data.read 0 b.len)
    rw [Buffer.get_ok (by omega), C.ok_bind]
    generalize cipher_ctx_update L ctx (b.data.read 0 b.len) = r at hspec ⊢
    cases hspec with
    | error evp => exact ⟨hb, h.with_state _ _ evp⟩
    | ok y evp hy =>
      rw [Block.length_read] at hy
      simp only
      rw [Buffer.put_ok (by omega), C.ok_bind]
      refine ⟨streamEncryptDone_hands ?_ hroom, h.with_state _ _ evp⟩
      simp only
      omega

theorem stream_encrypt_within (hL : L.Lengths) (h : ctx.Fits) (hb : b.Hands capacity) (gs : CryptoStatics) :
    C.Within (stream_encrypt L gs b ctx capacity) fun r => r.2.1.Hands capacity ∧ r.2.2.1.Fits := by
  rw [stream_encrypt]
  split
  · exact streamEncryptInPlace_within hL h hb gs
  · have hsize :=
      brealloc_room gs.stream_encrypt_tmp ((if ctx.init = 0 then ctx.cipher.nonce_len else 0) + b.len) capacity
    by_cases hinit : ctx.init = 0
    · simp only [hinit, ↓reduceIte, ne_eq, not_true_eq_false] at hsize ⊢
      refine (cipher_ctx_set_nonce_within _ _ _).bind ?_
      rintro _ ⟨evp, rfl⟩
      have hnonce := h.nonce
      rw [Buffer.put_ok (by simp only; omega), C.ok_bind]
      refine streamEncryptRest_within hL (h.with_state 1 0 evp) hb ?_ ?_ ?_ _
      · rfl
      · exact hsize.2.1
      · exact hsize.2.2
    · simp only [hinit, ↓reduceIte, ne_eq, not_false_eq_true] at hsize ⊢
      refine streamEncryptRest_within hL h hb ?_ ?_ ?_ gs
      · rfl
      · exact hsize.2.1
      · exact hsize.2.2

/-! ### Decryption -/

theorem streamFilter_fits (h : ctx.Fits) (g : CryptoState) : (streamFilter L g ctx).2.1.Fits := by
  rw [streamFilter]
  split
  · split
    · exact h
    · exact h.with_state 2 _ _
  · exact h

theorem streamDecryptInPlace_within (hL : L.Lengths) (h : ctx.Fits) (hb : b.Hands capacity) (g : CryptoState) :
    C.Within (streamDecryptInPlace L g b ctx) fun r => r.2.1.Hands capacity ∧ r.2.2.1.Fits := by
  have hfits := hb.fits
  have hspec := cipher_ctx_update_updates hL ctx (b.data.read 0 b.len)
  rw [streamDecryptInPlace]
  split
  · exact ⟨hb, h⟩
  rw [Buffer.get_ok (by omega), C.ok_bind]
  generalize cipher_ctx_update L ctx (b.data.read 0 b.len) = r at hspec ⊢
  cases hspec with
  | error evp => exact ⟨hb, h.with_state _ _ evp⟩
  | ok y evp hy =>
    rw [Block.length_read] at hy
    have h' := streamFilter_fits (L := L) (h.with_state ctx.init ctx.counter evp) g
    simp only
    rw [Buffer.put_ok (by omega), C.ok_bind]
    generalize streamFilter L g _ = r at h' ⊢
    rcases r with ⟨_ | _, ctx', g'⟩
    · exact ⟨⟨hb.room, by simp only; omega⟩, h'⟩
    · exact ⟨⟨hb.room, by simp only; omega⟩, h'⟩

theorem streamXor_within (hL : L.Lengths) (h : ctx.Fits) (hb : b.Hands capacity) (hlen : p.len = b.len) :
    C.Within (streamXor L b p ctx capacity) fun r => r.1.Hands capacity ∧ r.2.1.Hands capacity ∧ r.2.2.Fits := by
  have hfits := hb.fits
  have hcap := hb.room
  rw [streamXor]
  simp only
  generalize ctx.counter % SODIUM_BLOCK_SIZE = padding
  have hp := brealloc_room p ((p.len + padding) * 2) capacity
  have hc := brealloc_room b (b.len + padding) capacity
  have hroom : b.capacity ≤ (if padding = 0 then b else brealloc b (b.len + padding) capacity).capacity ∧
      padding + b.len ≤ (if padding = 0 then b else brealloc b (b.len + padding) capacity).capacity := by
    split
    · omega
    · omega
  have hblen : (if padding = 0 then b else brealloc b (b.len + padding) capacity).len = b.len := by
    split
    · rfl
    · exact brealloc_len _ _ _
  rw [Buffer.get_ok (by omega), C.ok_bind, Buffer.put_ok (by simpa using hroom.2), C.ok_bind,
    Buffer.put_ok (by
      rw [crypto_stream_xor_ic_length hL, List.length_append, List.length_replicate, Block.length_read]
      omega), C.ok_bind]
  simp only [brealloc_len]
  rw [Buffer.get_ok (by simp only; omega), C.ok_bind, Buffer.put_ok (by rw [Block.length_read]; simp only; omega),
    C.ok_bind]
  refine ⟨⟨?_, ?_⟩, ⟨?_, ?_⟩, h.with_state _ _ _⟩
  · simp only
    omega
  · simp only
    omega
  · exact hp.2.2
  · simp only
    omega

theorem streamDecryptDone_hands (h : ctx.Fits) (hb : b.Hands capacity) (hp : p.Hands capacity) (g : CryptoState) :
    (streamDecryptDone L g b p ctx).2.1.Hands capacity ∧ (streamDecryptDone L g b p ctx).2.2.1.Fits := by
  have h' := streamFilter_fits (L := L) h g
  rw [streamDecryptDone]
  generalize streamFilter L g ctx = r at h' ⊢
  rcases r with ⟨_ | _, ctx', g'⟩
  · exact ⟨⟨hp.room, hp.fits⟩, h'⟩
  · exact ⟨hb, h'⟩

theorem streamDecryptRest_within (hL : L.Lengths) (h : ctx.Fits) (hb : b.Hands capacity) (hlen : p.len = b.len)
    (hp : p.Hands capacity) (g : CryptoState) :
    C.Within (streamDecryptRest L g b p ctx capacity) fun r => r.2.1.Hands capacity ∧ r.2.2.1.Fits := by
  have hfits := hb.fits
  have hpfits := hp.fits
  rw [streamDecryptRest]
  split
  · exact ⟨hb, h⟩
  split
  · refine (streamXor_within hL h hb hlen).bind ?_
    rintro ⟨b', p', ctx'⟩ ⟨hb', hp', h'⟩
    exact streamDecryptDone_hands h' hb' hp' g
  · have hspec := cipher_ctx_update_updates hL ctx (b.data.read 0 b.len)
    rw [Buffer.get_ok (by omega), C.ok_bind]
    generalize cipher_ctx_update L ctx (b.data.read 0 b.len) = r at hspec ⊢
    cases hspec with
    | error evp => exact ⟨hb, h.with_state _ _ evp⟩
    | ok y evp hy =>
      rw [Block.length_read] at hy
      simp only
      rw [Buffer.put_ok (by omega), C.ok_bind]
      refine streamDecryptDone_hands (h.with_state _ _ evp) hb ?_ g
      exact ⟨hp.room, by simp only; omega⟩

/-- The IV is never longer than its buffer, over all calls that bring parts of it. -/
theorem streamTakeIv_within (hb : b.Hands capacity) (hidx : chunk.idx = 0) (hlen : chunk.len ≤ nonce_len)
    (hroom : nonce_len ≤ chunk.capacity) :
    C.Within (streamTakeIv b chunk nonce_len) fun r => r.1.Hands capacity ∧ r.1.len ≤ b.len ∧
      r.2.idx = 0 ∧ r.2.len ≤ nonce_len ∧ nonce_len ≤ r.2.capacity := by
  have hfits := hb.fits
  rw [streamTakeIv]
  rw [Buffer.get_ok (by omega), C.ok_bind, Buffer.put_ok (by rw [Block.length_read]; omega), C.ok_bind,
    Buffer.get_ok (by omega), C.ok_bind, Buffer.put_ok (by rw [Block.length_read]; omega), C.ok_bind]
  refine ⟨⟨hb.room, ?_⟩, ?_, hidx, ?_, hroom⟩
  · simp only
    omega
  · simp only
    omega
  · simp only
    omega

theorem stream_decrypt_within (hL : L.Lengths) (h : ctx.Fits) (hb : b.Hands capacity) (g : CryptoState) :
    C.Within (stream_decrypt L g b ctx capacity) fun r => r.2.1.Hands capacity ∧ r.2.2.1.Fits := by
  rw [stream_decrypt]
  split
  · exact streamDecryptInPlace_within hL h hb g
  have hsize := brealloc_room g.stream_decrypt_tmp b.len capacity
  by_cases hinit : ctx.init = 0
  · simp only [hinit, ne_eq, not_true_eq_false, ↓reduceIte]
    have hchunk : (ctx.chunk.getD (balloc L.malloc ctx.cipher.nonce_len)).idx = 0 ∧
        (ctx.chunk.getD (balloc L.malloc ctx.cipher.nonce_len)).len ≤ ctx.cipher.nonce_len ∧
        ctx.cipher.nonce_len ≤ (ctx.chunk.getD (balloc L.malloc ctx.cipher.nonce_len)).capacity := by
      rcases hck : ctx.chunk with _ | ck
      · exact ⟨rfl, Nat.zero_le _, Nat.le_refl _⟩
      · exact h.chunk ck hck
    refine (streamTakeIv_within hb hchunk.1 hchunk.2.1 hchunk.2.2).bind ?_
    rintro ⟨b', ck⟩ ⟨hb', hle, hidx, hck, hroom⟩
    simp only at hb' hle hidx hck hroom
    have hfits : ∀ (init : Nat) (nonce : Bytes) (counter : Nat) (evp : Option CipherEvp),
        nonce.length = ctx.cipher.nonce_len →
        StreamCtx.Fits { ctx with init, nonce, chunk := some ck, counter, evp } := by
      rintro init nonce counter evp hn
      refine ⟨hn, ?_⟩
      rintro _ ⟨⟩
      exact ⟨hidx, hck, hroom⟩
    simp only
    split
    · exact ⟨hb', hfits 0 _ _ _ h.nonce⟩
    rw [Buffer.get_ok (by omega), C.ok_bind]
    refine (cipher_ctx_set_nonce_within _ _ _).bind ?_
    rintro _ ⟨evp, rfl⟩
    have hctx := hfits 1 (ck.data.read 0 ctx.cipher.nonce_len) 0 evp (Block.length_read ..)
    simp only
    split
    · exact ⟨hb', hctx⟩
    · refine streamDecryptRest_within hL hctx hb' ?_ ?_ g
      · rfl
      · exact ⟨hsize.2.2, by simp only; omega⟩
  · simp only [hinit, ne_eq, not_false_eq_true, ↓reduceIte]
    refine streamDecryptRest_within hL h hb ?_ ?_ g
    · rfl
    · exact ⟨hsize.2.2, hsize.2.1⟩

/-! ### Datagrams -/

theorem stream_encrypt_all_within (hL : L.Lengths) {salt : Bytes} (hsalt : salt.length = cipher.nonce_len)
    (hb : b.Hands capacity) (gs : CryptoStatics) :
    C.Within (stream_encrypt_all L gs salt b cipher capacity) fun r => r.2.1.Hands capacity := by
  have hsize := brealloc_room gs.stream_encrypt_all_tmp (cipher.nonce_len + b.len) capacity
  have hfits := hb.fits
  rw [stream_encrypt_all]
  refine (stream_ctx_init_within fun _ => hsalt).bind ?_
  rintro ctx ⟨-, -, hnonce⟩
  obtain rfl := hnonce rfl
  refine (cipher_ctx_set_nonce_within _ _ _).bind ?_
  rintro _ ⟨evp, rfl⟩
  simp only
  rw [Buffer.put_ok (by simp only; omega), C.ok_bind, Buffer.get_ok (by omega), C.ok_bind]
  split
  · exact hb
  · rename_i out hout
    have hlen := length_of_out hL hout
    rw [Block.length_read] at hlen
    rw [Buffer.put_ok (by simp only; omega), C.ok_bind]
    refine ⟨?_, ?_⟩
    · split
      · exact hsize.2.2
      · exact hsize.2.2
    · split
      · exact hsize.2.1
      · simp only [bswap_data]
        omega

theorem stream_decrypt_all_within (hL : L.Lengths) (hb : b.Hands capacity) (g : CryptoState) :
    C.Within (stream_decrypt_all L g b cipher capacity) fun r => r.2.1.Hands capacity ∧ r.2.1.len ≤ b.len := by
  have hsize := brealloc_room g.stream_decrypt_all_tmp b.len capacity
  have hfits := hb.fits
  rw [stream_decrypt_all]
  by_cases hle : b.len ≤ cipher.nonce_len
  · simp only [hle, ↓reduceIte]
    exact ⟨hb, Nat.le_refl _⟩
  simp only [hle, ↓reduceIte]
  refine ((@stream_ctx_init_within _ _ false) nofun).bind ?_
  rintro ctx -
  rw [Buffer.get_ok (by omega), C.ok_bind]
  split
  · exact ⟨hb, Nat.le_refl _⟩
  refine (cipher_ctx_set_nonce_within _ _ _).bind ?_
  rintro _ ⟨evp, rfl⟩
  rw [Buffer.get_ok (by omega), C.ok_bind]
  simp only
  split
  · exact ⟨hb, Nat.le_refl _⟩
  · rename_i out hout
    have hlen := length_of_out hL hout
    rw [Block.length_read] at hlen
    rw [Buffer.put_ok (by simp only; omega), C.ok_bind]
    refine ⟨⟨?_, ?_⟩, ?_⟩
    · split
      · exact hsize.2.2
      · exact hsize.2.2
    · split
      · simp only [bswap_data]
        omega
      · simp only [bswap_data]
        omega
    · split
      · simp only [bswap_data]
        omega
      · simp only [bswap_data]
        omega

end

end OutlineServer
