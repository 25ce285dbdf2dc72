import OutlineServer.AeadSender
import OutlineServer.Lib.Ensures

/-!
# The bounds of the AEAD functions

No access of `aead_encrypt`, `aead_decrypt` and the datagram functions is out of bounds, no assertion fails and
the loop ends, whether or not the cipher fails. The context that they leave fits (`AeadCtx.Fits`), and the buffer
that they hand back has room for the next input (`Hands`).
-/

namespace OutlineServer

/-- What the code relies on in the libraries, where they do not fail: the lengths of their outputs. -/
structure CryptoLib.Lengths (L : CryptoLib) : Prop extends L.Sized where
  encrypt_length : ∀ {M k n m c}, L.aead_encrypt M k n m = some c →
    c.length = m.length + supported_aead_ciphers_tag_size M
  update_length : ∀ {M evp x y}, L.cipher_update M evp x = some y → y.length = x.length
  xor_length : ∀ M k n ic x, (L.stream_xor_ic M k n ic x).length = x.length

/-- `x` gives a value that satisfies `Q`, or ends the process with a message. -/
abbrev C.Within {α : Type} (x : C α) (Q : α → Prop) : Prop := x.Ensures (· = .fatal) Q

/-- A buffer handed back by a call whose argument is `capacity`. -/
structure Buffer.Hands (capacity : Nat) (b : Buffer) : Prop where
  room : capacity ≤ b.capacity
  fits : b.len ≤ b.capacity

structure AeadCtx.Fits (ctx : AeadCtx) : Prop where
  cipher : ctx.cipher.Supported
  salt : ctx.salt.length = ctx.cipher.key_len
  chunk : ∀ b ∈ ctx.chunk, b.idx + b.len ≤ b.capacity

theorem AeadCtx.Fits.with_chunk {ctx : AeadCtx} {ck : Buffer} (h : ctx.Fits) (hck : ck.idx + ck.len ≤ ck.capacity) :
    AeadCtx.Fits { ctx with chunk := some ck } := by
  refine ⟨h.cipher, h.salt, ?_⟩
  rintro _ ⟨⟩
  exact hck

theorem AeadCtx.Fits.with_init {ctx : AeadCtx} (h : ctx.Fits) (init : Nat) : AeadCtx.Fits { ctx with init } :=
  ⟨h.cipher, h.salt, h.chunk⟩

section
variable {L : CryptoLib} {g : CryptoState} {ctx : AeadCtx} {b p c chunk : Buffer} {capacity off plen : Nat}

theorem brealloc_room (b : Buffer) (len capacity : Nat) :
    b.capacity ≤ (brealloc b len capacity).capacity ∧ len ≤ (brealloc b len capacity).capacity ∧
      capacity ≤ (brealloc b len capacity).capacity := by
  simp only [brealloc]
  split
  · exact ⟨by simp only; omega, by simp only; omega, by simp only; omega⟩
  · exact ⟨Nat.le_refl _, by omega, by omega⟩

@[simp] theorem brealloc_len (b : Buffer) (len capacity : Nat) : (brealloc b len capacity).len = b.len := by
  obtain ⟨c, hc, -⟩ := brealloc_eq b len capacity
  rw [hc]

@[simp] theorem brealloc_idx (b : Buffer) (len capacity : Nat) : (brealloc b len capacity).idx = b.idx := by
  obtain ⟨c, hc, -⟩ := brealloc_eq b len capacity
  rw [hc]

theorem aead_cipher_ctx_set_key_within (h : ctx.Fits) :
    C.Within (aead_cipher_ctx_set_key L ctx) fun ctx' => ctx'.Fits ∧ ctx'.cipher = ctx.cipher := by
  have hkey := h.cipher.key_len
  rw [aead_cipher_ctx_set_key_eq (by omega)]
  exact ⟨⟨h.cipher, h.salt, h.chunk⟩, rfl⟩

/-! ### Encryption -/

theorem aead_chunk_encrypt_within (hL : L.Lengths) (hs : ctx.cipher.Supported) (hle : plen ≤ CHUNK_SIZE_MASK)
    (hp : plen ≤ p.capacity) (hc : off + (2 * ctx.cipher.tag_len + CHUNK_SIZE_LEN + plen) ≤ c.capacity) :
    C.Within (aead_chunk_encrypt L ctx p c off plen) fun r => (∃ d, r.2.1 = { c with data := d }) ∧
      ∃ n s, r.2.2 = { ctx with nonce := n, sealed := s } := by
  simp only [aead_chunk_encrypt, cassert_ok hle, C.ok_bind, aead_cipher_encrypt]
  cases he : L.aead_encrypt ctx.cipher.method ctx.skey ctx.nonce (store16_be (plen &&& CHUNK_SIZE_MASK)) with
  | none => exact ⟨⟨_, rfl⟩, _, _, rfl⟩
  | some e =>
    have hlen : e.length = CHUNK_SIZE_LEN + ctx.cipher.tag_len := by
      rw [hL.encrypt_length he, hs.tag_len]
      rfl
    simp only [Buffer.put_ok (show off + e.length ≤ c.capacity by omega), C.ok_bind, cassert_ok hlen,
      Buffer.get_ok (show 0 + plen ≤ p.capacity by omega)]
    cases he' : L.aead_encrypt ctx.cipher.method ctx.skey (sodium_increment ctx.nonce) (p.data.read 0 plen) with
    | none => exact ⟨⟨_, rfl⟩, _, _, rfl⟩
    | some e' =>
      have hlen' : e'.length = plen + ctx.cipher.tag_len := by
        rw [hL.encrypt_length he', Block.length_read, hs.tag_len]
      simp only [C.ok_bind, cassert_ok hlen']
      rw [Buffer.put_ok (by simp only; omega)]
      exact ⟨⟨_, rfl⟩, _, _, rfl⟩

theorem aeadEncryptChunk_within (hL : L.Lengths) (h : ctx.Fits) (hb : b.Hands capacity) (hle : b.len ≤ SOCKET_BUF_SIZE)
    (hlen : off + (2 * ctx.cipher.tag_len + CHUNK_SIZE_LEN + b.len) = g.aead_encrypt_tmp.len)
    (htmp : g.aead_encrypt_tmp.Hands capacity) :
    C.Within (aeadEncryptChunk L g b ctx off) fun r => r.2.1.Hands capacity ∧ r.2.2.1.Fits := by
  have hmod : b.len % 2 ^ 16 = b.len := Nat.mod_eq_of_lt (by rw [SOCKET_BUF_SIZE] at hle; omega)
  have hroom := htmp.fits
  rw [aeadEncryptChunk, hmod]
  refine (aead_chunk_encrypt_within hL h.cipher hle hb.fits (by omega)).bind ?_
  rintro ⟨err, c, ctx'⟩ ⟨⟨d, rfl⟩, n, s, rfl⟩
  have hctx : AeadCtx.Fits { ctx with nonce := n, sealed := s } := ⟨h.cipher, h.salt, h.chunk⟩
  simp only
  split
  · exact ⟨hb, hctx⟩
  · exact ⟨⟨htmp.room, htmp.fits⟩, hctx⟩

theorem aead_encrypt_within (hL : L.Lengths) (h : ctx.Fits) (hb : b.Hands capacity) (hle : b.len ≤ SOCKET_BUF_SIZE)
    (g : CryptoState) :
    C.Within (aead_encrypt L g b ctx capacity) fun r => r.2.1.Hands capacity ∧ r.2.2.1.Fits := by
  rw [aead_encrypt]
  by_cases h0 : b.len = 0
  · rw [if_pos h0]
    exact ⟨hb, h⟩
  rw [if_neg h0]
  simp only
  have hsize := brealloc_room g.aead_encrypt_tmp
    ((if ctx.init = 0 then ctx.cipher.key_len else 0) + 2 * ctx.cipher.tag_len + b.len + CHUNK_SIZE_LEN) capacity
  by_cases hinit : ctx.init = 0
  · simp only [hinit, ↓reduceIte] at hsize ⊢
    rw [Buffer.put_ok (by simp only [h.salt]; omega), C.ok_bind]
    refine (aead_cipher_ctx_set_key_within h).bind ?_
    rintro ctx' ⟨hctx', hcipher⟩
    refine aeadEncryptChunk_within hL (hctx'.with_init 1) hb hle ?_ ⟨hsize.2.2, hsize.2.1⟩
    simp only [hcipher]
    omega
  · simp only [hinit, ↓reduceIte] at hsize ⊢
    exact aeadEncryptChunk_within hL h hb hle (by simp only; omega) ⟨hsize.2.2, hsize.2.1⟩

/-! ### Decryption -/

theorem aeadDecryptFill_within (hct : b.Hands capacity) (hck : chunk.idx + chunk.len ≤ chunk.capacity) :
    C.Within (aeadDecryptFill b chunk capacity) fun r =>
      r.1.Hands capacity ∧ r.2.idx + r.2.len ≤ r.2.capacity ∧ r.2.len ≤ r.1.capacity := by
  have hfits := hct.fits
  rw [aeadDecryptFill]
  split
  · have hsize := brealloc_room { b with len := 0, data := chunk.data, capacity := chunk.capacity } b.len capacity
    refine ⟨⟨hsize.2.2, ?_⟩, ?_, hsize.2.1⟩
    · simp only [brealloc_len]
      omega
    · simpa only [bswap_data, Nat.zero_add] using hfits
  · obtain ⟨ck, hmove, hidx, -, -, -⟩ := aeadDecryptMove_spec hck
    have hgrown := brealloc_room ck (ck.len + b.len) capacity
    have hout := brealloc_room b (ck.len + b.len) capacity
    rw [hmove, C.ok_bind]
    simp only [Buffer.get_ok (show 0 + b.len ≤ b.capacity by omega), C.ok_bind]
    rw [Buffer.put_ok (by rw [Block.length_read, brealloc_len]; exact hgrown.2.1), C.ok_bind]
    simp only [brealloc_len]
    refine ⟨⟨hout.2.2, ?_⟩, ?_, hout.2.1⟩
    · rw [brealloc_len]
      exact Nat.le_trans hfits hout.1
    · rw [brealloc_idx, hidx, Nat.zero_add]
      exact hgrown.2.1

theorem aeadDecryptLoop_within (hL : L.Lengths) {fuel cidx : Nat} (h : ctx.Fits) (hfuel : chunk.len < fuel)
    (hc : chunk.idx + cidx + chunk.len ≤ chunk.capacity) (hp : plen + chunk.len ≤ b.capacity) :
    C.Within (aeadDecryptLoop L fuel ctx b chunk plen cidx) fun r => r.ctx.Fits ∧
      r.chunk.idx + r.chunk.len ≤ r.chunk.capacity ∧ r.plen ≤ b.capacity ∧
      r.ciphertext.len = b.len ∧ r.ciphertext.capacity = b.capacity := by
  induction fuel generalizing ctx b chunk plen cidx with
  | zero => omega
  | succ fuel ih =>
    rw [aeadDecryptLoop]
    by_cases hlen : chunk.len = 0
    · rw [if_pos hlen]
      exact ⟨h, by simp only; omega, by simp only; omega, rfl, rfl⟩
    obtain ⟨r, hr, hspec⟩ := aead_chunk_decrypt_spec hL.toSized h.cipher.tag_len hc hp
    rw [if_neg hlen, hr, C.ok_bind]
    generalize hnext : aeadNext L ctx.cipher.method ctx.skey ctx.cipher.tag_len ctx.nonce
      (chunk.data.read (chunk.idx + cidx) chunk.len) = next at hspec
    cases hspec with
    | more plen' =>
      simp only
      split
      · exact ⟨h, by simp only; omega, by simp only; omega, rfl, rfl⟩
      · exact ⟨h, by simp only; omega, by simp only; omega, rfl, rfl⟩
    | fail plen' nonce => exact ⟨⟨h.cipher, h.salt, h.chunk⟩, by simp only; omega, by simp only; omega, rfl, rfl⟩
    | item m s' hm =>
      have hle := (aeadNext_item hnext).2.1
      rw [Block.length_read] at hle
      simp only
      -- the next round has one chunk less before it and its plaintext written
      refine ih ⟨h.cipher, h.salt, h.chunk⟩ ?_ ?_ ?_
      · simp only
        omega
      · simp only
        omega
      · simp only
        omega

theorem aeadDecryptChunks_within (hL : L.Lengths) (h : ctx.Fits) (hb : b.Hands capacity)
    (hck : chunk.idx + chunk.len ≤ chunk.capacity) (hlen : chunk.len ≤ b.capacity) (g : CryptoState) :
    C.Within (aeadDecryptChunks L g b ctx chunk) fun r => r.2.1.Hands capacity ∧ r.2.2.1.Fits := by
  rw [aeadDecryptChunks]
  refine (aeadDecryptLoop_within hL h (Nat.lt_succ_self _) (by omega) (by omega)).bind ?_
  rintro ⟨ret, ct, ck, ctx', plen⟩ ⟨h', hck', hplen, hct, hcap⟩
  simp only at h' hck' hplen hct hcap
  have hroom := hb.room
  have hhands : ct.Hands capacity := ⟨by rw [hcap]; exact hb.room, by rw [hct, hcap]; exact hb.fits⟩
  have hout : ({ ct with len := plen } : Buffer).Hands capacity := ⟨hhands.room, by simp only; omega⟩
  have hreset : (if ck.len = 0 then { ck with idx := 0 } else ck).idx +
      (if ck.len = 0 then { ck with idx := 0 } else ck).len ≤
        (if ck.len = 0 then { ck with idx := 0 } else ck).capacity := by
    split
    · simp only
      omega
    · exact hck'
  rcases ret with _ | ret
  · simp only
    split
    · split
      · exact ⟨hout, h'.with_chunk hreset⟩
      · exact ⟨hout, (h'.with_chunk hreset).with_init 2⟩
    · exact ⟨hout, h'.with_chunk hreset⟩
  · exact ⟨hhands, h'.with_chunk hck'⟩

theorem aead_decrypt_within (hL : L.Lengths) (h : ctx.Fits) (hb : b.Hands capacity) (g : CryptoState) :
    C.Within (aead_decrypt L g b ctx capacity) fun r => r.2.1.Hands capacity ∧ r.2.2.1.Fits := by
  rw [aead_decrypt]
  refine (aeadDecryptFill_within hb (ctx.chunk_getD L h.chunk capacity).1).bind ?_
  rintro ⟨ct, ck⟩ ⟨hct, hck, hlen⟩
  simp only at hct hck hlen
  by_cases hinit : ctx.init = 0
  · simp only [hinit, ↓reduceIte]
    by_cases hle : ck.len ≤ ctx.cipher.key_len
    · rw [if_pos hle]
      exact ⟨hct, (h.with_chunk hck).with_init 0⟩
    rw [if_neg hle, Buffer.get_ok (by omega), C.ok_bind]
    have hsalted : AeadCtx.Fits { ctx with init := 0, salt := ck.data.read ck.idx ctx.cipher.key_len } :=
      ⟨h.cipher, Block.length_read .., h.chunk⟩
    split
    · exact ⟨hct, hsalted.with_chunk hck⟩
    refine (aead_cipher_ctx_set_key_within hsalted).bind ?_
    rintro ctx' ⟨hctx', -⟩
    refine aeadDecryptChunks_within hL (hctx'.with_init 1) hct ?_ ?_ g
    · simp only
      omega
    · simp only
      omega
  · simp only [hinit, ↓reduceIte]
    exact aeadDecryptChunks_within hL h hct hck hlen g

/-! ### Datagrams -/

theorem aead_encrypt_all_within (hL : L.Lengths) {cipher : Cipher AeadMethod} (hs : cipher.Supported) {salt : Bytes}
    (hsalt : salt.length = cipher.key_len) (hb : b.Hands capacity) (g : CryptoStatics) :
    C.Within (aead_encrypt_all L g salt b cipher capacity) fun r => r.2.1.Hands capacity := by
  have hsize := brealloc_room g.aead_encrypt_all_tmp (cipher.key_len + cipher.tag_len + b.len) capacity
  have hfits := hb.fits
  rw [aead_encrypt_all]
  simp only
  rw [Buffer.put_ok (by simp only [aead_ctx_init, Option.getD_some, hsalt]; omega), C.ok_bind,
    aead_cipher_ctx_set_key_eq (by have := hs.key_len; simp only [aead_ctx_init]; omega), C.ok_bind,
    Buffer.get_ok (by omega), C.ok_bind]
  simp only [aead_cipher_encrypt]
  split
  · exact hb
  · rename_i e ctx' he
    have hlen : e.length = b.len + cipher.tag_len := by
      rw [hL.encrypt_length (congrArg Prod.fst he), Block.length_read, hs.tag_len]
      rfl
    rw [Buffer.put_ok (by simp only; omega), C.ok_bind]
    simp only
    rw [cassert_ok (by omega), C.ok_bind]
    exact ⟨hsize.2.2, by simp only [bswap_data]; omega⟩

theorem aead_decrypt_all_within (hL : L.Lengths) {cipher : Cipher AeadMethod} (hs : cipher.Supported)
    (hb : b.Hands capacity) (g : CryptoState) :
    C.Within (aead_decrypt_all L g b cipher capacity) fun r => r.2.1.Hands capacity ∧ r.2.1.len ≤ b.len := by
  have hsize := brealloc_room g.aead_decrypt_all_tmp b.len capacity
  have hfits := hb.fits
  rw [aead_decrypt_all]
  by_cases hle : b.len ≤ cipher.key_len + cipher.tag_len
  · simp only [hle, ↓reduceIte]
    exact ⟨hb, Nat.le_refl _⟩
  simp only [hle, ↓reduceIte]
  rw [Buffer.get_ok (by omega), C.ok_bind]
  split
  · exact ⟨hb, Nat.le_refl _⟩
  rw [aead_cipher_ctx_set_key_eq (by have := hs.key_len; simp only [aead_ctx_init]; omega), C.ok_bind,
    Buffer.get_ok (by omega), C.ok_bind]
  split
  · exact ⟨hb, Nat.le_refl _⟩
  · rename_i m hm
    have hlen : b.len - cipher.key_len = m.length + cipher.tag_len := by
      have hm' := hL.decrypt_length hm
      rw [Block.length_read] at hm'
      rw [hs.tag_len]
      exact hm'
    rw [Buffer.put_ok (by simp only; omega), C.ok_bind]
    refine ⟨⟨hsize.2.2, ?_⟩, ?_⟩
    · simp only [bswap_data]
      omega
    · simp only [bswap_data]
      omega

end

end OutlineServer
