import OutlineServer.Crypto

/-!
# The AEAD ciphers (`aead.c`)

The TCP functions `aead_encrypt` and `aead_decrypt` with their chunk functions, and the datagram
functions `aead_encrypt_all` and `aead_decrypt_all`. Each returns its code with the buffer, the context and
the static state that it leaves.
-/

namespace OutlineServer

abbrev AeadCtx := CipherCtx AeadMethod

def CHUNK_SIZE_LEN : Nat := 2
def CHUNK_SIZE_MASK : Nat := 0x3FFF
def SUBKEY_INFO : Bytes := [115, 115, 45, 115, 117, 98, 107, 101, 121]

def supported_aead_ciphers_nonce_size : AeadMethod → Nat
  | .XCHACHA20POLY1305IETF => 24
  | _ => 12

def supported_aead_ciphers_key_size : AeadMethod → Nat
  | .AES128GCM => 16
  | .AES192GCM => 24
  | _ => 32

def supported_aead_ciphers_tag_size : AeadMethod → Nat := fun _ => 16

/-- `aead_key_init` for a key of the method's size. -/
def aead_key_init (method : AeadMethod) (key : Bytes) : Cipher AeadMethod where
  method
  nonce_len := supported_aead_ciphers_nonce_size method
  key_len := supported_aead_ciphers_key_size method
  tag_len := supported_aead_ciphers_tag_size method
  key

/-- `aead_ctx_init`; `salt` is what `rand_bytes` gives an encrypting context. -/
def aead_ctx_init (cipher : Cipher AeadMethod) (salt : Option Bytes) : AeadCtx where
  init := 0
  cipher
  chunk := none
  salt := salt.getD (List.replicate cipher.key_len 0)
  skey := List.replicate cipher.key_len 0
  nonce := LeCounter.zero cipher.nonce_len
  sealed := []

def store16_be (n : Nat) : Bytes := [UInt8.ofNat (n / 256), UInt8.ofNat n]

def load16_be (bs : Bytes) : Nat := (bs.getD 0 0).toNat * 256 + (bs.getD 1 0).toNat

section
variable (L : CryptoLib)

def aead_cipher_encrypt (ctx : AeadCtx) (m : Bytes) : Option Bytes × AeadCtx :=
  (L.aead_encrypt ctx.cipher.method ctx.skey ctx.nonce m,
    { ctx with sealed := ctx.sealed ++ [(ctx.skey, ctx.nonce, m)] })

def aead_cipher_decrypt (ctx : AeadCtx) (m : Bytes) : Option Bytes :=
  L.aead_decrypt ctx.cipher.method ctx.skey ctx.nonce m

def aead_cipher_ctx_set_key (ctx : AeadCtx) : C AeadCtx :=
  match crypto_hkdf L ctx.salt ctx.cipher.key SUBKEY_INFO ctx.cipher.key_len with
  | none => .error .fatal
  | some skey => .ok { ctx with skey, nonce := LeCounter.zero ctx.cipher.nonce_len }

/-- `aead_chunk_encrypt` of the `plen` bytes of `p` into `c` from `off` on. -/
def aead_chunk_encrypt (ctx : AeadCtx) (p c : Buffer) (off plen : Nat) : C (CryptoRet × Buffer × AeadCtx) := do
  let tlen := ctx.cipher.tag_len
  cassert (plen ≤ CHUNK_SIZE_MASK)
  let len_buf := store16_be (plen &&& CHUNK_SIZE_MASK)
  match aead_cipher_encrypt L ctx len_buf with
  | (none, ctx) => return (.CRYPTO_ERROR, c, ctx)
  | (some e, ctx) =>
    let c ← c.put off e
    cassert (e.length = CHUNK_SIZE_LEN + tlen)
    let ctx := { ctx with nonce := sodium_increment ctx.nonce }
    let m ← p.get 0 plen
    match aead_cipher_encrypt L ctx m with
    | (none, ctx) => return (.CRYPTO_ERROR, c, ctx)
    | (some e, ctx) =>
      let c ← c.put (off + CHUNK_SIZE_LEN + tlen) e
      cassert (e.length = plen + tlen)
      return (.CRYPTO_OK, c, { ctx with nonce := sodium_increment ctx.nonce })

/-- What `aead_encrypt` does once `tmp` holds the salt, if it is the first call: `ofst` bytes. -/
def aeadEncryptChunk (g : CryptoState) (plaintext : Buffer) (ctx : AeadCtx) (ofst : Nat) :
    C (CryptoRet × Buffer × AeadCtx × CryptoState) := do
  -- the last argument of `aead_chunk_encrypt` is a `uint16_t`
  let (err, ciphertext, ctx) ←
    aead_chunk_encrypt L ctx plaintext g.aead_encrypt_tmp ofst (plaintext.len % 2 ^ 16)
  if err ≠ .CRYPTO_OK then
    return (err, plaintext, ctx, { g with aead_encrypt_tmp := ciphertext })
  let (plaintext, ciphertext) := bswap_data plaintext ciphertext
  return (.CRYPTO_OK, { plaintext with len := ciphertext.len }, ctx, { g with aead_encrypt_tmp := ciphertext })

def aead_encrypt (g : CryptoState) (plaintext : Buffer) (ctx : AeadCtx) (capacity : Nat) :
    C (CryptoRet × Buffer × AeadCtx × CryptoState) := do
  if plaintext.len = 0 then
    return (.CRYPTO_OK, plaintext, ctx, g)
  let salt_len := ctx.cipher.key_len
  let tag_len := ctx.cipher.tag_len
  let salt_ofst := if ctx.init = 0 then salt_len else 0
  let out_len := salt_ofst + 2 * tag_len + plaintext.len + CHUNK_SIZE_LEN
  let tmp := { brealloc g.aead_encrypt_tmp out_len capacity with len := out_len }
  if ctx.init = 0 then
    let tmp ← tmp.put 0 ctx.salt
    let ctx ← aead_cipher_ctx_set_key L ctx
    aeadEncryptChunk L
      { g with aead_encrypt_tmp := tmp, bloom := ppbloom_add L.murmurhash2 g.bloom ctx.salt }
      plaintext { ctx with init := 1 } salt_ofst
  else aeadEncryptChunk L { g with aead_encrypt_tmp := tmp } plaintext ctx salt_ofst

/-- What `aead_chunk_decrypt` leaves: its code, the plaintext buffer, the context, `*plen` and `*clen`. -/
structure ChunkResult where
  err : CryptoRet
  p : Buffer
  ctx : AeadCtx
  plen : Nat
  clen : Nat

/-- `aead_chunk_decrypt` of the `clen` bytes of `c` from `coff` on into `p` from `poff` on. -/
def aead_chunk_decrypt (ctx : AeadCtx) (p : Buffer) (poff : Nat) (c : Buffer) (coff clen : Nat) :
    C ChunkResult := do
  let tlen := ctx.cipher.tag_len
  if clen ≤ 2 * tlen + CHUNK_SIZE_LEN then
    return ⟨.CRYPTO_NEED_MORE, p, ctx, 0, clen⟩
  let e ← c.get coff (CHUNK_SIZE_LEN + tlen)
  match aead_cipher_decrypt L ctx e with
  | none => return ⟨.CRYPTO_ERROR, p, ctx, 0, clen⟩
  | some len_buf =>
    cassert (len_buf.length = CHUNK_SIZE_LEN)
    let mlen := load16_be len_buf &&& CHUNK_SIZE_MASK
    if mlen = 0 then
      return ⟨.CRYPTO_ERROR, p, ctx, len_buf.length, clen⟩
    let chunk_len := 2 * tlen + CHUNK_SIZE_LEN + mlen
    if clen < chunk_len then
      return ⟨.CRYPTO_NEED_MORE, p, ctx, len_buf.length, clen⟩
    let ctx := { ctx with nonce := sodium_increment ctx.nonce }
    let e ← c.get (coff + CHUNK_SIZE_LEN + tlen) (mlen + tlen)
    match aead_cipher_decrypt L ctx e with
    | none => return ⟨.CRYPTO_ERROR, p, ctx, len_buf.length, clen⟩
    | some m =>
      let p ← p.put poff m
      cassert (m.length = mlen)
      return ⟨.CRYPTO_OK, p, { ctx with nonce := sodium_increment ctx.nonce }, mlen, clen - chunk_len⟩

/-- How the loop of `aead_decrypt` ends: with a `return`, or past the loop with `plen`. -/
structure LoopResult where
  ret : Option CryptoRet
  ciphertext : Buffer
  chunk : Buffer
  ctx : AeadCtx
  plen : Nat

/-- The loop of `aead_decrypt`, for at most `fuel` rounds. -/
def aeadDecryptLoop : Nat → AeadCtx → Buffer → Buffer → Nat → Nat → C LoopResult
  | 0, _, _, _, _, _ => .error .diverges
  | fuel + 1, ctx, ciphertext, chunk, plen, cidx => do
    if chunk.len = 0 then
      return ⟨none, ciphertext, chunk, ctx, plen⟩
    let r ← aead_chunk_decrypt L ctx ciphertext plen chunk (chunk.idx + cidx) chunk.len
    match r.err with
    | .CRYPTO_ERROR => return ⟨some .CRYPTO_ERROR, r.p, chunk, r.ctx, plen⟩
    | .CRYPTO_NEED_MORE =>
      if plen = 0 then
        return ⟨some .CRYPTO_NEED_MORE, r.p, chunk, r.ctx, plen⟩
      return ⟨none, r.p, { chunk with idx := chunk.idx + cidx }, r.ctx, plen⟩
    | .CRYPTO_OK =>
      aeadDecryptLoop fuel r.ctx r.p { chunk with len := r.clen } (plen + r.plen)
        (cidx + (r.ctx.cipher.tag_len * 2 + CHUNK_SIZE_LEN + r.plen))

/-- `aead_decrypt` from its loop on, in a context that has its key. -/
def aeadDecryptChunks (g : CryptoState) (ciphertext : Buffer) (ctx : AeadCtx) (chunk : Buffer) :
    C (CryptoRet × Buffer × AeadCtx × CryptoState) := do
  let r ← aeadDecryptLoop L (chunk.len + 1) ctx ciphertext chunk 0 0
  match r.ret with
  | some ret => return (ret, r.ciphertext, { r.ctx with chunk := some r.chunk }, g)
  | none =>
    let chunk := if r.chunk.len = 0 then { r.chunk with idx := 0 } else r.chunk
    let ciphertext := { r.ciphertext with len := r.plen }
    let ctx : AeadCtx := { r.ctx with chunk := some chunk }
    if ctx.init = 1 then
      if ppbloom_check L.murmurhash2 g.bloom ctx.salt = 1 then
        return (.CRYPTO_ERROR, ciphertext, ctx, g)
      return (.CRYPTO_OK, ciphertext, { ctx with init := 2 },
        { g with bloom := ppbloom_add L.murmurhash2 g.bloom ctx.salt })
    return (.CRYPTO_OK, ciphertext, ctx, g)

/-- `memmove` of the carried-over bytes to the start of `chunk`. -/
def aeadDecryptMove (chunk : Buffer) : C Buffer :=
  if 0 < chunk.idx then do
    let moved ← chunk.get chunk.idx chunk.len
    let chunk ← chunk.put 0 moved
    return { chunk with idx := 0 }
  else .ok chunk

/-- The head of `aead_decrypt`: the input is moved or appended to the carried-over bytes, and its buffer
made ready for the plaintext. -/
def aeadDecryptFill (ciphertext chunk : Buffer) (capacity : Nat) : C (Buffer × Buffer) := do
  if chunk.len = 0 then
    let len := ciphertext.len
    let (chunk, ciphertext) := bswap_data chunk ciphertext
    return (brealloc { ciphertext with len := 0 } len capacity, { chunk with len, idx := 0 })
  else
    let chunk ← aeadDecryptMove chunk
    let chunk := brealloc chunk (chunk.len + ciphertext.len) capacity
    let input ← ciphertext.get 0 ciphertext.len
    let chunk ← chunk.put chunk.len input
    let chunk := { chunk with len := chunk.len + ciphertext.len }
    return (brealloc ciphertext chunk.len capacity, chunk)

def aead_decrypt (g : CryptoState) (ciphertext : Buffer) (ctx : AeadCtx) (capacity : Nat) :
    C (CryptoRet × Buffer × AeadCtx × CryptoState) := do
  let salt_len := ctx.cipher.key_len
  let chunk := ctx.chunk.getD (balloc L.malloc capacity)
  let (ciphertext, chunk) ← aeadDecryptFill ciphertext chunk capacity
  if ctx.init = 0 then
    if chunk.len ≤ salt_len then
      return (.CRYPTO_NEED_MORE, ciphertext, { ctx with chunk := some chunk }, g)
    let salt ← chunk.get chunk.idx salt_len
    let ctx := { ctx with salt }
    if ppbloom_check L.murmurhash2 g.bloom salt = 1 then
      return (.CRYPTO_ERROR, ciphertext, { ctx with chunk := some chunk }, g)
    let ctx ← aead_cipher_ctx_set_key L ctx
    aeadDecryptChunks L g ciphertext { ctx with init := 1 }
      { chunk with idx := chunk.idx + salt_len, len := chunk.len - salt_len }
  else aeadDecryptChunks L g ciphertext ctx chunk

/-- `aead_encrypt_all`; `salt` is what `rand_bytes` gives. -/
def aead_encrypt_all (g : CryptoStatics) (salt : Bytes) (plaintext : Buffer) (cipher : Cipher AeadMethod)
    (capacity : Nat) : C (CryptoRet × Buffer × CryptoStatics) := do
  let ctx := aead_ctx_init cipher (some salt)
  let salt_len := cipher.key_len
  let tag_len := cipher.tag_len
  let ciphertext := { brealloc g.aead_encrypt_all_tmp (salt_len + tag_len + plaintext.len) capacity with
    len := tag_len + plaintext.len }
  let ciphertext ← ciphertext.put 0 ctx.salt
  let bloom := ppbloom_add L.murmurhash2 g.bloom ctx.salt
  let ctx ← aead_cipher_ctx_set_key L ctx
  let m ← plaintext.get 0 plaintext.len
  match aead_cipher_encrypt L ctx m with
  | (none, _) => return (.CRYPTO_ERROR, plaintext, { g with bloom, aead_encrypt_all_tmp := ciphertext })
  | (some e, _) =>
    let ciphertext ← ciphertext.put salt_len e
    cassert (ciphertext.len = e.length)
    let (plaintext, ciphertext) := bswap_data plaintext ciphertext
    return (.CRYPTO_OK, { plaintext with len := salt_len + ciphertext.len },
      { g with bloom, aead_encrypt_all_tmp := ciphertext })

def aead_decrypt_all (g : CryptoState) (ciphertext : Buffer) (cipher : Cipher AeadMethod) (capacity : Nat) :
    C (CryptoRet × Buffer × CryptoState) := do
  let salt_len := cipher.key_len
  let tag_len := cipher.tag_len
  if ciphertext.len ≤ salt_len + tag_len then
    return (.CRYPTO_ERROR, ciphertext, g)
  let plaintext := brealloc g.aead_decrypt_all_tmp ciphertext.len capacity
  let plaintext := { plaintext with len := ciphertext.len - salt_len - tag_len }
  let salt ← ciphertext.get 0 salt_len
  let ctx := { aead_ctx_init cipher none with salt }
  if ppbloom_check L.murmurhash2 g.bloom salt = 1 then
    return (.CRYPTO_ERROR, ciphertext, { g with aead_decrypt_all_tmp := plaintext })
  let ctx ← aead_cipher_ctx_set_key L ctx
  let e ← ciphertext.get salt_len (ciphertext.len - salt_len)
  match aead_cipher_decrypt L ctx e with
  | none => return (.CRYPTO_ERROR, ciphertext, { g with aead_decrypt_all_tmp := plaintext })
  | some m =>
    let plaintext ← plaintext.put 0 m
    let g := { g with bloom := ppbloom_add L.murmurhash2 g.bloom salt }
    let (ciphertext, plaintext) := bswap_data ciphertext plaintext
    return (.CRYPTO_OK, { ciphertext with len := plaintext.len }, { g with aead_decrypt_all_tmp := plaintext })

end

end OutlineServer
