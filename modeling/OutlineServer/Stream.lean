import OutlineServer.Crypto

/-!
# The stream ciphers (`stream.c`)

The TCP functions `stream_encrypt` and `stream_decrypt` and the datagram functions `stream_encrypt_all` and
`stream_decrypt_all`, with the filter of initialization vectors that they share with the AEAD ciphers.
-/

namespace OutlineServer

/-- The context of a stream cipher, with the fields of `cipher_ctx_t` that only those use. -/
structure StreamCtx extends CipherCtx StreamMethod where
  counter : Nat
  evp : Option CipherEvp

def SODIUM_BLOCK_SIZE : Nat := 64

def StreamMethod.code (m : StreamMethod) : Nat := m.ctorIdx

def supported_stream_ciphers_nonce_size (m : StreamMethod) : Nat :=
  [0, 0, 16, 16, 16, 16, 16, 16, 16, 8, 16, 16, 16, 8, 8, 8, 8, 16, 8, 8, 12].getD m.code 0

def supported_stream_ciphers_key_size (m : StreamMethod) : Nat :=
  [0, 16, 16, 16, 24, 32, 16, 24, 32, 16, 16, 24, 32, 16, 8, 16, 16, 16, 32, 32, 32].getD m.code 0

/-- `stream_key_init` for a key of the method's size. -/
def stream_key_init (method : StreamMethod) (key : Bytes) : Cipher StreamMethod where
  method
  nonce_len := supported_stream_ciphers_nonce_size method
  key_len := supported_stream_ciphers_key_size method
  tag_len := 0
  key

section
variable (L : CryptoLib)

/-- `stream_get_cipher_type` of a method that has one: the names that mbed TLS does not know are those of
`CAST5_CFB` up to `SEED_CFB`. -/
def stream_get_cipher_type (method : StreamMethod) : Bool :=
  let method := if method = .RC4_MD5 then .RC4 else method
  !(StreamMethod.CAST5_CFB.code ≤ method.code ∧ method.code ≤ StreamMethod.SEED_CFB.code) && L.cipher_info method

/-- `crypto_stream_xor_ic`; the block counter of `CHACHA20IETF` has 32 bits. -/
def crypto_stream_xor_ic (m : Bytes) (n : Bytes) (ic : Nat) (k : Bytes) (method : StreamMethod) : Bytes :=
  L.stream_xor_ic method k n (if method = .CHACHA20IETF then ic % 2 ^ 32 else ic) m

def stream_ctx_init (cipher : Cipher StreamMethod) (enc : Bool) (nonce : Bytes) : C StreamCtx :=
  let ctx : StreamCtx := {
    init := 0, cipher, chunk := none, salt := [], skey := [], sealed := [], counter := 0, evp := none
    nonce := if enc then nonce else LeCounter.zero cipher.nonce_len }
  if cipher.method = .TABLE ∨ StreamMethod.SALSA20.code ≤ cipher.method.code then .ok ctx
  else if stream_get_cipher_type L cipher.method then .ok { ctx with evp := some ⟨enc, [], [], []⟩ }
  else .error .fatal

def cipher_ctx_set_nonce (ctx : StreamCtx) (nonce : Bytes) (enc : Bool) : C StreamCtx :=
  if StreamMethod.SALSA20.code ≤ ctx.cipher.method.code then .ok ctx
  else
    let (true_key, iv) :=
      if ctx.cipher.method = .RC4_MD5 then (L.md5 (ctx.cipher.key.take 16 ++ nonce.take 16), [])
      else (ctx.cipher.key, nonce)
    if ctx.evp = none then .ok ctx
    else if L.cipher_setup ctx.cipher.method true_key iv then .ok { ctx with evp := some ⟨enc, true_key, iv, []⟩ }
    else .error .fatal

/-- `cipher_ctx_update`; without an mbed TLS context it gives an error. -/
def cipher_ctx_update (ctx : StreamCtx) (input : Bytes) : Option Bytes × StreamCtx :=
  match ctx.evp with
  | none => (none, ctx)
  | some evp =>
    (L.cipher_update ctx.cipher.method evp input, { ctx with evp := some { evp with input := evp.input ++ input } })

/-- `stream_encrypt_all`; `nonce` is what `rand_bytes` gives. -/
def stream_encrypt_all (g : CryptoStatics) (nonce : Bytes) (plaintext : Buffer) (cipher : Cipher StreamMethod)
    (capacity : Nat) : C (CryptoRet × Buffer × CryptoStatics) := do
  let ctx ← stream_ctx_init L cipher true nonce
  let nonce_len := cipher.nonce_len
  let ciphertext := { brealloc g.stream_encrypt_all_tmp (nonce_len + plaintext.len) capacity with len := plaintext.len }
  let ctx ← cipher_ctx_set_nonce L ctx ctx.nonce true
  let ciphertext ← ciphertext.put 0 ctx.nonce
  let bloom := ppbloom_add L.murmurhash2 g.bloom ctx.nonce
  let input ← plaintext.get 0 plaintext.len
  let out := if StreamMethod.SALSA20.code ≤ cipher.method.code then
      some (crypto_stream_xor_ic L input ctx.nonce 0 cipher.key cipher.method)
    else (cipher_ctx_update L ctx input).1
  match out with
  | none => return (.CRYPTO_ERROR, plaintext, { g with bloom, stream_encrypt_all_tmp := ciphertext })
  | some out =>
    let ciphertext ← ciphertext.put nonce_len out
    let ciphertext := if StreamMethod.SALSA20.code ≤ cipher.method.code then ciphertext
      else { ciphertext with len := out.length }
    let (plaintext, ciphertext) := bswap_data plaintext ciphertext
    return (.CRYPTO_OK, { plaintext with len := nonce_len + ciphertext.len },
      { g with bloom, stream_encrypt_all_tmp := ciphertext })

/-- The in-place branch of `stream_encrypt`. -/
def streamEncryptInPlace (g : CryptoStatics) (plaintext : Buffer) (ctx : StreamCtx) :
    C (CryptoRet × Buffer × StreamCtx × CryptoStatics) := do
  let input ← plaintext.get 0 plaintext.len
  match cipher_ctx_update L ctx input with
  | (none, ctx) => return (.CRYPTO_ERROR, plaintext, ctx, g)
  | (some out, ctx) =>
    let plaintext ← plaintext.put 0 out
    return (.CRYPTO_OK, { plaintext with len := out.length }, ctx, g)

/-- The libsodium ciphers of `stream_encrypt`: the padding goes to `tmp` too, behind the IV, and is overwritten by
what follows it. -/
def streamEncryptXor (plaintext ciphertext : Buffer) (ctx : StreamCtx) (nonce_len capacity : Nat) :
    C (Buffer × Buffer × StreamCtx) := do
  let padding := ctx.counter % SODIUM_BLOCK_SIZE
  let ciphertext := brealloc ciphertext (nonce_len + (padding + ciphertext.len) * 2) capacity
  let input ← plaintext.get 0 plaintext.len
  let plaintext ← (if padding = 0 then plaintext else brealloc plaintext (plaintext.len + padding) capacity).put 0
    (List.replicate padding 0 ++ input)
  let out := crypto_stream_xor_ic L (List.replicate padding 0 ++ input) ctx.nonce (ctx.counter / SODIUM_BLOCK_SIZE)
    ctx.cipher.key ctx.cipher.method
  let ciphertext ← ciphertext.put nonce_len out
  let moved ← ciphertext.get (nonce_len + padding) ciphertext.len
  let ciphertext ← ciphertext.put nonce_len moved
  return (plaintext, ciphertext, { ctx with counter := (ctx.counter + plaintext.len) % 2 ^ 64 })

/-- The end of `stream_encrypt`; `ciphertext` is `tmp`. -/
def streamEncryptDone (g : CryptoStatics) (plaintext ciphertext : Buffer) (ctx : StreamCtx) (nonce_len : Nat) :
    CryptoRet × Buffer × StreamCtx × CryptoStatics :=
  let (plaintext, ciphertext) := bswap_data plaintext ciphertext
  (.CRYPTO_OK, { plaintext with len := nonce_len + ciphertext.len }, ctx, { g with stream_encrypt_tmp := ciphertext })

/-- `stream_encrypt` from the point on where `tmp` starts with the IV, if this is the first call: `nonce_len`
bytes. -/
def streamEncryptRest (g : CryptoStatics) (plaintext ciphertext : Buffer) (ctx : StreamCtx) (nonce_len capacity : Nat) :
    C (CryptoRet × Buffer × StreamCtx × CryptoStatics) := do
  if StreamMethod.SALSA20.code ≤ ctx.cipher.method.code then
    let (plaintext, ciphertext, ctx) ← streamEncryptXor L plaintext ciphertext ctx nonce_len capacity
    return streamEncryptDone g plaintext ciphertext ctx nonce_len
  else
    let input ← plaintext.get 0 plaintext.len
    match cipher_ctx_update L ctx input with
    | (none, ctx) => return (.CRYPTO_ERROR, plaintext, ctx, { g with stream_encrypt_tmp := ciphertext })
    | (some out, ctx) =>
      let ciphertext ← ciphertext.put nonce_len out
      return streamEncryptDone g plaintext { ciphertext with len := out.length } ctx nonce_len

def stream_encrypt (g : CryptoStatics) (plaintext : Buffer) (ctx : StreamCtx) (capacity : Nat) :
    C (CryptoRet × Buffer × StreamCtx × CryptoStatics) := do
  if ctx.init ≠ 0 ∧ ctx.cipher.method.code < StreamMethod.SALSA20.code then
    streamEncryptInPlace L g plaintext ctx
  else
    let nonce_len := if ctx.init = 0 then ctx.cipher.nonce_len else 0
    let ciphertext := { brealloc g.stream_encrypt_tmp (nonce_len + plaintext.len) capacity with len := plaintext.len }
    if ctx.init ≠ 0 then streamEncryptRest L g plaintext ciphertext ctx nonce_len capacity
    else
      let ctx ← cipher_ctx_set_nonce L ctx ctx.nonce true
      let ciphertext ← ciphertext.put 0 ctx.nonce
      let bloom := ppbloom_add L.murmurhash2 g.bloom ctx.nonce
      streamEncryptRest L { g with bloom } plaintext ciphertext { ctx with counter := 0, init := 1 } nonce_len capacity

/-- What `stream_decrypt` does about the filter after it has decrypted something: `true` for a repeated IV. -/
def streamFilter (g : CryptoState) (ctx : StreamCtx) : Bool × StreamCtx × CryptoState :=
  if ctx.init = 1 ∧ StreamMethod.RC4_MD5.code ≤ ctx.cipher.method.code then
    if ppbloom_check L.murmurhash2 g.bloom ctx.nonce = 1 then (true, ctx, g)
    else (false, { ctx with init := 2 }, { g with bloom := ppbloom_add L.murmurhash2 g.bloom ctx.nonce })
  else (false, ctx, g)

/-- The in-place branch of `stream_decrypt`. -/
def streamDecryptInPlace (g : CryptoState) (ciphertext : Buffer) (ctx : StreamCtx) :
    C (CryptoRet × Buffer × StreamCtx × CryptoState) := do
  if ciphertext.len = 0 then
    return (.CRYPTO_NEED_MORE, ciphertext, ctx, g)
  let input ← ciphertext.get 0 ciphertext.len
  match cipher_ctx_update L ctx input with
  | (none, ctx) => return (.CRYPTO_ERROR, ciphertext, ctx, g)
  | (some out, ctx) =>
    let ciphertext ← ciphertext.put 0 out
    match streamFilter L g ctx with
    | (true, ctx, g) => return (.CRYPTO_ERROR, { ciphertext with len := out.length }, ctx, g)
    | (false, ctx, g) => return (.CRYPTO_OK, { ciphertext with len := out.length }, ctx, g)

/-- The libsodium ciphers start in the middle of a block: the input is padded at its front, and the padding
taken off the output. -/
def streamXor (ciphertext plaintext : Buffer) (ctx : StreamCtx) (capacity : Nat) : C (Buffer × Buffer × StreamCtx) := do
  let padding := ctx.counter % SODIUM_BLOCK_SIZE
  let plaintext := brealloc plaintext ((plaintext.len + padding) * 2) capacity
  let input ← ciphertext.get 0 ciphertext.len
  let ciphertext ← (if padding = 0 then ciphertext else brealloc ciphertext (ciphertext.len + padding) capacity).put 0
    (List.replicate padding 0 ++ input)
  let out := crypto_stream_xor_ic L (List.replicate padding 0 ++ input) ctx.nonce (ctx.counter / SODIUM_BLOCK_SIZE)
    ctx.cipher.key ctx.cipher.method
  let plaintext ← plaintext.put 0 out
  let moved ← plaintext.get padding plaintext.len
  let plaintext ← plaintext.put 0 moved
  return (ciphertext, plaintext, { ctx with counter := (ctx.counter + ciphertext.len) % 2 ^ 64 })

/-- The end of `stream_decrypt`; `plaintext` is `tmp`. -/
def streamDecryptDone (g : CryptoState) (ciphertext plaintext : Buffer) (ctx : StreamCtx) :
    CryptoRet × Buffer × StreamCtx × CryptoState :=
  match streamFilter L g ctx with
  | (true, ctx, g) => (.CRYPTO_ERROR, ciphertext, ctx, { g with stream_decrypt_tmp := plaintext })
  | (false, ctx, g) =>
    let (ciphertext, plaintext) := bswap_data ciphertext plaintext
    (.CRYPTO_OK, { ciphertext with len := plaintext.len }, ctx, { g with stream_decrypt_tmp := plaintext })

/-- `stream_decrypt` from the point on where the IV is known. -/
def streamDecryptRest (g : CryptoState) (ciphertext plaintext : Buffer) (ctx : StreamCtx) (capacity : Nat) :
    C (CryptoRet × Buffer × StreamCtx × CryptoState) := do
  if ciphertext.len = 0 then
    return (.CRYPTO_NEED_MORE, ciphertext, ctx, { g with stream_decrypt_tmp := plaintext })
  if StreamMethod.SALSA20.code ≤ ctx.cipher.method.code then
    let (ciphertext, plaintext, ctx) ← streamXor L ciphertext plaintext ctx capacity
    return streamDecryptDone L g ciphertext plaintext ctx
  else
    let input ← ciphertext.get 0 ciphertext.len
    match cipher_ctx_update L ctx input with
    | (none, ctx) => return (.CRYPTO_ERROR, ciphertext, ctx, { g with stream_decrypt_tmp := plaintext })
    | (some out, ctx) =>
      let plaintext ← plaintext.put 0 out
      return streamDecryptDone L g ciphertext { plaintext with len := out.length } ctx

/-- The part of the input that belongs to the IV goes to `chunk`. -/
def streamTakeIv (ciphertext chunk : Buffer) (nonce_len : Nat) : C (Buffer × Buffer) := do
  let left_len := min (nonce_len - chunk.len) ciphertext.len
  let iv ← ciphertext.get 0 left_len
  let chunk ← chunk.put chunk.len iv
  let rest ← ciphertext.get left_len (ciphertext.len - left_len)
  let ciphertext ← ciphertext.put 0 rest
  return ({ ciphertext with len := ciphertext.len - left_len }, { chunk with len := chunk.len + left_len })

def stream_decrypt (g : CryptoState) (ciphertext : Buffer) (ctx : StreamCtx) (capacity : Nat) :
    C (CryptoRet × Buffer × StreamCtx × CryptoState) := do
  if ctx.init ≠ 0 ∧ ctx.cipher.method.code < StreamMethod.SALSA20.code then
    streamDecryptInPlace L g ciphertext ctx
  else
    let plaintext := { brealloc g.stream_decrypt_tmp ciphertext.len capacity with len := ciphertext.len }
    if ctx.init ≠ 0 then streamDecryptRest L g ciphertext plaintext ctx capacity
    else
      let nonce_len := ctx.cipher.nonce_len
      let (ciphertext, chunk) ← streamTakeIv ciphertext (ctx.chunk.getD (balloc L.malloc nonce_len)) nonce_len
      if chunk.len < nonce_len then
        return (.CRYPTO_NEED_MORE, ciphertext, { ctx with chunk := some chunk },
          { g with stream_decrypt_tmp := plaintext })
      let plaintext := { plaintext with len := ciphertext.len }
      let nonce ← chunk.get 0 nonce_len
      let ctx ← cipher_ctx_set_nonce L { ctx with chunk := some chunk, nonce } nonce false
      let ctx := { ctx with counter := 0, init := 1 }
      if StreamMethod.RC4_MD5.code ≤ ctx.cipher.method.code ∧ ppbloom_check L.murmurhash2 g.bloom nonce = 1 then
        return (.CRYPTO_ERROR, ciphertext, ctx, { g with stream_decrypt_tmp := plaintext })
      streamDecryptRest L g ciphertext plaintext ctx capacity

def stream_decrypt_all (g : CryptoState) (ciphertext : Buffer) (cipher : Cipher StreamMethod) (capacity : Nat) :
    C (CryptoRet × Buffer × CryptoState) := do
  let nonce_len := cipher.nonce_len
  if ciphertext.len ≤ nonce_len then
    return (.CRYPTO_ERROR, ciphertext, g)
  let ctx ← stream_ctx_init L cipher false []
  let plaintext := { brealloc g.stream_decrypt_all_tmp ciphertext.len capacity with len := ciphertext.len - nonce_len }
  let nonce ← ciphertext.get 0 nonce_len
  if ppbloom_check L.murmurhash2 g.bloom nonce = 1 then
    return (.CRYPTO_ERROR, ciphertext, { g with stream_decrypt_all_tmp := plaintext })
  let ctx ← cipher_ctx_set_nonce L { ctx with nonce } nonce false
  let input ← ciphertext.get nonce_len (ciphertext.len - nonce_len)
  let out := if StreamMethod.SALSA20.code ≤ cipher.method.code then
      some (crypto_stream_xor_ic L input nonce 0 cipher.key cipher.method)
    else (cipher_ctx_update L ctx input).1
  match out with
  | none => return (.CRYPTO_ERROR, ciphertext, { g with stream_decrypt_all_tmp := plaintext })
  | some out =>
    let plaintext ← plaintext.put 0 out
    let g := { g with bloom := ppbloom_add L.murmurhash2 g.bloom nonce }
    let plaintext := if StreamMethod.SALSA20.code ≤ cipher.method.code then plaintext
      else { plaintext with len := out.length }
    let (ciphertext, plaintext) := bswap_data ciphertext plaintext
    return (.CRYPTO_OK, { ciphertext with len := plaintext.len }, { g with stream_decrypt_all_tmp := plaintext })

end

end OutlineServer
