import OutlineServer.Lib.Block
import OutlineServer.Lib.LeCounter
import OutlineServer.PPBloom

/-!
# Buffers, contexts and key derivation (`crypto.h`, `crypto.c`)

The code under `Except Fault`: a read or write outside a buffer's allocation, an `assert` that does not
hold, a `FATAL` and a loop that does not end are faults. mbed TLS and libsodium are the parameter
`CryptoLib`. A buffer's bytes beyond what has been written are whatever its block holds, so that
`realloc` only has to raise the capacity.
-/

namespace OutlineServer

inductive Fault
  | bounds
  | assertion
  | fatal
  | diverges
deriving DecidableEq

/-- What a function of the C code gives: a result or undefined behaviour. -/
abbrev C := Except Fault

@[simp] theorem C.ok_bind {α β : Type} (a : α) (f : α → C β) : ((.ok a : C α) >>= f) = f a := rfl

theorem C.bind_eq_ok {α β : Type} {x : C α} {f : α → C β} {b : β} (h : (x >>= f) = .ok b) :
    ∃ a, x = .ok a ∧ f a = .ok b := by
  rcases x with _ | a
  · cases h
  · exact ⟨a, rfl, h⟩

def cassert (p : Prop) [Decidable p] : C Unit := if p then .ok () else .error .assertion

inductive CryptoRet
  | CRYPTO_ERROR
  | CRYPTO_NEED_MORE
  | CRYPTO_OK
deriving DecidableEq

def SOCKET_BUF_SIZE : Nat := 16 * 1024 - 1

/-! ### `buffer_t` -/

structure Buffer where
  idx : Nat
  len : Nat
  capacity : Nat
  data : Block

def Buffer.static : Buffer := ⟨0, 0, 0, fun _ => 0⟩

def Buffer.put (b : Buffer) (off : Nat) (bs : Bytes) : C Buffer :=
  if off + bs.length ≤ b.capacity then .ok { b with data := b.data.write off bs } else .error .bounds

def Buffer.get (b : Buffer) (off n : Nat) : C Bytes :=
  if off + n ≤ b.capacity then .ok (b.data.read off n) else .error .bounds

/-- `balloc`; `junk` is what the allocated memory holds. -/
def balloc (junk : Block) (capacity : Nat) : Buffer := ⟨0, 0, capacity, junk⟩

def brealloc (ptr : Buffer) (len capacity : Nat) : Buffer :=
  let real_capacity := max len capacity
  if ptr.capacity < real_capacity then { ptr with capacity := real_capacity } else ptr

def bswap_data (a b : Buffer) : Buffer × Buffer :=
  ({ a with data := b.data, capacity := b.capacity }, { b with data := a.data, capacity := a.capacity })

section
variable {b : Buffer} {off n len capacity : Nat} {bs : Bytes} {p : Prop} [Decidable p]

theorem cassert_ok (h : p) : cassert p = .ok () := if_pos h

theorem of_cassert {u : Unit} (h : cassert p = .ok u) : p := by
  by_contra hp
  rw [cassert, if_neg hp] at h
  cases h

theorem Buffer.of_put {b' : Buffer} (h : b.put off bs = .ok b') :
    off + bs.length ≤ b.capacity ∧ b' = { b with data := b.data.write off bs } := by
  rw [Buffer.put] at h
  split at h
  · cases h
    exact ⟨‹_›, rfl⟩
  · cases h

theorem Buffer.of_get {m : Bytes} (h : b.get off n = .ok m) :
    off + n ≤ b.capacity ∧ m = b.data.read off n := by
  rw [Buffer.get] at h
  split at h
  · cases h
    exact ⟨‹_›, rfl⟩
  · cases h

theorem Buffer.put_ok (h : off + bs.length ≤ b.capacity) :
    b.put off bs = .ok { b with data := b.data.write off bs } := if_pos h

theorem Buffer.get_ok (h : off + n ≤ b.capacity) : b.get off n = .ok (b.data.read off n) := if_pos h

theorem brealloc_eq (b : Buffer) (len capacity : Nat) :
    ∃ c, brealloc b len capacity = { b with capacity := c } ∧ b.capacity ≤ c ∧ len ≤ c := by
  simp only [brealloc]
  split
  · exact ⟨_, rfl, by omega, by omega⟩
  · exact ⟨b.capacity, rfl, by omega, by omega⟩

end

/-- The bytes that a buffer holds, from its start. -/
def Buffer.bytes (b : Buffer) : Bytes := b.data.read 0 b.len

/-- The bytes that a buffer holds, from its index. -/
def Buffer.pending (b : Buffer) : Bytes := b.data.read b.idx b.len

@[simp] theorem Buffer.length_bytes (b : Buffer) : b.bytes.length = b.len := b.data.length_read _ _

@[simp] theorem Buffer.length_pending (b : Buffer) : b.pending.length = b.len := b.data.length_read _ _

/-! ### Ciphers and contexts -/

structure Cipher (M : Type) where
  method : M
  nonce_len : Nat
  key_len : Nat
  tag_len : Nat
  key : Bytes

/-- `cipher_ctx_t`. The keyed states `evp` and `aes256gcm_ctx` of the AEAD ciphers are functions of
`skey`, from which `aead_cipher_ctx_set_key` sets them. `sealed` is a history variable: the subkey, the
nonce and the plaintext of every AEAD encryption made in the context. -/
structure CipherCtx (M : Type) where
  init : Nat
  cipher : Cipher M
  chunk : Option Buffer
  salt : Bytes
  skey : Bytes
  nonce : Bytes
  sealed : List (Bytes × Bytes × Bytes)

inductive AeadMethod
  | AES128GCM
  | AES192GCM
  | AES256GCM
  | CHACHA20POLY1305IETF
  | XCHACHA20POLY1305IETF
deriving DecidableEq

inductive StreamMethod
  | TABLE
  | RC4
  | RC4_MD5
  | AES_128_CFB
  | AES_192_CFB
  | AES_256_CFB
  | AES_128_CTR
  | AES_192_CTR
  | AES_256_CTR
  | BF_CFB
  | CAMELLIA_128_CFB
  | CAMELLIA_192_CFB
  | CAMELLIA_256_CFB
  | CAST5_CFB
  | DES_CFB
  | IDEA_CFB
  | RC2_CFB
  | SEED_CFB
  | SALSA20
  | CHACHA20
  | CHACHA20IETF
deriving DecidableEq

/-- An mbed TLS stream cipher context: its direction, key and IV, and what has gone through it since. -/
structure CipherEvp where
  enc : Bool
  key : Bytes
  iv : Bytes
  input : Bytes

/-- The libraries: HMAC-SHA1 and MD5, the AEAD ciphers (under subkey and nonce, without associated data; `none`
is an error code), mbed TLS's stream ciphers (which of them it has, whether they take a key and an IV, and the
next output) and libsodium's (with key, nonce and block counter), and the contents of memory that `malloc`
returns. -/
structure CryptoLib where
  hmac_sha1 : Bytes → Bytes → Bytes
  md5 : Bytes → Bytes
  aead_encrypt : AeadMethod → Bytes → Bytes → Bytes → Option Bytes
  aead_decrypt : AeadMethod → Bytes → Bytes → Bytes → Option Bytes
  cipher_info : StreamMethod → Bool
  cipher_setup : StreamMethod → Bytes → Bytes → Bool
  cipher_update : StreamMethod → CipherEvp → Bytes → Option Bytes
  stream_xor_ic : StreamMethod → Bytes → Bytes → Nat → Bytes → Bytes
  murmurhash2 : Murmur
  malloc : Block

structure CryptoState where
  aead_encrypt_tmp : Buffer
  aead_decrypt_all_tmp : Buffer
  stream_decrypt_tmp : Buffer
  stream_decrypt_all_tmp : Buffer
  bloom : PPBloom

/-- With the static buffers of the other functions that encrypt. -/
structure CryptoStatics extends CryptoState where
  aead_encrypt_all_tmp : Buffer
  stream_encrypt_tmp : Buffer
  stream_encrypt_all_tmp : Buffer

/-! ### HKDF -/

/-- The loop of `crypto_hkdf_expand` from `i` on, with `todo` rounds to go. -/
def hkdfLoop (hmac : Bytes → Bytes → Bytes) (hash_len okm_len N : Nat) (prk info : Bytes) :
    Nat → Nat → Bytes → Bytes → Bytes
  | 0, _, _, okm => okm
  | todo + 1, i, T, okm =>
    let T := hmac prk (T ++ info ++ [UInt8.ofNat i])
    hkdfLoop hmac hash_len okm_len N prk info todo (i + 1) T
      (okm ++ T.take (if i ≠ N then hash_len else okm_len - okm.length))

def crypto_hkdf_expand (hmac : Bytes → Bytes → Bytes) (hash_len : Nat) (prk info : Bytes) (okm_len : Nat) :
    Option Bytes :=
  let N := okm_len / hash_len + if okm_len % hash_len ≠ 0 then 1 else 0
  if 255 < N then none else some (hkdfLoop hmac hash_len okm_len N prk info N 1 [] [])

def crypto_hkdf_extract (hmac : Bytes → Bytes → Bytes) (salt ikm : Bytes) : Bytes := hmac salt ikm

/-- `crypto_hkdf` with SHA1, whose hashes have 20 bytes. -/
def crypto_hkdf (L : CryptoLib) (salt ikm info : Bytes) (okm_len : Nat) : Option Bytes :=
  crypto_hkdf_expand L.hmac_sha1 20 (crypto_hkdf_extract L.hmac_sha1 salt ikm) info okm_len

def sodium_increment (n : Bytes) : Bytes := LeCounter.incr n

/-! ### Calls in one context -/

section
variable {Ctx G : Type} (call : G → Buffer → Ctx → C (CryptoRet × Buffer × Ctx × G))

/-- What each call returned and left in its buffer. -/
def callsOf : G → Ctx → List Buffer → C (List (CryptoRet × Bytes) × Ctx × G)
  | g, ctx, [] => .ok ([], ctx, g)
  | g, ctx, b :: bs => do
    let (ret, b, ctx, g) ← call g b ctx
    let (rs, ctx, g) ← callsOf g ctx bs
    return ((ret, b.bytes) :: rs, ctx, g)

/-- The same, up to a call that returns `CRYPTO_ERROR`. -/
def callsUntilError : G → Ctx → List Buffer → C (List (CryptoRet × Bytes) × Ctx × G)
  | g, ctx, [] => .ok ([], ctx, g)
  | g, ctx, b :: bs => do
    let (ret, b, ctx, g) ← call g b ctx
    if ret = .CRYPTO_ERROR then return ([(ret, b.bytes)], ctx, g)
    let (rs, ctx, g) ← callsUntilError g ctx bs
    return ((ret, b.bytes) :: rs, ctx, g)

end

end OutlineServer
