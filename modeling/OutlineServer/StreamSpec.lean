import OutlineServer.AeadSender
import OutlineServer.Lib.Streaming
import OutlineServer.Stream
import Mathlib.Algebra.Group.Nat.Defs

/-!
# What a call of a stream cipher does

Both implementations give `scan (streamByte c iv enc) past` of their input in a context that is `Keyed` and
has processed `past`: mbed TLS keeps what it has seen, and the block counter of libsodium is the length of it.
-/

namespace OutlineServer
open Streaming

/-- mbed TLS's ciphers work byte by byte, and undo what they have encrypted; libsodium's xor the keystream `ks` to
the input, from the given block of 64 bytes on. -/
structure CryptoLib.Streams (L : CryptoLib) (byte : StreamMethod → Bool → Bytes → Bytes → Bytes → UInt8 → UInt8)
    (ks : StreamMethod → Bytes → Bytes → Nat → UInt8) : Prop where
  md5_length : ∀ x, (L.md5 x).length = 16
  setup : ∀ {M key iv}, stream_get_cipher_type L M = true → key.length = supported_stream_ciphers_key_size M →
    iv.length = (if M = .RC4_MD5 then 0 else supported_stream_ciphers_nonce_size M) → L.cipher_setup M key iv = true
  update : ∀ M (evp : CipherEvp) x, L.cipher_update M evp x = some (scan (byte M evp.enc evp.key evp.iv) evp.input x)
  inverts : ∀ M key iv, Inverts (byte M false key iv) (byte M true key iv)
  xor_ic : ∀ M key n ic x, L.stream_xor_ic M key n ic x = x.mapIdx fun i b =>
    b ^^^ ks M key n (SODIUM_BLOCK_SIZE * ic + i)

/-- The methods that `stream_key_init` makes a cipher of. -/
def stream_supported (L : CryptoLib) (M : StreamMethod) : Prop :=
  M ≠ .TABLE ∧ (StreamMethod.SALSA20.code ≤ M.code ∨ stream_get_cipher_type L M = true)

/-- The counters of libsodium's ciphers, in blocks and in bytes, do not wrap before `n` bytes. -/
def StreamMethod.Counts (M : StreamMethod) (n : Nat) : Prop :=
  StreamMethod.SALSA20.code ≤ M.code → n < if M = .CHACHA20IETF then 2 ^ 38 else 2 ^ 64

theorem StreamMethod.Counts.mono {M : StreamMethod} {m n : Nat} (h : M.Counts n) (hle : m ≤ n) : M.Counts m :=
  fun hS => Nat.lt_of_le_of_lt hle (h hS)

theorem StreamMethod.counts_of_lt {M : StreamMethod} {n : Nat} (h : n < 2 ^ 38) : M.Counts n := by
  intro _
  split <;> omega

section
variable (L : CryptoLib) (byte : StreamMethod → Bool → Bytes → Bytes → Bytes → UInt8 → UInt8)
  (ks : StreamMethod → Bytes → Bytes → Nat → UInt8) (c : Cipher StreamMethod) (iv : Bytes)

/-- The key and IV that `cipher_ctx_set_nonce` gives to mbed TLS. -/
def evpKey : Bytes × Bytes :=
  if c.method = .RC4_MD5 then (L.md5 (c.key.take 16 ++ iv.take 16), []) else (c.key, iv)

def streamByte (enc : Bool) : Bytes → UInt8 → UInt8 :=
  if StreamMethod.SALSA20.code ≤ c.method.code then pad fun i b => b ^^^ ks c.method c.key iv i
  else byte c.method enc (evpKey L c iv).1 (evpKey L c iv).2

/-- The bytes that a message is sent as, behind the IV. -/
def streamBytes (m : Bytes) : Bytes := scan (streamByte L byte ks c iv true) [] m

/-- A context before its IV has been set. -/
structure StreamCtx.Unkeyed (ctx : StreamCtx) : Prop where
  init : ctx.init = 0
  cipher : ctx.cipher = c
  evp : ctx.cipher.method.code < StreamMethod.SALSA20.code → ctx.evp ≠ none

structure StreamCtx.Keyed (enc : Bool) (past : Bytes) (ctx : StreamCtx) : Prop where
  cipher : ctx.cipher = c
  nonce : ctx.nonce = iv
  counter : StreamMethod.SALSA20.code ≤ c.method.code → ctx.counter = past.length
  evp : c.method.code < StreamMethod.SALSA20.code → ctx.evp = some ⟨enc, (evpKey L c iv).1, (evpKey L c iv).2, past⟩

end

section
variable {L : CryptoLib} {byte : StreamMethod → Bool → Bytes → Bytes → Bytes → UInt8 → UInt8}
  {ks : StreamMethod → Bytes → Bytes → Nat → UInt8} {M : StreamMethod} {key iv : Bytes} {enc : Bool} {past x : Bytes}
  {ctx : StreamCtx} {b : Buffer}

theorem inverts_streamByte (hL : L.Streams byte ks) (c : Cipher StreamMethod) (iv : Bytes) :
    Inverts (streamByte L byte ks c iv false) (streamByte L byte ks c iv true) := by
  simp only [streamByte]
  split
  · refine inverts_pad ?_
    intro i b
    rw [UInt8.xor_assoc, UInt8.xor_self, UInt8.xor_zero]
  · exact hL.inverts _ _ _

theorem scan_streamBytes (hL : L.Streams byte ks) (c : Cipher StreamMethod) (iv m : Bytes) :
    scan (streamByte L byte ks c iv false) [] (streamBytes L byte ks c iv m) = m :=
  (inverts_streamByte hL c iv).scan [] m

theorem stream_ctx_init_unkeyed (hM : stream_supported L M) (key : Bytes) (enc : Bool) (nonce : Bytes) :
    ∃ ctx, stream_ctx_init L (stream_key_init M key) enc nonce = .ok ctx ∧ ctx.Unkeyed (stream_key_init M key) ∧
      ctx.chunk = none ∧ (enc = true → ctx.nonce = nonce) := by
  obtain ⟨hT, hS | hS⟩ := hM
  · refine ⟨_, if_pos (.inr hS), ⟨rfl, rfl, ?_⟩, rfl, ?_⟩
    · intro hlt
      exact absurd hS (Nat.not_le.2 hlt)
    · rintro rfl
      rfl
  · by_cases hle : StreamMethod.SALSA20.code ≤ M.code
    · refine ⟨_, if_pos (.inr hle), ⟨rfl, rfl, ?_⟩, rfl, ?_⟩
      · intro hlt
        exact absurd hle (Nat.not_le.2 hlt)
      · rintro rfl
        rfl
    · refine ⟨_, (if_neg (not_or.2 ⟨hT, hle⟩)).trans (if_pos hS), ⟨rfl, rfl, fun _ => by simp⟩, rfl, ?_⟩
      rintro rfl
      rfl

/-- With its IV, a context is keyed as it starts. -/
theorem cipher_ctx_set_nonce_keyed (hL : L.Streams byte ks) (hM : stream_supported L M)
    (hkey : key.length = supported_stream_ciphers_key_size M) (hiv : iv.length = supported_stream_ciphers_nonce_size M)
    (h : ctx.Unkeyed (stream_key_init M key)) (hn : ctx.nonce = iv) (enc : Bool) :
    ∃ ctx', cipher_ctx_set_nonce L ctx iv enc = .ok ctx' ∧ ctx'.chunk = ctx.chunk ∧
      ∀ n, StreamCtx.Keyed L (stream_key_init M key) iv enc [] { ctx' with counter := 0, init := n } := by
  obtain ⟨-, hc, hevp⟩ := h
  by_cases hS : StreamMethod.SALSA20.code ≤ M.code
  · refine ⟨ctx, if_pos (by rw [hc]; exact hS), rfl, ?_⟩
    intro n
    exact ⟨hc, hn, fun _ => rfl, fun hlt => absurd hS (Nat.not_le.2 hlt)⟩
  have hlt : ctx.cipher.method.code < StreamMethod.SALSA20.code := by
    rw [hc]
    exact Nat.not_le.1 hS
  have hsetup : L.cipher_setup M (evpKey L (stream_key_init M key) iv).1 (evpKey L (stream_key_init M key) iv).2 =
    true := by
    refine hL.setup (hM.2.resolve_left hS) ?_ ?_
    all_goals by_cases hmd5 : M = .RC4_MD5
    · simp only [evpKey, stream_key_init, hmd5, ↓reduceIte]
      exact hL.md5_length _
    · simpa only [evpKey, stream_key_init, hmd5, ↓reduceIte] using hkey
    · simp only [evpKey, stream_key_init, hmd5, ↓reduceIte, List.length_nil]
    · simpa only [evpKey, stream_key_init, hmd5, ↓reduceIte] using hiv
  have hpair : (if ctx.cipher.method = .RC4_MD5 then (L.md5 (ctx.cipher.key.take 16 ++ iv.take 16), [])
      else (ctx.cipher.key, iv)) = evpKey L (stream_key_init M key) iv := by
    rw [hc]
    rfl
  refine ⟨{ ctx with
    evp := some ⟨enc, (evpKey L (stream_key_init M key) iv).1, (evpKey L (stream_key_init M key) iv).2, []⟩ },
    ?_, rfl, ?_⟩
  · simp only [cipher_ctx_set_nonce, Nat.not_le.2 hlt, ↓reduceIte, hpair, hevp hlt]
    rw [hc]
    exact if_pos hsetup
  · intro n
    exact ⟨hc, hn, fun hS' => absurd hS' hS, fun _ => rfl⟩

theorem Buffer.bytes_write (b : Buffer) (bs : Bytes) :
    ({ b with data := b.data.write 0 bs, len := bs.length } : Buffer).bytes = bs := Block.read_write_same _ _ _

/-! ### The two implementations -/

/-- With padding up to the position in its block, an input gets the keystream of its position. -/
theorem crypto_stream_xor_ic_pad (hL : L.Streams byte ks) {n : Nat} (c : Cipher StreamMethod) (hn : c.method.Counts n)
    (hpast : past.length = n) (m iv : Bytes) (hS : StreamMethod.SALSA20.code ≤ c.method.code) (enc : Bool) :
    (crypto_stream_xor_ic L (List.replicate (n % SODIUM_BLOCK_SIZE) 0 ++ m) iv (n / SODIUM_BLOCK_SIZE) c.key
      c.method).drop (n % SODIUM_BLOCK_SIZE) = scan (streamByte L byte ks c iv enc) past m := by
  have hic : (if c.method = .CHACHA20IETF then n / SODIUM_BLOCK_SIZE % 2 ^ 32 else n / SODIUM_BLOCK_SIZE) =
      n / SODIUM_BLOCK_SIZE := by
    split
    · have hlt := hn hS
      rw [if_pos ‹_›] at hlt
      refine Nat.mod_eq_of_lt ?_
      rw [SODIUM_BLOCK_SIZE]
      omega
    · rfl
  have hpos : ∀ i, SODIUM_BLOCK_SIZE * (n / SODIUM_BLOCK_SIZE) + (i + n % SODIUM_BLOCK_SIZE) = n + i := by
    intro i
    have := Nat.div_add_mod n SODIUM_BLOCK_SIZE
    omega
  rw [crypto_stream_xor_ic, hic, hL.xor_ic, List.mapIdx_append, List.drop_left' (by simp), List.length_replicate]
  simp only [hpos, streamByte, hS, ↓reduceIte, scan_pad, hpast]

theorem length_crypto_stream_xor_ic (hL : L.Streams byte ks) (m n k : Bytes) (ic : Nat) (M : StreamMethod) :
    (crypto_stream_xor_ic L m n ic k M).length = m.length := by
  rw [crypto_stream_xor_ic, hL.xor_ic, List.length_mapIdx]

theorem cipher_ctx_update_keyed (hL : L.Streams byte ks) {c : Cipher StreamMethod}
    (hS : ¬StreamMethod.SALSA20.code ≤ c.method.code) (h : ctx.Keyed L c iv enc past) (m : Bytes) :
    ∃ ctx', cipher_ctx_update L ctx m = (some (scan (streamByte L byte ks c iv enc) past m), ctx') ∧
      ctx'.Keyed L c iv enc (past ++ m) ∧ ctx'.init = ctx.init := by
  have hevp := h.evp (Nat.not_le.1 hS)
  simp only [cipher_ctx_update, hevp, hL.update, streamByte, hS, ↓reduceIte, h.cipher]
  exact ⟨_, rfl, ⟨h.cipher, h.nonce, fun hS' => absurd hS' hS, fun _ => rfl⟩, rfl⟩

theorem StreamCtx.Keyed.count {c : Cipher StreamMethod} (hS : StreamMethod.SALSA20.code ≤ c.method.code)
    (h : ctx.Keyed L c iv enc past) {m : Bytes} (hlen : c.method.Counts (past.length + m.length)) :
    StreamCtx.Keyed L c iv enc (past ++ m) { ctx with counter := (ctx.counter + m.length) % 2 ^ 64 } := by
  refine ⟨h.cipher, h.nonce, ?_, fun hlt => absurd hS (Nat.not_le.2 hlt)⟩
  intro _
  rw [List.length_append, ← h.counter hS, Nat.mod_eq_of_lt]
  rw [h.counter hS]
  have hlt := hlen hS
  split at hlt <;> omega

/-! ### Encryption -/

theorem streamEncryptXor_spec (hL : L.Streams byte ks) {c : Cipher StreamMethod}
    (hS : StreamMethod.SALSA20.code ≤ c.method.code) (h : ctx.Keyed L c iv enc past) {ct : Buffer}
    (hlen : c.method.Counts (past.length + b.len)) (hb : b.len ≤ b.capacity) (hct : ct.len = b.len)
    (off capacity : Nat) :
    ∃ b' ct', streamEncryptXor L b ct ctx off capacity =
        .ok (b', ct', { ctx with counter := (ctx.counter + b.bytes.length) % 2 ^ 64 }) ∧ ct'.len = b.len ∧
      ct'.data.read 0 (off + b.len) = ct.data.read 0 off ++ scan (streamByte L byte ks c iv enc) past b.bytes := by
  set padding := ctx.counter % SODIUM_BLOCK_SIZE with hpad
  have hcount := h.counter hS
  obtain ⟨n, hn, -, hroom⟩ := brealloc_eq ct (off + (padding + ct.len) * 2) capacity
  obtain ⟨n', hn', hle, hroom'⟩ := brealloc_eq b (b.len + padding) capacity
  have hinput : (List.replicate padding 0 ++ b.data.read 0 b.len).length = padding + b.len := by simp
  have hout := length_crypto_stream_xor_ic hL (List.replicate padding 0 ++ b.data.read 0 b.len) ctx.nonce
    ctx.cipher.key (ctx.counter / SODIUM_BLOCK_SIZE) ctx.cipher.method
  rw [hinput] at hout
  -- the plaintext makes room for the padding
  obtain ⟨b₁, hput, hb₁⟩ : ∃ b₁, (if padding = 0 then b else brealloc b (b.len + padding) capacity).put 0
      (List.replicate padding 0 ++ b.data.read 0 b.len) = .ok b₁ ∧ b₁.len = b.len := by
    by_cases h0 : padding = 0
    · rw [if_pos h0]
      exact ⟨_, Buffer.put_ok (by rw [hinput]; omega), rfl⟩
    · rw [if_neg h0, hn']
      exact ⟨_, Buffer.put_ok (by rw [hinput]; simp only; omega), rfl⟩
  simp only [streamEncryptXor, ← hpad, Buffer.get_ok (show 0 + b.len ≤ b.capacity by omega), C.ok_bind, hput, hn]
  rw [Buffer.put_ok (by rw [hout]; simp only; omega), C.ok_bind, Buffer.get_ok (by simp only; omega), C.ok_bind,
    Buffer.put_ok (by rw [Block.length_read]; simp only; omega), C.ok_bind, hb₁, Buffer.length_bytes]
  refine ⟨b₁, _, rfl, hct, ?_⟩
  simp only [hct]
  rw [Block.read_write_move _ _ _ _ _ hout, h.nonce, h.cipher, hpad, hcount]
  have := crypto_stream_xor_ic_pad hL c (hlen.mono (Nat.le_add_right _ _)) rfl b.bytes iv hS enc
  rw [← this]
  rfl

/-- What a keyed context makes of a buffer, behind the bytes that `tmp` starts with. -/
theorem streamEncryptRest_spec (hL : L.Streams byte ks) {c : Cipher StreamMethod} (h : ctx.Keyed L c iv true past)
    (ct : Buffer) (hlen : c.method.Counts (past.length + b.len)) (hb : b.len ≤ b.capacity) (hct : ct.len = b.len)
    (off : Nat) (hroom : off + b.len ≤ ct.capacity) (g : CryptoStatics) (capacity : Nat) :
    ∃ b' ctx' g', streamEncryptRest L g b ct ctx off capacity = .ok (.CRYPTO_OK, b', ctx', g') ∧
      b'.bytes = ct.data.read 0 off ++ scan (streamByte L byte ks c iv true) past b.bytes ∧
      ctx'.Keyed L c iv true (past ++ b.bytes) ∧ ctx'.init = ctx.init := by
  by_cases hS : StreamMethod.SALSA20.code ≤ c.method.code
  · obtain ⟨b₁, ct₁, hx, hlen₁, hread⟩ := streamEncryptXor_spec hL hS h hlen hb hct off capacity
    simp only [streamEncryptRest, h.cipher, hS, ↓reduceIte, hx, C.ok_bind]
    refine ⟨_, _, _, rfl, ?_, h.count hS (by simpa using hlen), rfl⟩
    rw [← hread, ← hlen₁]
    rfl
  · obtain ⟨ctx₁, hupd, hkeyed, hinit⟩ := cipher_ctx_update_keyed hL hS h b.bytes
    simp only [Buffer.bytes] at hupd
    simp only [streamEncryptRest, h.cipher, hS, ↓reduceIte, Buffer.get_ok (show 0 + b.len ≤ b.capacity by omega),
      C.ok_bind, hupd]
    rw [Buffer.put_ok (by rw [length_scan, Block.length_read]; exact hroom), C.ok_bind]
    refine ⟨_, _, _, rfl, ?_, hkeyed, hinit⟩
    have hread := Block.read_write_append ct.data off 0 (scan (streamByte L byte ks c iv true) past b.bytes)
      (Nat.zero_le _)
    rw [Nat.sub_zero] at hread
    exact hread

theorem streamEncryptInPlace_spec (hL : L.Streams byte ks) {c : Cipher StreamMethod}
    (hS : ¬StreamMethod.SALSA20.code ≤ c.method.code) (h : ctx.Keyed L c iv true past) (hb : b.len ≤ b.capacity)
    (g : CryptoStatics) :
    ∃ b' ctx', streamEncryptInPlace L g b ctx = .ok (.CRYPTO_OK, b', ctx', g) ∧
      b'.bytes = scan (streamByte L byte ks c iv true) past b.bytes ∧ ctx'.Keyed L c iv true (past ++ b.bytes) ∧
      ctx'.init = ctx.init := by
  obtain ⟨ctx₁, hupd, hkeyed, hinit⟩ := cipher_ctx_update_keyed hL hS h b.bytes
  simp only [Buffer.bytes] at hupd
  simp only [streamEncryptInPlace, Buffer.get_ok (show 0 + b.len ≤ b.capacity by omega), C.ok_bind, hupd]
  rw [Buffer.put_ok (by rw [length_scan, Block.length_read]; omega), C.ok_bind]
  refine ⟨_, _, rfl, ?_, hkeyed, hinit⟩
  exact Block.read_write_same _ _ _

/-- A context that is to encrypt with the IV `iv`, or does. -/
inductive StreamCtx.Sends (L : CryptoLib) (c : Cipher StreamMethod) (iv past : Bytes) (ctx : StreamCtx) : Prop
  | fresh (h : ctx.Unkeyed c) (hn : ctx.nonce = iv) (hpast : past = [])
  | keyed (h : ctx.Keyed L c iv true past) (hinit : ctx.init ≠ 0)

theorem stream_encrypt_spec (hL : L.Streams byte ks) (hM : stream_supported L M)
    (hkey : key.length = supported_stream_ciphers_key_size M) (hiv : iv.length = supported_stream_ciphers_nonce_size M)
    (h : ctx.Sends L (stream_key_init M key) iv past) (hlen : M.Counts (past.length + b.len)) (hb : b.len ≤ b.capacity)
    (g : CryptoStatics) (capacity : Nat) :
    ∃ b' ctx' g', stream_encrypt L g b ctx capacity = .ok (.CRYPTO_OK, b', ctx', g') ∧
      b'.bytes = (if ctx.init = 0 then iv else []) ++
        scan (streamByte L byte ks (stream_key_init M key) iv true) past b.bytes ∧
      ctx'.Sends L (stream_key_init M key) iv (past ++ b.bytes) ∧ ctx'.init ≠ 0 := by
  rcases h with ⟨h, hn, rfl⟩ | ⟨h, hinit⟩
  · have hnl : ctx.cipher.nonce_len = iv.length := by
      rw [h.cipher, hiv]
      rfl
    obtain ⟨ctx₁, hset, -, hkeyed⟩ := cipher_ctx_set_nonce_keyed hL hM hkey hiv h hn true
    have hnonce : ctx₁.nonce = iv := (hkeyed 1).nonce
    obtain ⟨n, hn', -, hroom⟩ := brealloc_eq g.stream_encrypt_tmp (iv.length + b.len) capacity
    simp only [stream_encrypt, h.init, ne_eq, not_true_eq_false, false_and, ↓reduceIte, hnl, hn', hn, hset, C.ok_bind,
      hnonce]
    rw [Buffer.put_ok (by simp only; omega), C.ok_bind]
    obtain ⟨b', ctx', g', hrest, hbytes, hkeyed', hinit'⟩ := streamEncryptRest_spec hL (hkeyed 1)
      ⟨g.stream_encrypt_tmp.idx, b.len, n, g.stream_encrypt_tmp.data.write 0 iv⟩ hlen hb rfl iv.length hroom
        { g with bloom := ppbloom_add L.murmurhash2 g.bloom iv } capacity
    simp only [hnonce] at hrest
    refine ⟨b', ctx', g', hrest, ?_, .keyed hkeyed' (by rw [hinit']; simp), by rw [hinit']; simp⟩
    rw [hbytes, Block.read_write_same]
  · rw [if_neg hinit, List.nil_append]
    by_cases hS : StreamMethod.SALSA20.code ≤ (stream_key_init M key).method.code
    · obtain ⟨n, hn, -, hroom⟩ := brealloc_eq g.stream_encrypt_tmp (0 + b.len) capacity
      simp only [stream_encrypt, hinit, ne_eq, not_false_eq_true, true_and, h.cipher, Nat.not_lt.2 hS, ↓reduceIte, hn]
      obtain ⟨b', ctx', g', hrest, hbytes, hkeyed', hinit'⟩ := streamEncryptRest_spec hL h
        ⟨g.stream_encrypt_tmp.idx, b.len, n, g.stream_encrypt_tmp.data⟩ hlen hb rfl 0 hroom g capacity
      exact ⟨b', ctx', g', hrest, hbytes, .keyed hkeyed' (hinit'.symm ▸ hinit), hinit'.symm ▸ hinit⟩
    · obtain ⟨b', ctx', hin, hbytes, hkeyed', hinit'⟩ := streamEncryptInPlace_spec hL hS h hb g
      simp only [stream_encrypt, hinit, ne_eq, not_false_eq_true, true_and, h.cipher, Nat.not_le.1 hS, ↓reduceIte]
      exact ⟨b', ctx', g, hin, hbytes, .keyed hkeyed' (hinit'.symm ▸ hinit), hinit'.symm ▸ hinit⟩

/-- What the functions for datagrams compute, with either implementation. -/
theorem stream_output_eq (hL : L.Streams byte ks) {c : Cipher StreamMethod} {n : Nat}
    (h : StreamCtx.Keyed L c iv enc [] { ctx with counter := 0, init := n }) (m : Bytes) :
    (if StreamMethod.SALSA20.code ≤ c.method.code then some (crypto_stream_xor_ic L m iv 0 c.key c.method)
      else (cipher_ctx_update L ctx m).1) = some (scan (streamByte L byte ks c iv enc) [] m) := by
  by_cases hS : StreamMethod.SALSA20.code ≤ c.method.code
  · rw [if_pos hS]
    have hpad := crypto_stream_xor_ic_pad hL c (StreamMethod.counts_of_lt (by decide)) List.length_nil m iv hS enc
    exact congrArg some hpad
  · have hkeyed : ctx.Keyed L c iv enc [] := ⟨h.cipher, h.nonce, fun hS' => absurd hS' hS, h.evp⟩
    obtain ⟨ctx', hupd, -, -⟩ := cipher_ctx_update_keyed hL hS hkeyed m
    rw [if_neg hS, hupd]

/-- A datagram is the IV with the bytes of the message. -/
theorem stream_encrypt_all_spec (hL : L.Streams byte ks) (hM : stream_supported L M)
    (hkey : key.length = supported_stream_ciphers_key_size M) (hiv : iv.length = supported_stream_ciphers_nonce_size M)
    (hb : b.len ≤ b.capacity) (g : CryptoStatics) (capacity : Nat) :
    ∃ b' g', stream_encrypt_all L g iv b (stream_key_init M key) capacity = .ok (.CRYPTO_OK, b', g') ∧
      b'.bytes = iv ++ streamBytes L byte ks (stream_key_init M key) iv b.bytes := by
  obtain ⟨ctx, hctx, hun, -, hn⟩ := stream_ctx_init_unkeyed hM key true iv
  have hn := hn rfl
  obtain ⟨ctx₁, hset, -, hkeyed⟩ := cipher_ctx_set_nonce_keyed hL hM hkey hiv hun hn true
  have hnonce : ctx₁.nonce = iv := (hkeyed ctx₁.init).nonce
  have hnl : (stream_key_init M key).nonce_len = iv.length := hiv.symm
  obtain ⟨n, hn', -, hroom⟩ := brealloc_eq g.stream_encrypt_all_tmp (iv.length + b.len) capacity
  have hout : _ = some (streamBytes L byte ks (stream_key_init M key) iv b.bytes) :=
    stream_output_eq hL (hkeyed ctx₁.init) b.bytes
  have hsize : (streamBytes L byte ks (stream_key_init M key) iv b.bytes).length = b.len := by
    rw [streamBytes, length_scan, Buffer.length_bytes]
  simp only [stream_encrypt_all, hctx, C.ok_bind, hn, hset, hnonce, hn', hnl]
  rw [Buffer.put_ok (by simp only; omega), C.ok_bind, Buffer.get_ok (show 0 + b.len ≤ b.capacity by omega), C.ok_bind]
  simp only [Buffer.bytes] at hout hsize
  simp only [hout]
  rw [Buffer.put_ok (by rw [hsize]; exact hroom), C.ok_bind]
  refine ⟨_, _, rfl, ?_⟩
  have hread := Block.read_write_append (g.stream_encrypt_all_tmp.data.write 0 iv) iv.length 0
    (streamBytes L byte ks (stream_key_init M key) iv (b.data.read 0 b.len)) (Nat.zero_le _)
  rw [Nat.sub_zero, Block.read_write_same, hsize] at hread
  split
  · exact hread
  · simp only [bswap_data, Buffer.bytes, hsize]
    exact hread

end

end OutlineServer
