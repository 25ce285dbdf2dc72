import OutlineServer.AeadSpec

/-!
# Runs of `aead_encrypt`

Each call that succeeds with some plaintext seals two blocks under the next two nonces
(`aead_encrypt_ok`), so that a run from a fresh context seals its blocks under the zero nonce, its
successor, and so on (`encryptCalls_sealed`). When the cipher does not fail, no call does, and the
returned buffers are the salt and the chunks (`encryptCalls_wire`).
-/

namespace OutlineServer

section
variable {L : CryptoLib} {ctx ctx' : AeadCtx} {g g' : CryptoState} {b b' c c' : Buffer}

def AeadCtx.blocks (ctx : AeadCtx) (m : Bytes) : List (Bytes × Bytes × Bytes) :=
  [(ctx.skey, ctx.nonce, store16_be m.length), (ctx.skey, sodium_increment ctx.nonce, m)]

theorem and_chunk_size_mask {n : Nat} (h : n ≤ CHUNK_SIZE_MASK) : n &&& CHUNK_SIZE_MASK = n := by
  have : CHUNK_SIZE_MASK = 2 ^ 14 - 1 := rfl
  rw [this, Nat.and_two_pow_sub_one_eq_mod, Nat.mod_eq_of_lt (by omega)]

/-- A successful `aead_chunk_encrypt` writes the two encrypted blocks behind one another. -/
theorem aead_chunk_encrypt_ok {off plen : Nat}
    (h : aead_chunk_encrypt L ctx b c off plen = .ok (.CRYPTO_OK, c', ctx')) :
    ∃ e e', plen ≤ CHUNK_SIZE_MASK ∧
      L.aead_encrypt ctx.cipher.method ctx.skey ctx.nonce (store16_be plen) = some e ∧
      L.aead_encrypt ctx.cipher.method ctx.skey (sodium_increment ctx.nonce) (b.data.read 0 plen) = some e' ∧
      e.length = CHUNK_SIZE_LEN + ctx.cipher.tag_len ∧ e'.length = plen + ctx.cipher.tag_len ∧
      c' = { c with data := (c.data.write off e).write (off + CHUNK_SIZE_LEN + ctx.cipher.tag_len) e' } ∧
      ctx' = { ctx with
        nonce := sodium_increment (sodium_increment ctx.nonce)
        sealed := ctx.sealed ++ ctx.blocks (b.data.read 0 plen) } := by
  obtain ⟨_, hle, h⟩ := C.bind_eq_ok h
  have hle := of_cassert hle
  rw [and_chunk_size_mask hle] at h
  simp only [aead_cipher_encrypt] at h
  rcases he : L.aead_encrypt ctx.cipher.method ctx.skey ctx.nonce (store16_be plen) with _ | e
  · rw [he] at h
    cases h
  rw [he] at h
  obtain ⟨c₁, hput, h⟩ := C.bind_eq_ok h
  obtain ⟨-, rfl⟩ := Buffer.of_put hput
  obtain ⟨_, hlen, h⟩ := C.bind_eq_ok h
  have hlen := of_cassert hlen
  obtain ⟨m, hget, h⟩ := C.bind_eq_ok h
  obtain ⟨-, rfl⟩ := Buffer.of_get hget
  rcases he' : L.aead_encrypt ctx.cipher.method ctx.skey (sodium_increment ctx.nonce) (b.data.read 0 plen) with _ | e'
  · simp only [he'] at h
    cases h
  simp only [he'] at h
  obtain ⟨c₂, hput', h⟩ := C.bind_eq_ok h
  obtain ⟨-, rfl⟩ := Buffer.of_put hput'
  obtain ⟨_, hlen', h⟩ := C.bind_eq_ok h
  have hlen' := of_cassert hlen'
  cases h
  refine ⟨e, e', hle, rfl, rfl, hlen, hlen', rfl, ?_⟩
  simp [AeadCtx.blocks]

/-- The context as a chunk is encrypted: the first one derives the subkey. -/
def AeadCtx.keyed (L : CryptoLib) (ctx : AeadCtx) : AeadCtx :=
  if ctx.init = 0 then { ctx with
    skey := aeadSubkey L ctx.cipher ctx.salt, nonce := LeCounter.zero ctx.cipher.nonce_len, init := 1 }
  else ctx

def AeadCtx.afterChunk (ctx : AeadCtx) (m : Bytes) : AeadCtx :=
  { ctx with
    nonce := sodium_increment (sodium_increment ctx.nonce)
    sealed := ctx.sealed ++ ctx.blocks m }

/-- The plaintext of the chunk that `aead_encrypt` makes of `b`, whose length it takes for a `uint16_t`. -/
def Buffer.chunkPlain (b : Buffer) : Bytes := b.data.read 0 (b.len % 2 ^ 16)

theorem Buffer.chunkPlain_eq (h : b.len < 2 ^ 16) : b.chunkPlain = b.bytes := by
  rw [Buffer.chunkPlain, Nat.mod_eq_of_lt h]
  rfl

inductive AeadCtx.Chunk (L : CryptoLib) (ctx : AeadCtx) (m : Bytes) : Bytes → Prop
  | mk {e e' : Bytes} (he : L.aead_encrypt ctx.cipher.method ctx.skey ctx.nonce (store16_be m.length) = some e)
      (he' : L.aead_encrypt ctx.cipher.method ctx.skey (sodium_increment ctx.nonce) m = some e')
      (hlen : e.length = CHUNK_SIZE_LEN + ctx.cipher.tag_len) (hlen' : e'.length = m.length + ctx.cipher.tag_len) :
      AeadCtx.Chunk L ctx m (e ++ e')

theorem AeadCtx.Chunk.length_eq {m e : Bytes} (h : ctx.Chunk L m e) :
    e.length = 2 * ctx.cipher.tag_len + CHUNK_SIZE_LEN + m.length := by
  rcases h with ⟨-, -, hlen, hlen'⟩
  rw [List.length_append]
  omega

theorem aeadEncryptChunk_ok {ofst : Nat} (h : aeadEncryptChunk L g b ctx ofst = .ok (.CRYPTO_OK, b', ctx', g')) :
    ctx' = ctx.afterChunk b.chunkPlain ∧ b.len % 2 ^ 16 ≤ CHUNK_SIZE_MASK ∧ ∃ e, ctx.Chunk L b.chunkPlain e ∧
        (b'.len = ofst + e.length → b'.bytes = g.aead_encrypt_tmp.data.read 0 ofst ++ e) ∧
        b'.len = g.aead_encrypt_tmp.len ∧ g'.bloom = g.bloom := by
  obtain ⟨⟨err, c, ctx₁⟩, hc, h⟩ := C.bind_eq_ok h
  by_cases herr : err = .CRYPTO_OK
  · subst herr
    obtain ⟨e, e', hle, he, he', hlen, hlen', rfl, rfl⟩ := aead_chunk_encrypt_ok hc
    simp only [ne_eq, not_true_eq_false, ↓reduceIte, bswap_data] at h
    cases h
    refine ⟨rfl, hle, e ++ e', ⟨?_, he', hlen, by simpa [Buffer.chunkPlain] using hlen'⟩, ?_, rfl, rfl⟩
    · rw [Buffer.chunkPlain, Block.length_read]
      exact he
    · intro hl
      have hoff : ofst + CHUNK_SIZE_LEN + ctx.cipher.tag_len = ofst + e.length := by omega
      have h₁ := Block.read_write_append g.aead_encrypt_tmp.data ofst 0 e (Nat.zero_le _)
      have h₂ := Block.read_write_append (g.aead_encrypt_tmp.data.write ofst e) (ofst + e.length) 0 e' (Nat.zero_le _)
      rw [Nat.sub_zero] at h₁ h₂
      rw [Buffer.bytes, hl, List.length_append, ← Nat.add_assoc]
      simp only [hoff]
      rw [h₂, h₁, List.append_assoc]
  · simp only [ne_eq, herr, not_false_eq_true, ↓reduceIte] at h
    cases h
    exact absurd rfl herr

theorem aead_encrypt_ok {capacity : Nat} (hb : b.len ≠ 0) (hsalt : ctx.salt.length = ctx.cipher.key_len)
    (h : aead_encrypt L g b ctx capacity = .ok (.CRYPTO_OK, b', ctx', g')) :
    ctx' = (ctx.keyed L).afterChunk b.chunkPlain ∧ b.len % 2 ^ 16 ≤ CHUNK_SIZE_MASK ∧
      (b.len < 2 ^ 16 → ∃ e, (ctx.keyed L).Chunk L b.bytes e ∧
        b'.bytes = (if ctx.init = 0 then ctx.salt else []) ++ e) := by
  simp only [aead_encrypt, hb, ↓reduceIte] at h
  by_cases hinit : ctx.init = 0
  · simp only [hinit, ↓reduceIte] at h
    obtain ⟨tmp, hput, h⟩ := C.bind_eq_ok h
    obtain ⟨-, rfl⟩ := Buffer.of_put hput
    obtain ⟨ctx₁, hkey, h⟩ := C.bind_eq_ok h
    obtain rfl := aead_cipher_ctx_set_key_ok hkey
    obtain ⟨hctx, hle, e, he, hbytes, hlen, -⟩ := aeadEncryptChunk_ok h
    have hk : ctx.keyed L = { ctx with
        skey := aeadSubkey L ctx.cipher ctx.salt, nonce := LeCounter.zero ctx.cipher.nonce_len, init := 1 } := by
      rw [AeadCtx.keyed, if_pos hinit]
    rw [hk]
    refine ⟨hctx, hle, ?_⟩
    intro hlt
    rw [b.chunkPlain_eq hlt] at he
    refine ⟨e, he, ?_⟩
    have hsz := he.length_eq
    rw [Buffer.length_bytes] at hsz
    have hsalt' := Block.read_write_same (brealloc g.aead_encrypt_tmp
      (ctx.cipher.key_len + 2 * ctx.cipher.tag_len + b.len + CHUNK_SIZE_LEN) capacity).data 0 ctx.salt
    rw [hsalt] at hsalt'
    rw [hbytes (by rw [hlen, hsz]; simp only; omega), if_pos hinit]
    congr 1
  · simp only [hinit, ↓reduceIte] at h
    obtain ⟨hctx, hle, e, he, hbytes, hlen, -⟩ := aeadEncryptChunk_ok h
    have hk : ctx.keyed L = ctx := if_neg hinit
    rw [hk]
    refine ⟨hctx, hle, ?_⟩
    intro hlt
    rw [b.chunkPlain_eq hlt] at he
    refine ⟨e, he, ?_⟩
    have hsz := he.length_eq
    rw [Buffer.length_bytes] at hsz
    rw [hbytes (by rw [hlen, hsz]; simp only; omega), if_neg hinit, Block.read_zero]

/-! ### The cipher does not fail -/

def CryptoLib.Encrypts (L : CryptoLib) : Prop :=
  ∀ M k n m, ∃ c, L.aead_encrypt M k n m = some c ∧ c.length = m.length + supported_aead_ciphers_tag_size M

theorem aead_chunk_encrypt_total (hE : L.Encrypts) {off plen : Nat}
    (ht : ctx.cipher.tag_len = supported_aead_ciphers_tag_size ctx.cipher.method) (hle : plen ≤ CHUNK_SIZE_MASK)
    (hb : plen ≤ b.capacity) (hc : off + (2 * ctx.cipher.tag_len + CHUNK_SIZE_LEN + plen) ≤ c.capacity) :
    ∃ c' ctx', aead_chunk_encrypt L ctx b c off plen = .ok (.CRYPTO_OK, c', ctx') := by
  obtain ⟨e, he, hlen⟩ := hE ctx.cipher.method ctx.skey ctx.nonce (store16_be plen)
  obtain ⟨e', he', hlen'⟩ := hE ctx.cipher.method ctx.skey (sodium_increment ctx.nonce)
    (b.data.read 0 plen)
  have hsize : e.length = CHUNK_SIZE_LEN + ctx.cipher.tag_len := by rw [hlen, ht]; rfl
  have hsize' : e'.length = plen + ctx.cipher.tag_len := by rw [hlen', ht, Block.length_read]
  simp only [aead_chunk_encrypt, aead_cipher_encrypt, cassert_ok hle, C.ok_bind, and_chunk_size_mask hle, he,
    cassert_ok hsize, Buffer.put_ok (show off + e.length ≤ c.capacity by omega),
    Buffer.get_ok (show 0 + plen ≤ b.capacity by omega), he', cassert_ok hsize']
  rw [Buffer.put_ok (by simp only; omega), C.ok_bind]
  exact ⟨_, _, rfl⟩

theorem aeadEncryptChunk_total (hE : L.Encrypts) {ofst : Nat}
    (ht : ctx.cipher.tag_len = supported_aead_ciphers_tag_size ctx.cipher.method) (hle : b.len ≤ CHUNK_SIZE_MASK)
    (hb : b.len ≤ b.capacity)
    (hc : ofst + (2 * ctx.cipher.tag_len + CHUNK_SIZE_LEN + b.len) ≤ g.aead_encrypt_tmp.capacity) :
    ∃ b' ctx' g', aeadEncryptChunk L g b ctx ofst = .ok (.CRYPTO_OK, b', ctx', g') := by
  have hmod : b.len % 2 ^ 16 = b.len := by
    have : CHUNK_SIZE_MASK = 0x3FFF := rfl
    omega
  obtain ⟨c', ctx', h⟩ := aead_chunk_encrypt_total hE ht hle hb hc
  simp only [aeadEncryptChunk, hmod, h, C.ok_bind]
  exact ⟨_, _, _, rfl⟩

theorem aead_encrypt_total (hE : L.Encrypts) (hs : ctx.cipher.Supported) (hle : b.len ≤ CHUNK_SIZE_MASK)
    (hb : b.len ≤ b.capacity) (hsalt : ctx.salt.length = ctx.cipher.key_len) (g : CryptoState) (capacity : Nat) :
    ∃ b' ctx' g', aead_encrypt L g b ctx capacity = .ok (.CRYPTO_OK, b', ctx', g') := by
  simp only [aead_encrypt]
  by_cases h0 : b.len = 0
  · simp only [h0, ↓reduceIte]
    exact ⟨_, _, _, rfl⟩
  obtain ⟨n, hn, -, hroom⟩ := brealloc_eq g.aead_encrypt_tmp
    ((if ctx.init = 0 then ctx.cipher.key_len else 0) + 2 * ctx.cipher.tag_len + b.len + CHUNK_SIZE_LEN) capacity
  simp only [h0, hn, ↓reduceIte]
  by_cases hinit : ctx.init = 0
  · simp only [hinit, ↓reduceIte] at hroom ⊢
    rw [Buffer.put_ok (by simp only; omega), C.ok_bind,
      aead_cipher_ctx_set_key_eq (by have := hs.key_len; omega), C.ok_bind]
    exact aeadEncryptChunk_total hE hs.tag_len hle hb (by simp only; omega)
  · simp only [hinit, ↓reduceIte] at hroom ⊢
    exact aeadEncryptChunk_total hE hs.tag_len hle hb (by simp only; omega)

/-! ### Runs -/

/-- Calls of `aead_encrypt` in one context. -/
abbrev encryptCalls (L : CryptoLib) (capacity : Nat) :
    CryptoState → AeadCtx → List Buffer → C (List (CryptoRet × Bytes) × AeadCtx × CryptoState) :=
  callsOf fun g b ctx => aead_encrypt L g b ctx capacity

/-- The plaintexts of the chunks of a run; an empty buffer gives none. -/
def chunkPlains (bs : List Buffer) : List Bytes := (bs.filter fun b => b.len ≠ 0).map Buffer.chunkPlain

def chunkNonce (n : Bytes) : Bytes := sodium_increment (sodium_increment n)

/-- The blocks that chunks of `ms` are sealed in, from the nonce `n` on. -/
def blocksFrom (skey : Bytes) : Bytes → List Bytes → List (Bytes × Bytes × Bytes)
  | _, [] => []
  | n, m :: ms =>
    (skey, n, store16_be m.length) :: (skey, sodium_increment n, m) :: blocksFrom skey (chunkNonce n) ms

def AeadCtx.afterChunks (ctx : AeadCtx) (ms : List Bytes) : AeadCtx :=
  { ctx with
    nonce := chunkNonce^[ms.length] ctx.nonce
    sealed := ctx.sealed ++ blocksFrom ctx.skey ctx.nonce ms }

theorem AeadCtx.afterChunks_nil (ctx : AeadCtx) : ctx.afterChunks [] = ctx := by
  simp [AeadCtx.afterChunks, blocksFrom]

theorem AeadCtx.afterChunks_cons (ctx : AeadCtx) (m : Bytes) (ms : List Bytes) :
    ctx.afterChunks (m :: ms) = (ctx.afterChunk m).afterChunks ms := by
  simp [AeadCtx.afterChunks, AeadCtx.afterChunk, AeadCtx.blocks, blocksFrom, chunkNonce, Function.iterate_succ_apply]

theorem AeadCtx.keyed_init_ne (ctx : AeadCtx) : (ctx.keyed L).init ≠ 0 := by
  rw [AeadCtx.keyed]
  split
  · simp
  · assumption

theorem AeadCtx.keyed_of_init_ne (h : ctx.init ≠ 0) : ctx.keyed L = ctx := if_neg h

@[simp] theorem AeadCtx.keyed_cipher (ctx : AeadCtx) : (ctx.keyed L).cipher = ctx.cipher := by
  rw [AeadCtx.keyed]
  split <;> rfl

@[simp] theorem AeadCtx.keyed_salt (ctx : AeadCtx) : (ctx.keyed L).salt = ctx.salt := by
  rw [AeadCtx.keyed]
  split <;> rfl

theorem encryptCalls_cons {capacity : Nat} {bs : List Buffer} {rs : List (CryptoRet × Bytes)}
    (h : encryptCalls L capacity g ctx (b :: bs) = .ok (rs, ctx', g')) (hok : ∀ r ∈ rs, r.1 = .CRYPTO_OK) :
    ∃ b' ctx₁ g₁ rs', aead_encrypt L g b ctx capacity = .ok (.CRYPTO_OK, b', ctx₁, g₁) ∧
      encryptCalls L capacity g₁ ctx₁ bs = .ok (rs', ctx', g') ∧ rs = (.CRYPTO_OK, b'.bytes) :: rs' ∧
      ∀ r ∈ rs', r.1 = .CRYPTO_OK := by
  obtain ⟨⟨ret, b', ctx₁, g₁⟩, h₁, h⟩ := C.bind_eq_ok h
  obtain ⟨⟨rs', ctx₂, g₂⟩, h₂, h⟩ := C.bind_eq_ok h
  cases h
  obtain ⟨hret, hok'⟩ := List.forall_mem_cons.1 hok
  simp only at hret
  subst hret
  exact ⟨b', ctx₁, g₁, rs', h₁, h₂, rfl, hok'⟩

theorem encryptCalls_total (hE : L.Encrypts) (ctx : AeadCtx) (hs : ctx.cipher.Supported)
    (hsalt : ctx.salt.length = ctx.cipher.key_len) (bs : List Buffer)
    (hbs : ∀ b ∈ bs, b.len ≤ CHUNK_SIZE_MASK ∧ b.len ≤ b.capacity) (g : CryptoState) (capacity : Nat) :
    ∃ cs ctx' g', encryptCalls L capacity g ctx bs = .ok (cs, ctx', g') ∧ ∀ c ∈ cs, c.1 = .CRYPTO_OK := by
  induction bs generalizing ctx g with
  | nil => exact ⟨[], ctx, g, rfl, by simp⟩
  | cons b bs ih =>
    obtain ⟨⟨hle, hcap⟩, hbs⟩ := List.forall_mem_cons.1 hbs
    obtain ⟨b', ctx₁, g₁, h₁⟩ := aead_encrypt_total hE hs hle hcap hsalt g capacity
    have hctx : ctx₁.cipher = ctx.cipher ∧ ctx₁.salt = ctx.salt := by
      by_cases hb : b.len = 0
      · simp only [aead_encrypt, hb, ↓reduceIte] at h₁
        cases h₁
        exact ⟨rfl, rfl⟩
      · obtain ⟨rfl, -, -⟩ := aead_encrypt_ok hb hsalt h₁
        simp [AeadCtx.afterChunk]
    obtain ⟨cs, ctx', g', hrun, hok⟩ := ih ctx₁ (by rwa [hctx.1]) (by rwa [hctx.1, hctx.2]) hbs g₁
    refine ⟨(.CRYPTO_OK, b'.bytes) :: cs, ctx', g', ?_, ?_⟩
    · simp only [callsOf, h₁, C.ok_bind, hrun]
      rfl
    · simpa using hok

/-- The blocks of a run are sealed under one nonce after another. -/
theorem encryptCalls_sealed {capacity : Nat} {bs : List Buffer} {rs : List (CryptoRet × Bytes)}
    (hsalt : ctx.salt.length = ctx.cipher.key_len)
    (h : encryptCalls L capacity g ctx bs = .ok (rs, ctx', g')) (hok : ∀ r ∈ rs, r.1 = .CRYPTO_OK) :
    chunkPlains bs = [] ∧ ctx' = ctx ∨ ctx' = (ctx.keyed L).afterChunks (chunkPlains bs) := by
  induction bs generalizing g ctx rs with
  | nil =>
    cases h
    exact .inl ⟨rfl, rfl⟩
  | cons b bs ih =>
    obtain ⟨b', ctx₁, g₁, rs', h₁, h, -, hok⟩ := encryptCalls_cons h hok
    by_cases hb : b.len = 0
    · simp only [aead_encrypt, hb, ↓reduceIte] at h₁
      cases h₁
      have hp : chunkPlains (b :: bs) = chunkPlains bs := by simp [chunkPlains, hb]
      rw [hp]
      exact ih hsalt h hok
    · obtain ⟨rfl, -, -⟩ := aead_encrypt_ok hb hsalt h₁
      have hp : chunkPlains (b :: bs) = b.chunkPlain :: chunkPlains bs := by simp [chunkPlains, hb]
      have hk : ((ctx.keyed L).afterChunk b.chunkPlain).keyed L = (ctx.keyed L).afterChunk b.chunkPlain :=
        AeadCtx.keyed_of_init_ne ctx.keyed_init_ne
      right
      rw [hp, AeadCtx.afterChunks_cons]
      rcases ih (by simpa [AeadCtx.afterChunk] using hsalt) h hok with ⟨hnil, rfl⟩ | rfl
      · rw [hnil, AeadCtx.afterChunks_nil]
      · rw [hk]

end

/-! ### The returned buffers are the salt and the chunks -/

section
variable {L : CryptoLib}

theorem load16_store16 {n : Nat} (h : n < 2 ^ 16) : load16_be (store16_be n) = n := by
  simp only [load16_be, store16_be, List.getD_cons_zero, List.getD_cons_succ, UInt8.toNat_ofNat']
  omega

def aeadFrame (L : CryptoLib) (M : AeadMethod) (skey n m : Bytes) : Bytes :=
  (L.aead_encrypt M skey n (store16_be m.length)).getD [] ++ (L.aead_encrypt M skey (sodium_increment n) m).getD []

theorem AeadCtx.Chunk.eq_frame {ctx : AeadCtx} {m e : Bytes} (h : ctx.Chunk L m e) :
    e = aeadFrame L ctx.cipher.method ctx.skey ctx.nonce m := by
  rcases h with ⟨he, he', -, -⟩
  rw [aeadFrame, he, he']
  rfl

/-- The AEAD implementations encrypt, and decrypt what they have encrypted. -/
structure CryptoLib.Lawful (L : CryptoLib) : Prop extends L.Sized where
  encrypts : L.Encrypts
  decrypt_encrypt : ∀ {M k n m c}, L.aead_encrypt M k n m = some c → L.aead_decrypt M k n c = some m

/-- The decoder answers a chunk, followed by anything, with its plaintext. -/
theorem aeadNext_chunk (hL : L.Lawful) {M : AeadMethod} {skey n m b : Bytes} (hm : 0 < m.length)
    (hle : m.length ≤ CHUNK_SIZE_MASK) (hb : b <+: aeadFrame L M skey n m) :
    aeadNext L M skey (supported_aead_ciphers_tag_size M) n b =
      if b = aeadFrame L M skey n m then
        .item m (aeadFrame L M skey n m).length (chunkNonce n) else .more := by
  obtain ⟨e, he, hlen⟩ := hL.encrypts M skey n (store16_be m.length)
  obtain ⟨e', he', hlen'⟩ := hL.encrypts M skey (sodium_increment n) m
  have hd := hL.decrypt_encrypt he
  have hd' := hL.decrypt_encrypt he'
  have hframe : aeadFrame L M skey n m = e ++ e' := by
    rw [aeadFrame, he, he']
    rfl
  rw [hframe] at hb ⊢
  have hsize : (e ++ e').length = 2 * supported_aead_ciphers_tag_size M + CHUNK_SIZE_LEN + m.length := by
    rw [List.length_append, hlen, hlen', show (store16_be m.length).length = CHUNK_SIZE_LEN from rfl]
    omega
  by_cases hshort : b.length ≤ 2 * supported_aead_ciphers_tag_size M + CHUNK_SIZE_LEN
  · have hne : b ≠ e ++ e' := by
      rintro rfl
      omega
    rw [if_neg hne, aeadNext, if_pos hshort]
  -- the length block has arrived
  obtain ⟨q, rfl⟩ : ∃ q, b = e ++ q := by
    refine (List.prefix_of_prefix_length_le (List.prefix_append e e') hb ?_).imp fun _ h => h.symm
    rw [hlen, show (store16_be m.length).length = CHUNK_SIZE_LEN from rfl]
    omega
  have hoff : CHUNK_SIZE_LEN + supported_aead_ciphers_tag_size M = e.length := hlen.symm
  have hmask : CHUNK_SIZE_MASK = 0x3FFF := rfl
  have hmlen : load16_be (store16_be m.length) &&& CHUNK_SIZE_MASK = m.length := by
    rw [load16_store16 (by omega), and_chunk_size_mask hle]
  simp only [aeadNext, hshort, ↓reduceIte, hoff, List.take_left, List.drop_left, hd, hmlen, Nat.ne_of_gt hm]
  by_cases hpart : (e ++ q).length < 2 * supported_aead_ciphers_tag_size M + CHUNK_SIZE_LEN + m.length
  · have hne : e ++ q ≠ e ++ e' := by
      intro h
      rw [h, hsize] at hpart
      omega
    rw [if_pos hpart, if_neg hne]
  · have hq : e ++ q = e ++ e' := hb.eq_of_length_le (by omega)
    obtain rfl := List.append_cancel_left hq
    rw [if_neg hpart, if_pos rfl, ← hlen', List.take_length, hd', hsize]
    rfl

def aeadCodec (hL : L.Lawful) (M : AeadMethod) (skey : Bytes) : Codec Bytes UInt8 Bytes where
  toDeframer := aeadDeframer L M skey (supported_aead_ciphers_tag_size M)
  frame := aeadFrame L M skey
  after := chunkNonce
  Valid m := 0 < m.length ∧ m.length ≤ CHUNK_SIZE_MASK
  next_frame hm := (aeadNext_chunk hL hm.1 hm.2 (List.prefix_refl _)).trans (if_pos rfl)
  next_part hm hp hne := (aeadNext_chunk hL hm.1 hm.2 hp).trans (if_neg hne)

/-- A run from a context that has its salt gives that and the chunks. -/
theorem encryptCalls_wire (hL : L.Lawful) {ctx ctx' : AeadCtx} {g g' : CryptoState}
    (hsalt : ctx.salt.length = ctx.cipher.key_len) {bs : List Buffer}
    (hbs : ∀ b ∈ bs, 0 < b.len ∧ b.len ≤ CHUNK_SIZE_MASK)
    {capacity : Nat} {cs : List (CryptoRet × Bytes)} (h : encryptCalls L capacity g ctx bs = .ok (cs, ctx', g'))
    (hok : ∀ c ∈ cs, c.1 = .CRYPTO_OK) :
    cs.map (·.2) = ((aeadCodec hL ctx.cipher.method (ctx.keyed L).skey).frames (ctx.keyed L).nonce
      (bs.map Buffer.bytes)).modifyHead ((if ctx.init = 0 then ctx.salt else []) ++ ·) := by
  induction bs generalizing ctx g cs with
  | nil =>
    cases h
    rfl
  | cons b bs ih =>
    obtain ⟨⟨hpos, hle⟩, hbs⟩ := List.forall_mem_cons.1 hbs
    have hmask : CHUNK_SIZE_MASK = 0x3FFF := rfl
    obtain ⟨b', ctx₁, g₁, cs, h₁, h₂, rfl, hok₂⟩ := encryptCalls_cons h hok
    obtain ⟨hctx, -, hbytes⟩ := aead_encrypt_ok (by omega) hsalt h₁
    obtain ⟨e, he, hb'⟩ := hbytes (by omega)
    have hinit : ctx₁.init ≠ 0 := by
      rw [hctx]
      exact ctx.keyed_init_ne
    have hhead : ∀ fs : List Bytes, fs.modifyHead (([] : Bytes) ++ ·) = fs := by
      intro fs
      cases fs <;> rfl
    have hcs := ih (by simpa [hctx, AeadCtx.afterChunk] using hsalt) hbs h₂ hok₂
    rw [AeadCtx.keyed_of_init_ne hinit, if_neg hinit, hhead] at hcs
    rw [List.map_cons, hcs, hb', he.eq_frame, hctx]
    simp only [AeadCtx.afterChunk, AeadCtx.keyed_cipher]
    rfl

end

/-! ### A cipher with a constant tag -/

/-- Encryption appends a tag of zeros; decryption takes it off plaintexts that `ok` admits under the nonce. -/
def tagLib (ok : Bytes → Bytes → Bool) : CryptoLib where
  hmac_sha1 _ _ := List.replicate 20 0
  md5 _ := List.replicate 16 0
  aead_encrypt _ _ _ m := some (m ++ List.replicate 16 0)
  aead_decrypt _ _ n c :=
    let m := c.take (c.length - 16)
    if c = m ++ List.replicate 16 0 ∧ ok n m then some m else none
  cipher_info _ := true
  cipher_setup _ _ _ := true
  cipher_update _ _ x := some x
  stream_xor_ic _ _ _ _ x := x
  murmurhash2 _ _ := 0
  malloc _ := 0

theorem tagLib_decrypt {ok : Bytes → Bytes → Bool} {M : AeadMethod} {k n c m : Bytes} :
    (tagLib ok).aead_decrypt M k n c = some m ↔ c = m ++ List.replicate 16 0 ∧ ok n m = true := by
  simp only [tagLib]
  constructor
  · intro h
    split at h
    · rename_i hc
      cases h
      exact hc
    · cases h
  · rintro ⟨rfl, hok⟩
    simp [hok]

theorem tagLib_sized (ok : Bytes → Bytes → Bool) : (tagLib ok).Sized where
  decrypt_length h := by
    rw [(tagLib_decrypt.1 h).1, List.length_append, List.length_replicate]
    rfl

theorem tagLib_encrypts (ok : Bytes → Bytes → Bool) : (tagLib ok).Encrypts :=
  fun _ _ _ m => ⟨m ++ List.replicate 16 0, rfl, by rw [List.length_append, List.length_replicate]; rfl⟩

theorem tagLib_lawful : (tagLib fun _ _ => true).Lawful where
  toSized := tagLib_sized _
  encrypts := tagLib_encrypts _
  decrypt_encrypt h := by
    cases h
    exact tagLib_decrypt.2 ⟨rfl, rfl⟩

def Buffer.ofBytes (bs : Bytes) : Buffer := ⟨0, bs.length, bs.length, fun i => bs.getD i 0⟩

def CryptoState.start : CryptoState where
  aead_encrypt_tmp := .static
  aead_decrypt_all_tmp := .static
  stream_decrypt_tmp := .static
  stream_decrypt_all_tmp := .static
  bloom := ppbloom_init 10000 7 95851

end OutlineServer
