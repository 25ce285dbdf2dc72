import OutlineServer.Aead
import OutlineServer.Lib.Deframe

/-!
# `aead_decrypt` as an incremental decoder

`aeadDeframer` is the chunk format under one subkey, with the nonce as its state. A call of `aead_decrypt`
on a keyed context drains the carried-over bytes and the input with it (`aeadDecryptChunks_eq`), and no
access of the call is out of bounds. Over any number of calls, what has been delivered is what the
concatenated input drains to (`decryptCalls_keyed`).
-/

namespace OutlineServer
open Deframer

/-- What the code relies on in the AEAD implementations: the tag has 16 bytes. -/
structure CryptoLib.Sized (L : CryptoLib) : Prop where
  decrypt_length : ∀ {M k n c m}, L.aead_decrypt M k n c = some m →
    c.length = m.length + supported_aead_ciphers_tag_size M

/-! ### Chunks -/

section
variable (L : CryptoLib) (M : AeadMethod) (skey : Bytes) (tlen : Nat)

def aeadNext (nonce b : Bytes) : Next Bytes Bytes :=
  if b.length ≤ 2 * tlen + CHUNK_SIZE_LEN then .more
  else
    match L.aead_decrypt M skey nonce (b.take (CHUNK_SIZE_LEN + tlen)) with
    | none => .fail
    | some len_buf =>
      let mlen := load16_be len_buf &&& CHUNK_SIZE_MASK
      if mlen = 0 then .fail
      else if b.length < 2 * tlen + CHUNK_SIZE_LEN + mlen then .more
      else
        match L.aead_decrypt M skey (sodium_increment nonce)
            ((b.drop (CHUNK_SIZE_LEN + tlen)).take (mlen + tlen)) with
        | none => .fail
        | some m => .item m (2 * tlen + CHUNK_SIZE_LEN + mlen) (sodium_increment (sodium_increment nonce))

variable {L M skey tlen}

theorem aeadNext_append {nonce b : Bytes} (x : Bytes) (h : aeadNext L M skey tlen nonce b ≠ .more) :
    aeadNext L M skey tlen nonce (b ++ x) = aeadNext L M skey tlen nonce b := by
  by_cases hlen : b.length ≤ 2 * tlen + CHUNK_SIZE_LEN
  · exact absurd (by simp [aeadNext, hlen]) h
  have hlen' : ¬ (b ++ x).length ≤ 2 * tlen + CHUNK_SIZE_LEN := by
    rw [List.length_append]
    omega
  have htake : (b ++ x).take (CHUNK_SIZE_LEN + tlen) = b.take (CHUNK_SIZE_LEN + tlen) :=
    List.take_append_of_le_length (by omega)
  have hdrop : (b ++ x).drop (CHUNK_SIZE_LEN + tlen) = b.drop (CHUNK_SIZE_LEN + tlen) ++ x :=
    List.drop_append_of_le_length (by omega)
  simp only [aeadNext, hlen, hlen', ↓reduceIte, htake, hdrop] at h ⊢
  cases hl : L.aead_decrypt M skey nonce (b.take (CHUNK_SIZE_LEN + tlen)) with
  | none => rfl
  | some len_buf =>
    simp only [hl] at h ⊢
    generalize load16_be len_buf &&& CHUNK_SIZE_MASK = mlen at h ⊢
    by_cases hm : mlen = 0
    · simp only [hm, ↓reduceIte]
    by_cases hlt : b.length < 2 * tlen + CHUNK_SIZE_LEN + mlen
    · simp only [hm, hlt, ↓reduceIte, ne_eq, not_true_eq_false] at h
    have hlt' : ¬ (b ++ x).length < 2 * tlen + CHUNK_SIZE_LEN + mlen := by
      rw [List.length_append]
      omega
    have hpay : (b.drop (CHUNK_SIZE_LEN + tlen) ++ x).take (mlen + tlen) =
        (b.drop (CHUNK_SIZE_LEN + tlen)).take (mlen + tlen) :=
      List.take_append_of_le_length (by rw [List.length_drop]; omega)
    simp only [hm, hlt, hlt', ↓reduceIte, hpay]

theorem aeadNext_item {nonce b m s' : Bytes} {n : Nat} (h : aeadNext L M skey tlen nonce b = .item m n s') :
    2 * tlen + CHUNK_SIZE_LEN < n ∧ n ≤ b.length ∧ s' = sodium_increment (sodium_increment nonce) := by
  simp only [aeadNext] at h
  split at h
  · cases h
  split at h
  · cases h
  split at h
  · cases h
  split at h
  · cases h
  split at h
  · cases h
  · cases h
    exact ⟨by omega, by omega, rfl⟩

/-- A chunk is two blocks, the second of them the plaintext under the next nonce. -/
theorem aeadNext_opens {nonce b m s' : Bytes} {n : Nat} (h : aeadNext L M skey tlen nonce b = .item m n s') :
    ∃ e e' len_buf, L.aead_decrypt M skey nonce e = some len_buf ∧
      L.aead_decrypt M skey (sodium_increment nonce) e' = some m := by
  simp only [aeadNext] at h
  split at h
  · cases h
  split at h
  · cases h
  rename_i hl
  split at h
  · cases h
  split at h
  · cases h
  split at h
  · cases h
  · rename_i hm
    cases h
    exact ⟨_, _, _, hl, hm⟩

variable (L M skey tlen)

def aeadDeframer : Deframer Bytes UInt8 Bytes where
  next := aeadNext L M skey tlen
  item_le h := ⟨by have := aeadNext_item h; omega, (aeadNext_item h).2.1⟩
  item_append x h := by rw [aeadNext_append x (by rw [h]; simp), h]
  fail_append x h := by rw [aeadNext_append x (by rw [h]; simp), h]

theorem aeadDeframer_nil (nonce : Bytes) : (aeadDeframer L M skey tlen).next nonce [] = .more := by
  simp [aeadDeframer, aeadNext]

end

section
variable {L : CryptoLib} {ctx : AeadCtx} {p c : Buffer} {poff coff clen : Nat}

/-- What `aead_chunk_decrypt` leaves for each answer of the chunk format. A chunk whose length block is
good and whose payload is not leaves the nonce in the middle. -/
inductive ChunkSpec (ctx : AeadCtx) (p : Buffer) (poff clen : Nat) : Next Bytes Bytes → ChunkResult → Prop
  | more (plen : Nat) : ChunkSpec ctx p poff clen .more ⟨.CRYPTO_NEED_MORE, p, ctx, plen, clen⟩
  | fail (plen : Nat) (nonce : Bytes) (h : nonce = ctx.nonce ∨ nonce = sodium_increment ctx.nonce) :
      ChunkSpec ctx p poff clen .fail ⟨.CRYPTO_ERROR, p, { ctx with nonce }, plen, clen⟩
  | item (m s' : Bytes) (hm : 0 < m.length) :
      ChunkSpec ctx p poff clen (.item m (2 * ctx.cipher.tag_len + CHUNK_SIZE_LEN + m.length) s')
        ⟨.CRYPTO_OK, { p with data := p.data.write poff m }, { ctx with nonce := s' }, m.length,
          clen - (2 * ctx.cipher.tag_len + CHUNK_SIZE_LEN + m.length)⟩

theorem aead_chunk_decrypt_spec (hL : L.Sized)
    (ht : ctx.cipher.tag_len = supported_aead_ciphers_tag_size ctx.cipher.method)
    (hc : coff + clen ≤ c.capacity) (hp : poff + clen ≤ p.capacity) :
    ∃ r, aead_chunk_decrypt L ctx p poff c coff clen = .ok r ∧
      ChunkSpec ctx p poff clen
        (aeadNext L ctx.cipher.method ctx.skey ctx.cipher.tag_len ctx.nonce (c.data.read coff clen)) r := by
  generalize htl : ctx.cipher.tag_len = tlen at ht
  by_cases hlen : clen ≤ 2 * tlen + CHUNK_SIZE_LEN
  · refine ⟨⟨.CRYPTO_NEED_MORE, p, ctx, 0, clen⟩, ?_, ?_⟩
    · simp only [aead_chunk_decrypt, htl, hlen, ↓reduceIte]
      rfl
    · simp only [aeadNext, Block.length_read, hlen, ↓reduceIte]
      exact .more 0
  have htake : (c.data.read coff clen).take (CHUNK_SIZE_LEN + tlen) =
      c.data.read coff (CHUNK_SIZE_LEN + tlen) := Block.take_read _ _ _ _ (by omega)
  simp only [aead_chunk_decrypt, aeadNext, Block.length_read, htl, hlen, ↓reduceIte, htake, C.ok_bind,
    Buffer.get_ok (show coff + (CHUNK_SIZE_LEN + tlen) ≤ c.capacity by omega), aead_cipher_decrypt]
  cases hl : L.aead_decrypt ctx.cipher.method ctx.skey ctx.nonce
      (c.data.read coff (CHUNK_SIZE_LEN + tlen)) with
  | none =>
    simp only []
    exact ⟨_, rfl, .fail 0 ctx.nonce (.inl rfl)⟩
  | some len_buf =>
    have hsize : len_buf.length = CHUNK_SIZE_LEN := by
      have := hL.decrypt_length hl
      rw [Block.length_read, ← ht] at this
      omega
    simp only [C.ok_bind, cassert_ok hsize]
    generalize load16_be len_buf &&& CHUNK_SIZE_MASK = mlen
    by_cases hm : mlen = 0
    · simp only [hm, ↓reduceIte]
      exact ⟨_, rfl, .fail _ ctx.nonce (.inl rfl)⟩
    by_cases hlt : clen < 2 * tlen + CHUNK_SIZE_LEN + mlen
    · simp only [hm, hlt, ↓reduceIte]
      exact ⟨_, rfl, .more _⟩
    have hpay : ((c.data.read coff clen).drop (CHUNK_SIZE_LEN + tlen)).take (mlen + tlen) =
        c.data.read (coff + CHUNK_SIZE_LEN + tlen) (mlen + tlen) := by
      rw [Block.drop_read _ _ _ _ (by omega), Block.take_read _ _ _ _ (by omega), Nat.add_assoc]
    simp only [hm, hlt, ↓reduceIte, hpay, C.ok_bind,
      Buffer.get_ok (show coff + CHUNK_SIZE_LEN + tlen + (mlen + tlen) ≤ c.capacity by omega)]
    cases hd : L.aead_decrypt ctx.cipher.method ctx.skey (sodium_increment ctx.nonce)
        (c.data.read (coff + CHUNK_SIZE_LEN + tlen) (mlen + tlen)) with
    | none =>
      simp only []
      exact ⟨_, rfl, .fail _ _ (.inr rfl)⟩
    | some m =>
      have hml : m.length = mlen := by
        have := hL.decrypt_length hd
        rw [Block.length_read, ← ht] at this
        omega
      subst hml
      simp only [C.ok_bind, Buffer.put_ok (show poff + m.length ≤ p.capacity by omega)]
      subst htl
      exact ⟨_, rfl, .item m _ (by omega)⟩

/-! ### The loop -/

def AeadCtx.deframer (L : CryptoLib) (ctx : AeadCtx) : Deframer Bytes UInt8 Bytes :=
  aeadDeframer L ctx.cipher.method ctx.skey ctx.cipher.tag_len

theorem len_ne_zero_of_next {nonce : Bytes} {m : Block} {off len : Nat}
    (h : (ctx.deframer L).next nonce (m.read off len) ≠ .more) : len ≠ 0 := by
  rintro rfl
  exact h (aeadDeframer_nil _ _ _ _ nonce)

/-- What the loop of `aead_decrypt` leaves, started with `plen` bytes of plaintext, when the bytes it
looks at drain to `as` and `rest` with the nonce `nonce`. -/
structure LoopSpec (ctx : AeadCtx) (ciphertext : Buffer) (plen : Nat) (as : List Bytes) (rest nonce : Bytes)
    (f : Bool) (r : LoopResult) : Prop where
  ctx_eq : ∃ n, r.ctx = { ctx with nonce := n } ∧ (n = nonce ∨ f = true ∧ n = sodium_increment nonce)
  ret_eq : r.ret = if f then some .CRYPTO_ERROR
    else if plen = 0 ∧ as = [] ∧ rest ≠ [] then some .CRYPTO_NEED_MORE else none
  fits : r.chunk.idx + r.chunk.len ≤ r.chunk.capacity
  pending_eq : f = false → r.chunk.pending = rest
  plen_eq : f = false → r.plen = plen + as.flatten.length
  read_eq : f = false → r.ciphertext.data.read 0 r.plen = ciphertext.data.read 0 plen ++ as.flatten

theorem aeadDecryptLoop_spec (hL : L.Sized) {D : Deframer Bytes UInt8 Bytes} {nonce nonce' b rest : Bytes}
    {as : List Bytes} {f : Bool} (hd : D.Drains nonce b as rest nonce' f) (ctx : AeadCtx) (fuel plen cidx : Nat)
    (ciphertext chunk : Buffer) (hD : D = ctx.deframer L)
    (ht : ctx.cipher.tag_len = supported_aead_ciphers_tag_size ctx.cipher.method) (hn : ctx.nonce = nonce)
    (hb : chunk.data.read (chunk.idx + cidx) chunk.len = b) (hfuel : chunk.len < fuel)
    (hc : chunk.idx + cidx + chunk.len ≤ chunk.capacity) (hp : plen + chunk.len ≤ ciphertext.capacity)
    (h0 : plen = 0 → cidx = 0) :
    ∃ r, aeadDecryptLoop L fuel ctx ciphertext chunk plen cidx = .ok r ∧
      LoopSpec ctx ciphertext plen as rest nonce' f r := by
  have hfits : chunk.idx + chunk.len ≤ chunk.capacity := by omega
  induction hd generalizing fuel ctx ciphertext chunk plen cidx with
  | more hnext =>
    subst hD hn hb
    obtain ⟨fuel, rfl⟩ : ∃ n, fuel = n + 1 := ⟨fuel - 1, by omega⟩
    simp only [aeadDecryptLoop]
    by_cases hlen : chunk.len = 0
    · simp only [hlen, ↓reduceIte]
      refine ⟨_, rfl, ⟨ctx.nonce, rfl, .inl rfl⟩, ?_, hfits, ?_, ?_, ?_⟩
      · simp
      · simp [Buffer.pending, hlen]
      · simp
      · simp
    obtain ⟨r, hr, hspec⟩ := aead_chunk_decrypt_spec hL ht hc hp
    rw [show aeadNext _ _ _ _ _ _ = .more from hnext] at hspec
    rcases hspec with ⟨plen'⟩
    simp only [hlen, ↓reduceIte, hr, C.ok_bind]
    have hne : chunk.data.read (chunk.idx + cidx) chunk.len ≠ [] := by
      intro h
      have := congrArg List.length h
      simp [hlen] at this
    by_cases hplen : plen = 0
    · have hcidx := h0 hplen
      subst hplen hcidx
      simp only [↓reduceIte]
      refine ⟨_, rfl, ⟨ctx.nonce, rfl, .inl rfl⟩, ?_, hc, ?_, ?_, ?_⟩
      · simpa using hne
      · simp [Buffer.pending]
      · simp
      · simp
    · simp only [hplen, ↓reduceIte]
      refine ⟨_, rfl, ⟨ctx.nonce, rfl, .inl rfl⟩, ?_, hc, ?_, ?_, ?_⟩
      · simp [hplen]
      · simp [Buffer.pending]
      · simp
      · simp
  | fail hnext =>
    subst hD hn hb
    obtain ⟨fuel, rfl⟩ : ∃ n, fuel = n + 1 := ⟨fuel - 1, by omega⟩
    have hlen : chunk.len ≠ 0 := len_ne_zero_of_next (by rw [hnext]; simp)
    obtain ⟨r, hr, hspec⟩ := aead_chunk_decrypt_spec hL ht hc hp
    rw [show aeadNext _ _ _ _ _ _ = .fail from hnext] at hspec
    rcases hspec with _ | ⟨plen', n, hn⟩
    simp only [aeadDecryptLoop, hlen, ↓reduceIte, hr, C.ok_bind]
    refine ⟨_, rfl, ⟨n, rfl, hn.imp_right fun h => ⟨rfl, h⟩⟩, rfl, hfits, ?_, ?_, ?_⟩
    all_goals simp
  | @item s s' s'' _ rest a n as f hnext hd ih =>
    subst hD hn hb
    obtain ⟨fuel, rfl⟩ : ∃ n, fuel = n + 1 := ⟨fuel - 1, by omega⟩
    have hlen : chunk.len ≠ 0 := len_ne_zero_of_next (by rw [hnext]; simp)
    obtain ⟨r, hr, hspec⟩ := aead_chunk_decrypt_spec hL ht hc hp
    have hle : n ≤ chunk.len := by simpa using (aeadNext_item hnext).2.1
    rw [show aeadNext _ _ _ _ _ _ = .item a n _ from hnext] at hspec
    rcases hspec with _ | _ | ⟨_, _, ha⟩
    generalize hk : 2 * ctx.cipher.tag_len + CHUNK_SIZE_LEN + a.length = k at hle hd ih hnext
    have hk' : ctx.cipher.tag_len * 2 + CHUNK_SIZE_LEN + a.length = k := by omega
    simp only [aeadDecryptLoop, hlen, ↓reduceIte, hr, C.ok_bind, hk, hk']
    -- the loop goes on after the chunk, with the plaintext of the chunk written
    obtain ⟨r', hr', hspec⟩ := ih { ctx with nonce := s' } fuel (plen + a.length) (cidx + k)
      { ciphertext with data := ciphertext.data.write plen a } { chunk with len := chunk.len - k } rfl ht rfl
      (by rw [Block.drop_read _ _ _ _ hle, Nat.add_assoc]) (by simp only; omega) (by simp only; omega)
      (by simp only; omega) (by omega) (by simp only; omega)
    refine ⟨r', hr', hspec.ctx_eq, ?_, hspec.fits, hspec.pending_eq, ?_, ?_⟩
    · rw [hspec.ret_eq]
      have hne := List.ne_nil_of_length_pos ha
      simp [hne]
    · intro hf
      rw [hspec.plen_eq hf, List.flatten_cons, List.length_append, Nat.add_assoc]
    · intro hf
      rw [hspec.read_eq hf, List.flatten_cons, ← List.append_assoc]
      congr 1
      simpa using Block.read_write_append ciphertext.data plen 0 a (Nat.zero_le _)

/-! ### One call -/

theorem aeadDecryptMove_spec {chunk : Buffer} (hck : chunk.idx + chunk.len ≤ chunk.capacity) :
    ∃ ck, aeadDecryptMove chunk = .ok ck ∧ ck.idx = 0 ∧ ck.len = chunk.len ∧ ck.len ≤ ck.capacity ∧
      ck.data.read 0 ck.len = chunk.pending := by
  simp only [aeadDecryptMove]
  split
  · rw [Buffer.get_ok hck, C.ok_bind, Buffer.put_ok (by rw [Block.length_read]; omega), C.ok_bind]
    refine ⟨_, rfl, rfl, rfl, by simp only; omega, ?_⟩
    have h := Block.read_write_same chunk.data 0 chunk.pending
    rwa [Buffer.length_pending] at h
  · have h0 : chunk.idx = 0 := by omega
    exact ⟨chunk, rfl, h0, rfl, by omega, by rw [Buffer.pending, h0]⟩

/-- The head of `aead_decrypt` brings the carried-over bytes and the input together at the start of `chunk`,
and leaves room for them in the other buffer. -/
theorem aeadDecryptFill_spec {ciphertext chunk : Buffer} (hct : ciphertext.len ≤ ciphertext.capacity)
    (hck : chunk.idx + chunk.len ≤ chunk.capacity) (capacity : Nat) :
    ∃ ct ck, aeadDecryptFill ciphertext chunk capacity = .ok (ct, ck) ∧
      ck.idx = 0 ∧ ck.len ≤ ck.capacity ∧ ck.pending = chunk.pending ++ ciphertext.bytes ∧ ck.len ≤ ct.capacity := by
  simp only [aeadDecryptFill]
  split
  · rename_i h0
    obtain ⟨c, hc, -, hlen⟩ := brealloc_eq
      { ciphertext with len := 0, data := chunk.data, capacity := chunk.capacity } ciphertext.len capacity
    refine ⟨_, _, rfl, rfl, hct, ?_, ?_⟩
    · simp [Buffer.pending, Buffer.bytes, h0, bswap_data]
    · simp only [bswap_data] at hc ⊢
      rw [hc]
      exact hlen
  · obtain ⟨ck, hmove, hidx, -, -, hread⟩ := aeadDecryptMove_spec hck
    obtain ⟨c, hc, -, hroom⟩ := brealloc_eq ck (ck.len + ciphertext.len) capacity
    obtain ⟨d, hd, -, hout⟩ := brealloc_eq ciphertext (ck.len + ciphertext.len) capacity
    simp only [hmove, C.ok_bind, hc, Buffer.get_ok (show 0 + ciphertext.len ≤ ciphertext.capacity by omega)]
    rw [Buffer.put_ok (by simpa using hroom), C.ok_bind]
    refine ⟨_, _, rfl, hidx, hroom, ?_, ?_⟩
    · have h := Block.read_write_append ck.data ck.len 0 ciphertext.bytes (Nat.zero_le _)
      rw [Nat.sub_zero, Buffer.length_bytes, hread] at h
      simpa [Buffer.pending, Buffer.bytes, hidx] using h
    · simp only [hd]
      exact hout

/-- What `aead_decrypt` leaves on a context that has its key, when the carried-over bytes and the input
drain to `as` and `rest` with the nonce `nonce`. -/
inductive ChunksSpec (L : CryptoLib) (g : CryptoState) (ctx : AeadCtx) (as : List Bytes) (rest nonce : Bytes) :
    Bool → CryptoRet → Buffer → AeadCtx → CryptoState → Prop
  | fail (n : Bytes) (ct ck : Buffer) (hn : n = nonce ∨ n = sodium_increment nonce) :
      ChunksSpec L g ctx as rest nonce true .CRYPTO_ERROR ct { ctx with nonce := n, chunk := some ck } g
  | more (ct ck : Buffer) (has : as = []) (hrest : rest ≠ []) (hck : ck.pending = rest)
      (hfits : ck.idx + ck.len ≤ ck.capacity) :
      ChunksSpec L g ctx as rest nonce false .CRYPTO_NEED_MORE ct { ctx with nonce, chunk := some ck } g
  | again (ct ck : Buffer) (hinit : ctx.init = 1) (hcheck : ppbloom_check L.murmurhash2 g.bloom ctx.salt = 1) :
      ChunksSpec L g ctx as rest nonce false .CRYPTO_ERROR ct { ctx with nonce, chunk := some ck } g
  | first (ct ck : Buffer) (hinit : ctx.init = 1) (hcheck : ppbloom_check L.murmurhash2 g.bloom ctx.salt ≠ 1)
      (hct : ct.bytes = as.flatten) (hck : ck.pending = rest) (hfits : ck.idx + ck.len ≤ ck.capacity) :
      ChunksSpec L g ctx as rest nonce false .CRYPTO_OK ct { ctx with nonce, chunk := some ck, init := 2 }
        { g with bloom := ppbloom_add L.murmurhash2 g.bloom ctx.salt }
  | ok (ct ck : Buffer) (hinit : ctx.init ≠ 1) (hct : ct.bytes = as.flatten) (hck : ck.pending = rest)
      (hfits : ck.idx + ck.len ≤ ck.capacity) :
      ChunksSpec L g ctx as rest nonce false .CRYPTO_OK ct { ctx with nonce, chunk := some ck } g

theorem aeadDecryptChunks_spec (hL : L.Sized) (ctx : AeadCtx) (ciphertext chunk : Buffer) {as : List Bytes}
    {rest nonce : Bytes} {f : Bool} (ht : ctx.cipher.tag_len = supported_aead_ciphers_tag_size ctx.cipher.method)
    (hd : (ctx.deframer L).Drains ctx.nonce chunk.pending as rest nonce f)
    (hck : chunk.idx + chunk.len ≤ chunk.capacity) (hct : chunk.len ≤ ciphertext.capacity) (g : CryptoState) :
    ∃ ret ct ctx' g', aeadDecryptChunks L g ciphertext ctx chunk = .ok (ret, ct, ctx', g') ∧
      ChunksSpec L g ctx as rest nonce f ret ct ctx' g' := by
  obtain ⟨⟨ret, ct, ck, ctx', plen⟩, hr, hspec⟩ := aeadDecryptLoop_spec hL hd ctx (chunk.len + 1) 0 0
    ciphertext chunk rfl ht rfl rfl (by omega) hck (by omega) (fun _ => rfl)
  obtain ⟨⟨n, hctx, hn⟩, hret, hfits, hpend, hplen, hread⟩ := hspec
  simp only at hctx hret hfits hpend hplen hread
  subst hctx hret
  simp only [aeadDecryptChunks, hr, C.ok_bind]
  rcases f with _ | _
  · have hn : n = nonce := by simpa using hn
    subst hn
    have hplen := hplen rfl
    have hread := hread rfl
    have hpend := hpend rfl
    by_cases hmore : as = [] ∧ rest ≠ []
    · simp only [hmore, Bool.false_eq_true, ↓reduceIte, ne_eq, not_false_eq_true, and_self]
      exact ⟨_, _, _, _, rfl, .more ct ck rfl hmore.2 hpend hfits⟩
    simp only [hmore, Bool.false_eq_true, ↓reduceIte, and_false]
    -- `idx` is reset when nothing is left
    obtain ⟨ck', hck', hpend', hfits'⟩ : ∃ ck', (if ck.len = 0 then { ck with idx := 0 } else ck) = ck' ∧
        ck'.pending = rest ∧ ck'.idx + ck'.len ≤ ck'.capacity := by
      refine ⟨_, rfl, ?_, ?_⟩
      · split
        · rename_i h0
          rw [← hpend]
          simp [Buffer.pending, h0]
        · exact hpend
      · split
        · simp only; omega
        · exact hfits
    rw [hck']
    have hout : ({ ct with len := plen } : Buffer).bytes = as.flatten := by simpa [Buffer.bytes] using hread
    by_cases hinit : ctx.init = 1
    · by_cases hcheck : ppbloom_check L.murmurhash2 g.bloom ctx.salt = 1
      · simp only [hinit, hcheck, ↓reduceIte]
        exact ⟨_, _, _, _, rfl, hinit ▸ .again _ _ hinit hcheck⟩
      · simp only [hinit, hcheck, ↓reduceIte]
        exact ⟨_, _, _, _, rfl, .first _ _ hinit hcheck hout hpend' hfits'⟩
    · simp only [hinit, ↓reduceIte]
      exact ⟨_, _, _, _, rfl, .ok _ _ hinit hout hpend' hfits'⟩
  · simp only [↓reduceIte]
    exact ⟨_, _, _, _, rfl, .fail n ct ck (by simpa using hn)⟩

end

/-! ### A context and the stream it has been fed -/

def aeadSubkey (L : CryptoLib) (cipher : Cipher AeadMethod) (salt : Bytes) : Bytes :=
  (crypto_hkdf L salt cipher.key SUBKEY_INFO cipher.key_len).getD []

def aeadStream (L : CryptoLib) (cipher : Cipher AeadMethod) (salt : Bytes) : Deframer Bytes UInt8 Bytes :=
  aeadDeframer L cipher.method (aeadSubkey L cipher salt) cipher.tag_len

def AeadCtx.pending (ctx : AeadCtx) : Bytes := ctx.chunk.elim [] Buffer.pending

/-- The context `ctx` of `cipher` has been fed `fed` and has delivered `as`: it waits for the salt, or holds
what the bytes behind the salt drain to. -/
inductive Receives (L : CryptoLib) (cipher : Cipher AeadMethod) (fed : Bytes) : List Bytes → AeadCtx → Prop
  | unsalted {ctx : AeadCtx} (hc : ctx.cipher = cipher) (hinit : ctx.init = 0)
      (hfits : ∀ b ∈ ctx.chunk, b.idx + b.len ≤ b.capacity) (hfed : fed.length ≤ cipher.key_len)
      (hpend : ctx.pending = fed) (hnonce : ctx.nonce = LeCounter.zero cipher.nonce_len) : Receives L cipher fed [] ctx
  | keyed {ctx : AeadCtx} {as : List Bytes} (hc : ctx.cipher = cipher) (hinit : ctx.init = 1 ∧ as = [] ∨ ctx.init = 2)
      (hfits : ∀ b ∈ ctx.chunk, b.idx + b.len ≤ b.capacity) (hfed : cipher.key_len < fed.length)
      (hsalt : ctx.salt = fed.take cipher.key_len) (hskey : ctx.skey = aeadSubkey L cipher ctx.salt)
      (hd : (aeadStream L cipher (fed.take cipher.key_len)).Drains (LeCounter.zero cipher.nonce_len)
        (fed.drop cipher.key_len) as ctx.pending ctx.nonce false) : Receives L cipher fed as ctx

/-- What a call of `aead_decrypt` leaves, when the context has now been fed `fed`. Before the call it had
delivered `as` and had `init = init₀`. -/
inductive CallSpec (L : CryptoLib) (cipher : Cipher AeadMethod) (g : CryptoState) (fed : Bytes) (as : List Bytes)
    (init₀ : Nat) : CryptoRet → Buffer → AeadCtx → CryptoState → Prop
  | again {ct : Buffer} {ctx : AeadCtx} (hinit : init₀ ≠ 2) (hfed : cipher.key_len < fed.length)
      (hcheck : ppbloom_check L.murmurhash2 g.bloom (fed.take cipher.key_len) = 1) :
      CallSpec L cipher g fed as init₀ .CRYPTO_ERROR ct ctx g
  | fail {ct : Buffer} {ctx : AeadCtx} {as' : List Bytes} {rest nonce : Bytes} (hfed : cipher.key_len < fed.length)
      (hd : (aeadStream L cipher (fed.take cipher.key_len)).Drains (LeCounter.zero cipher.nonce_len)
        (fed.drop cipher.key_len) (as ++ as') rest nonce true) :
      CallSpec L cipher g fed as init₀ .CRYPTO_ERROR ct ctx g
  | more {ct : Buffer} {ctx : AeadCtx} (hinit : ctx.init = 2 ↔ init₀ = 2) (h : Receives L cipher fed as ctx) :
      CallSpec L cipher g fed as init₀ .CRYPTO_NEED_MORE ct ctx g
  | first {ct : Buffer} {ctx : AeadCtx} {as' : List Bytes} (hinit : init₀ ≠ 2) (hinit' : ctx.init = 2)
      (hcheck : ppbloom_check L.murmurhash2 g.bloom (fed.take cipher.key_len) ≠ 1)
      (hct : ct.bytes = as'.flatten) (h : Receives L cipher fed (as ++ as') ctx) :
      CallSpec L cipher g fed as init₀ .CRYPTO_OK ct ctx
        { g with bloom := ppbloom_add L.murmurhash2 g.bloom (fed.take cipher.key_len) }
  | ok {ct : Buffer} {ctx : AeadCtx} {as' : List Bytes} (hinit : init₀ = 2) (hinit' : ctx.init = 2)
      (hct : ct.bytes = as'.flatten) (h : Receives L cipher fed (as ++ as') ctx) :
      CallSpec L cipher g fed as init₀ .CRYPTO_OK ct ctx g

section
variable {L : CryptoLib} {cipher : Cipher AeadMethod} {ctx : AeadCtx} {g : CryptoState} {fed : Bytes}
  {as : List Bytes}

theorem ChunksSpec.callSpec {as' : List Bytes} {rest nonce : Bytes} {f : Bool} {ret : CryptoRet} {ct : Buffer}
    {ctx' : AeadCtx} {g' : CryptoState} {init₀ : Nat} (h : ChunksSpec L g ctx as' rest nonce f ret ct ctx' g')
    (hc : ctx.cipher = cipher) (hinit : ctx.init = 1 ∧ as = [] ∨ ctx.init = 2) (hinit₀ : ctx.init = 2 ↔ init₀ = 2)
    (hfed : cipher.key_len < fed.length) (hsalt : ctx.salt = fed.take cipher.key_len)
    (hskey : ctx.skey = aeadSubkey L cipher ctx.salt)
    (hd : (aeadStream L cipher (fed.take cipher.key_len)).Drains (LeCounter.zero cipher.nonce_len)
      (fed.drop cipher.key_len) (as ++ as') rest nonce f) :
    CallSpec L cipher g fed as init₀ ret ct ctx' g' := by
  rcases h with ⟨n, ct, ck, hn⟩ | ⟨ct, ck, has, hrest, hck, hfits⟩ | ⟨ct, ck, h1, hcheck⟩ |
    ⟨ct, ck, h1, hcheck, hct, hck, hfits⟩ | ⟨ct, ck, h1, hct, hck, hfits⟩
  · exact .fail hfed hd
  · subst has
    rw [List.append_nil] at hd
    refine .more hinit₀ (.keyed hc hinit ?_ hfed hsalt hskey ?_)
    · simpa using hfits
    · simpa [AeadCtx.pending, hck] using hd
  · rw [hsalt] at hcheck
    exact .again (by omega) hfed hcheck
  · rw [hsalt] at hcheck
    have hR : Receives L cipher fed (as ++ as') { ctx with nonce, chunk := some ck, init := 2 } := by
      refine .keyed hc (.inr rfl) ?_ hfed hsalt hskey ?_
      · simpa using hfits
      · simpa [AeadCtx.pending, hck] using hd
    have hfirst : CallSpec L cipher g fed as init₀ .CRYPTO_OK ct _ _ := .first (by omega) rfl hcheck hct hR
    rwa [← hsalt] at hfirst
  · have h2 : ctx.init = 2 := by omega
    refine .ok (hinit₀.1 h2) h2 hct (.keyed hc (.inr h2) ?_ hfed hsalt hskey ?_)
    · simpa using hfits
    · simpa [AeadCtx.pending, hck] using hd

theorem aead_cipher_ctx_set_key_eq (h : ctx.cipher.key_len ≤ 255 * 20) :
    aead_cipher_ctx_set_key L ctx = .ok { ctx with
      skey := aeadSubkey L ctx.cipher ctx.salt, nonce := LeCounter.zero ctx.cipher.nonce_len } := by
  have hN : ¬ 255 < ctx.cipher.key_len / 20 + if ctx.cipher.key_len % 20 ≠ 0 then 1 else 0 := by
    split <;> omega
  simp only [aead_cipher_ctx_set_key, aeadSubkey, crypto_hkdf, crypto_hkdf_expand, hN, ↓reduceIte, Option.getD_some]

theorem aead_cipher_ctx_set_key_ok {ctx' : AeadCtx} (h : aead_cipher_ctx_set_key L ctx = .ok ctx') :
    ctx' = { ctx with
      skey := aeadSubkey L ctx.cipher ctx.salt, nonce := LeCounter.zero ctx.cipher.nonce_len } := by
  rw [aead_cipher_ctx_set_key] at h
  rw [aeadSubkey]
  split at h
  · cases h
  · rename_i hk
    cases h
    rw [hk, Option.getD_some]

structure Cipher.Supported (cipher : Cipher AeadMethod) : Prop where
  key_len : cipher.key_len ≤ 32
  tag_len : cipher.tag_len = supported_aead_ciphers_tag_size cipher.method

theorem supported_aead_key_init (M : AeadMethod) (key : Bytes) : (aead_key_init M key).Supported where
  key_len := by cases M <;> simp [aead_key_init, supported_aead_ciphers_key_size]
  tag_len := rfl

/-- The carried-over bytes, in a `chunk` that is allocated now if there was none. -/
theorem AeadCtx.chunk_getD (L : CryptoLib) (ctx : AeadCtx) (hfits : ∀ b ∈ ctx.chunk, b.idx + b.len ≤ b.capacity)
    (capacity : Nat) :
    (ctx.chunk.getD (balloc L.malloc capacity)).idx + (ctx.chunk.getD (balloc L.malloc capacity)).len ≤
        (ctx.chunk.getD (balloc L.malloc capacity)).capacity ∧
      (ctx.chunk.getD (balloc L.malloc capacity)).pending = ctx.pending := by
  rcases hck : ctx.chunk with _ | b
  · exact ⟨Nat.zero_le _, by simp [AeadCtx.pending, hck, Buffer.pending, balloc]⟩
  · exact ⟨hfits b hck, by simp [AeadCtx.pending, hck]⟩

/-- One call of `aead_decrypt` takes the context from what it has been fed to that and the input. -/
theorem aead_decrypt_spec (hL : L.Sized) (hs : cipher.Supported) {b : Buffer} (hb : b.len ≤ b.capacity)
    (h : Receives L cipher fed as ctx) (g : CryptoState) (capacity : Nat) :
    ∃ ret ct ctx' g', aead_decrypt L g b ctx capacity = .ok (ret, ct, ctx', g') ∧
      CallSpec L cipher g (fed ++ b.bytes) as ctx.init ret ct ctx' g' := by
  have hchunk := ctx.chunk_getD L (by rcases h with ⟨-, -, h, -⟩ | ⟨-, -, h, -⟩ <;> exact h) capacity
  obtain ⟨ct, ck, hfill, hidx, hfits, hpend, hroom⟩ := aeadDecryptFill_spec hb hchunk.1 capacity
  rw [hchunk.2] at hpend
  have hlen : (ctx.pending ++ b.bytes).length = ck.len := by rw [← hpend, Buffer.length_pending]
  rcases h with ⟨hc, hinit, -, hfed, hp, hnonce⟩ | ⟨hc, hinit, -, hfed, hsalt, hskey, hd⟩
  · subst hc
    rw [hp] at hpend hlen
    simp only [aead_decrypt, hfill, C.ok_bind, hinit, ↓reduceIte]
    by_cases hle : ck.len ≤ ctx.cipher.key_len
    · simp only [hle, ↓reduceIte]
      refine ⟨_, _, _, _, rfl, .more (by simp) (.unsalted rfl rfl ?_ (by omega) ?_ hnonce)⟩
      · simpa [hidx] using hfits
      · simpa [AeadCtx.pending] using hpend
    have htake : ck.data.read ck.idx ctx.cipher.key_len = (fed ++ b.bytes).take ctx.cipher.key_len := by
      rw [← hpend, Buffer.pending, Block.take_read _ _ _ _ (by omega)]
    simp only [hle, ↓reduceIte, Buffer.get_ok (show ck.idx + ctx.cipher.key_len ≤ ck.capacity by omega), C.ok_bind,
      htake]
    by_cases hcheck : ppbloom_check L.murmurhash2 g.bloom ((fed ++ b.bytes).take ctx.cipher.key_len) = 1
    · simp only [hcheck, ↓reduceIte]
      exact ⟨_, _, _, _, rfl, .again (by omega) (by omega) hcheck⟩
    simp only [hcheck, ↓reduceIte]
    rw [aead_cipher_ctx_set_key_eq (by have := hs.key_len; simp only; omega), C.ok_bind]
    have hrest : ({ ck with idx := ck.idx + ctx.cipher.key_len, len := ck.len - ctx.cipher.key_len } :
        Buffer).pending = (fed ++ b.bytes).drop ctx.cipher.key_len := by
      rw [← hpend, Buffer.pending, Buffer.pending, Block.drop_read _ _ _ _ (by omega)]
    obtain ⟨as, rest, n, f, hd⟩ := exists_drains
      (aeadStream L ctx.cipher ((fed ++ b.bytes).take ctx.cipher.key_len)) (LeCounter.zero ctx.cipher.nonce_len)
      ((fed ++ b.bytes).drop ctx.cipher.key_len)
    obtain ⟨ret, ct, ctx', g', hr, hspec⟩ := aeadDecryptChunks_spec hL { ctx with
        salt := (fed ++ b.bytes).take ctx.cipher.key_len
        skey := aeadSubkey L ctx.cipher ((fed ++ b.bytes).take ctx.cipher.key_len)
        nonce := LeCounter.zero ctx.cipher.nonce_len
        init := 1 } ct { ck with idx := ck.idx + ctx.cipher.key_len, len := ck.len - ctx.cipher.key_len } hs.tag_len
          (by rw [hrest]; exact hd) (by simp only; omega) (by simp only; omega) g
    exact ⟨ret, ct, ctx', g', hr, hspec.callSpec rfl (.inl ⟨rfl, rfl⟩) (by simp) (by omega) rfl rfl hd⟩
  · subst hc
    have hne : ctx.init ≠ 0 := by omega
    simp only [aead_decrypt, hfill, C.ok_bind, hne, ↓reduceIte]
    have htake : (fed ++ b.bytes).take ctx.cipher.key_len = fed.take ctx.cipher.key_len :=
      List.take_append_of_le_length (by omega)
    obtain ⟨as', rest, n, f, hd'⟩ := exists_drains (ctx.deframer L) ctx.nonce (ctx.pending ++ b.bytes)
    have hstream : ctx.deframer L = aeadStream L ctx.cipher (fed.take ctx.cipher.key_len) := by
      rw [AeadCtx.deframer, aeadStream, hskey, hsalt]
    obtain ⟨ret, ct, ctx', g', hr, hspec⟩ := aeadDecryptChunks_spec hL ctx ct ck
      hs.tag_len (by rw [hpend]; exact hd') (by omega) hroom g
    refine ⟨ret, ct, ctx', g', hr, hspec.callSpec rfl hinit Iff.rfl (by simp; omega) (by rw [hsalt, htake]) hskey ?_⟩
    rw [htake, List.drop_append_of_le_length (by omega)]
    rw [hstream] at hd'
    exact hd.append hd'

end

end OutlineServer
