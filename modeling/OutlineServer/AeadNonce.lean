import Mathlib.Data.List.Nodup
import OutlineServer.AeadStream

/-!
# Nonces and blocks

A chunk takes two nonces (`chunkNonce`), so both peers are at the nonce `2 * k` after `k` chunks, as a
number of `nonce_len` bytes. Up to `256 ^ nonce_len / 2` chunks the nonces of a sender are distinct
(`nodup_blocksFrom`), and with fewer of them a receiver under an ideal cipher can only decrypt them in the
order in which they were sent (`only_sent`).
-/

namespace OutlineServer
open Deframer

theorem chunkNonce_iterate (k : Nat) : chunkNonce^[k] = LeCounter.incr^[2 * k] :=
  (Function.iterate_mul LeCounter.incr 2 k).symm

section
variable {skey n n' x : Bytes} {ms : List Bytes}

/-- Block `2 * i` is the length of chunk `i`, block `2 * i + 1` its plaintext. -/
theorem getElem?_blocksFrom (skey n : Bytes) {i : Nat} {m : Bytes} (h : ms[i]? = some m) :
    (blocksFrom skey n ms)[2 * i]? = some (skey, LeCounter.incr^[2 * i] n, store16_be m.length) ∧
      (blocksFrom skey n ms)[2 * i + 1]? = some (skey, LeCounter.incr^[2 * i + 1] n, m) := by
  induction ms generalizing n i with
  | nil => cases h
  | cons m' ms ih =>
    rcases i with _ | i
    · cases h
      exact ⟨rfl, rfl⟩
    · exact ih _ h

theorem mem_blocksFrom {skey' : Bytes} (h : (skey', n', x) ∈ blocksFrom skey n ms) :
    ∃ i m, ms[i]? = some m ∧ skey' = skey ∧
      (n' = LeCounter.incr^[2 * i] n ∧ x = store16_be m.length ∨ n' = LeCounter.incr^[2 * i + 1] n ∧ x = m) := by
  induction ms generalizing n with
  | nil => cases h
  | cons m ms ih =>
    rcases List.mem_cons.1 h with h | h
    · cases h
      exact ⟨0, m, rfl, rfl, .inl ⟨rfl, rfl⟩⟩
    rcases List.mem_cons.1 h with h | h
    · cases h
      exact ⟨0, _, rfl, rfl, .inr ⟨rfl, rfl⟩⟩
    · obtain ⟨i, m', hm', hk, hi⟩ := ih h
      exact ⟨i + 1, m', hm', hk, hi⟩

theorem blocksFrom_nonces (skey n : Bytes) (ms : List Bytes) : (blocksFrom skey n ms).map (fun b => (b.1, b.2.1)) =
    (List.range (2 * ms.length)).map fun i => (skey, LeCounter.incr^[i] n) := by
  induction ms generalizing n with
  | nil => rfl
  | cons m ms ih =>
    rw [show 2 * (m :: ms).length = 2 * ms.length + 1 + 1 by rw [List.length_cons]; omega,
      List.range_succ_eq_map, List.range_succ_eq_map, blocksFrom]
    simp only [List.map_cons, List.map_map, ih]
    rfl

theorem nodup_blocksFrom {k : Nat} (h : 2 * ms.length ≤ 256 ^ k) :
    ((blocksFrom skey (LeCounter.zero k) ms).map fun b => (b.1, b.2.1)).Nodup := by
  rw [blocksFrom_nonces]
  refine List.Nodup.map_on ?_ List.nodup_range
  intro i hi j hj hij
  have hi := List.mem_range.1 hi
  have hj := List.mem_range.1 hj
  exact LeCounter.iterate_incr_inj (by omega) (by omega) (Prod.mk.inj hij).2

/-- Nothing but the chunks of `ms`, in their order, can be decrypted. -/
theorem only_sent {L : CryptoLib} {M : AeadMethod} {tlen k : Nat} (hms : 2 * ms.length < 256 ^ k)
    (hideal : ∀ n c m, L.aead_decrypt M skey n c = some m → (skey, n, m) ∈ blocksFrom skey (LeCounter.zero k) ms) :
    (aeadDeframer L M skey tlen).Only chunkNonce (LeCounter.zero k) ms := by
  intro j hj b m n s' h
  obtain ⟨e, e', len_buf, hl, hm⟩ := aeadNext_opens h
  rw [chunkNonce_iterate] at hl hm
  -- the length block is that of a chunk, which can only be chunk `j`
  obtain ⟨i, m', hm', -, hi⟩ := mem_blocksFrom (hideal _ _ _ hl)
  have hlt := (List.getElem?_eq_some_iff.1 hm').1
  have hij : i = j := by
    rcases hi with ⟨hi, -⟩ | ⟨hi, -⟩
    · have := LeCounter.iterate_incr_inj (by omega) (by omega) hi
      omega
    · have := LeCounter.iterate_incr_inj (by omega) (by omega) hi
      omega
  subst hij
  -- and so is the block behind it
  obtain ⟨i', m₂, hm₂, -, hi'⟩ := mem_blocksFrom (hideal _ _ _ hm)
  have hlt' := (List.getElem?_eq_some_iff.1 hm₂).1
  have hsucc : sodium_increment (LeCounter.incr^[2 * i] (LeCounter.zero k)) =
      LeCounter.incr^[2 * i + 1] (LeCounter.zero k) :=
    (Function.iterate_succ_apply' LeCounter.incr (2 * i) _).symm
  rw [hsucc] at hi'
  rcases hi' with ⟨hi', -⟩ | ⟨hi', rfl⟩
  · have := LeCounter.iterate_incr_inj (by omega) (by omega) hi'
    omega
  · have := LeCounter.iterate_incr_inj (by omega) (by omega) hi'
    obtain rfl : i' = i := by omega
    refine ⟨hm₂, ?_⟩
    rw [(aeadNext_item h).2.2, Function.iterate_succ_apply']
    rfl

end

/-! ### A sender and a receiver -/

section
variable {L : CryptoLib} {M : AeadMethod} {key salt : Bytes} {plain segs : List Buffer} {capacity : Nat}
  {g g' : CryptoState}

theorem sender_blocks {cs : List (CryptoRet × Bytes)} {sctx : AeadCtx}
    (hsalt : salt.length = supported_aead_ciphers_key_size M)
    (h : encryptCalls L capacity g (aead_ctx_init (aead_key_init M key) (some salt)) plain = .ok (cs, sctx, g'))
    (hok : ∀ c ∈ cs, c.1 = .CRYPTO_OK) :
    sctx.nonce = chunkNonce^[(chunkPlains plain).length] (LeCounter.zero (supported_aead_ciphers_nonce_size M)) ∧
      sctx.sealed = blocksFrom (aeadSubkey L (aead_key_init M key) salt)
        (LeCounter.zero (supported_aead_ciphers_nonce_size M)) (chunkPlains plain) := by
  rcases encryptCalls_sealed hsalt h hok with ⟨hnil, rfl⟩ | rfl
  · rw [hnil]
    exact ⟨rfl, rfl⟩
  · exact ⟨rfl, rfl⟩

theorem aeadStream_after {cipher : Cipher AeadMethod} (s b m : Bytes) (n : Nat) (s' : Bytes)
    (h : (aeadStream L cipher salt).next s b = .item m n s') : s' = chunkNonce s :=
  (aeadNext_item h).2.2

theorem Receives.nonce_eq {cipher : Cipher AeadMethod} {fed : Bytes} {as : List Bytes} {ctx : AeadCtx}
    (h : Receives L cipher fed as ctx) : ctx.nonce = chunkNonce^[as.length] (LeCounter.zero cipher.nonce_len) := by
  rcases h with ⟨-, -, -, -, -, hn⟩ | ⟨-, -, -, -, -, -, hd⟩
  · exact hn
  · exact hd.state_eq aeadStream_after

theorem val_chunkNonce (n k : Nat) : LeCounter.val (chunkNonce^[k] (LeCounter.zero n)) = 2 * k % 256 ^ n := by
  rw [chunkNonce_iterate, LeCounter.val_iterate_zero]

/-- The nonce with the number `i`, modulo `256 ^ nonce_len`. -/
def AeadMethod.nonce (M : AeadMethod) (i : Nat) : Bytes :=
  LeCounter.incr^[i] (LeCounter.zero (supported_aead_ciphers_nonce_size M))

/-- The blocks that a sender seals, and those that a receiver opens, are numbered by their nonces. -/
theorem nonce_discipline (L : CryptoLib) (M : AeadMethod) (key salt : Bytes)
    (hsalt : salt.length = supported_aead_ciphers_key_size M) :
    (∀ capacity g plain cs sctx g',
      encryptCalls L capacity g (aead_ctx_init (aead_key_init M key) (some salt)) plain = .ok (cs, sctx, g') →
      (∀ c ∈ cs, c.1 = .CRYPTO_OK) →
        LeCounter.val sctx.nonce = 2 * (chunkPlains plain).length % 256 ^ supported_aead_ciphers_nonce_size M ∧
        sctx.sealed.length = 2 * (chunkPlains plain).length ∧
        (∀ i m, (chunkPlains plain)[i]? = some m →
          sctx.sealed[2 * i]? =
            some (aeadSubkey L (aead_key_init M key) salt, M.nonce (2 * i), store16_be m.length) ∧
          sctx.sealed[2 * i + 1]? = some (aeadSubkey L (aead_key_init M key) salt, M.nonce (2 * i + 1), m)) ∧
        (2 * (chunkPlains plain).length ≤ 256 ^ supported_aead_ciphers_nonce_size M →
          (sctx.sealed.map fun b => (b.1, b.2.1)).Nodup)) ∧
    (L.Sized → ∀ capacity g segs rs rctx g', (∀ b ∈ segs, b.len ≤ b.capacity) →
      decryptCalls L capacity g (aead_ctx_init (aead_key_init M key) none) segs = .ok (rs, rctx, g') →
      (∀ r ∈ rs, r.1 ≠ .CRYPTO_ERROR) →
        ∃ ms, Receives L (aead_key_init M key) (fedBytes segs) ms rctx ∧ delivered rs = ms.flatten ∧
          LeCounter.val rctx.nonce = 2 * ms.length % 256 ^ supported_aead_ciphers_nonce_size M ∧
          ∀ i m, ms[i]? = some m → ∃ e e' len_buf,
            L.aead_decrypt M rctx.skey (M.nonce (2 * i)) e = some len_buf ∧
            L.aead_decrypt M rctx.skey (M.nonce (2 * i + 1)) e' = some m) := by
  constructor
  · intro capacity g plain cs sctx g' h hok
    obtain ⟨hnonce, hsealed⟩ := sender_blocks hsalt h hok
    rw [hnonce, hsealed]
    refine ⟨val_chunkNonce _ _, ?_, fun i m => getElem?_blocksFrom _ _, nodup_blocksFrom⟩
    have h := congrArg List.length (blocksFrom_nonces (aeadSubkey L (aead_key_init M key) salt)
      (LeCounter.zero (supported_aead_ciphers_nonce_size M)) (chunkPlains plain))
    simpa using h
  · intro hL capacity g segs rs rctx g' hsegs h hok
    obtain ⟨rs', ctx', gr', fed', ms, ctx₁, hrun, -, hR, hdel, hall⟩ :=
      decryptCalls_spec hL (supported_aead_key_init M key) hsegs (receives_init L _) g capacity
    rw [h] at hrun
    cases hrun
    obtain ⟨-, rfl, rfl⟩ := hall hok
    simp only [List.nil_append] at hR
    refine ⟨ms, hR, hdel, ?_, ?_⟩
    · rw [hR.nonce_eq]
      exact val_chunkNonce _ _
    · intro i m hm
      rcases hR with _ | ⟨hc, -, -, -, hs, hskey, hd⟩
      · cases hm
      obtain ⟨b, n, hnext⟩ := hd.exists_next aeadStream_after hm
      obtain ⟨e, e', len_buf, hl, hp⟩ := aeadNext_opens hnext
      rw [chunkNonce_iterate] at hl hp
      rw [hskey, hs, AeadMethod.nonce, AeadMethod.nonce, Function.iterate_succ_apply']
      exact ⟨e, e', len_buf, hl, hp⟩

end

theorem nonce_discipline_tagLib :
    ∃ cs sctx g', encryptCalls (tagLib fun _ _ => true) SOCKET_BUF_SIZE .start
        (aead_ctx_init (aead_key_init .AES128GCM (List.replicate 16 1)) (some (List.replicate 16 2)))
        [Buffer.ofBytes [3], Buffer.ofBytes [4, 5]] = .ok (cs, sctx, g') ∧
      LeCounter.val sctx.nonce = 4 ∧ (sctx.sealed.map fun b => (b.1, b.2.1)).Nodup := by
  obtain ⟨cs, sctx, g', h, hok⟩ := encryptCalls_total (tagLib_encrypts fun _ _ => true)
    (aead_ctx_init (aead_key_init .AES128GCM (List.replicate 16 1)) (some (List.replicate 16 2)))
    (supported_aead_key_init _ _) rfl [Buffer.ofBytes [3], Buffer.ofBytes [4, 5]]
    (by simp [Buffer.ofBytes, CHUNK_SIZE_MASK]) .start SOCKET_BUF_SIZE
  obtain ⟨hval, -, -, hnodup⟩ := (nonce_discipline (tagLib fun _ _ => true) .AES128GCM (List.replicate 16 1)
    (List.replicate 16 2) rfl).1 _ _ _ _ _ _ h hok
  exact ⟨cs, sctx, g', h, hval, hnodup (by decide)⟩

theorem chunkPlains_replicate {b : Buffer} (hb : b.len ≠ 0) (n : Nat) :
    chunkPlains (List.replicate n b) = List.replicate n b.chunkPlain := by
  simp [chunkPlains, hb]

/-- The first nonce comes round after `2 ^ 95` chunks of a cipher whose nonces have twelve bytes, and a call that
fails on the plaintext of a chunk leaves the nonce in the middle of it. -/
theorem nonce_discipline_fails :
    (∃ L M key salt plain capacity g cs sctx g', salt.length = supported_aead_ciphers_key_size M ∧
      encryptCalls L capacity g (aead_ctx_init (aead_key_init M key) (some salt)) plain = .ok (cs, sctx, g') ∧
      (∀ c ∈ cs, c.1 = .CRYPTO_OK) ∧ ¬ (sctx.sealed.map fun b => (b.1, b.2.1)).Nodup) ∧
    ∃ (L : CryptoLib) (M : AeadMethod) (key : Bytes) (segs : List Buffer) (g : CryptoState), L.Sized ∧
      (∀ b ∈ segs, b.len ≤ b.capacity) ∧
      (decryptCalls L SOCKET_BUF_SIZE g (aead_ctx_init (aead_key_init M key) none) segs).toOption.map
        (fun r => (r.1.map (·.1), LeCounter.val r.2.1.nonce)) = some ([.CRYPTO_ERROR], 1) := by
  constructor
  · obtain ⟨k, hk⟩ : ∃ k, 2 * k = 256 ^ 12 := ⟨2 ^ 95, by norm_num⟩
    have hs : ∀ b ∈ List.replicate (k + 1) (Buffer.ofBytes [3]), b.len ≤ CHUNK_SIZE_MASK ∧ b.len ≤ b.capacity := by
      intro b hb
      obtain rfl := List.eq_of_mem_replicate hb
      simp [Buffer.ofBytes, CHUNK_SIZE_MASK]
    obtain ⟨cs, sctx, g', h, hok⟩ := encryptCalls_total (tagLib_encrypts fun _ _ => true)
      (aead_ctx_init (aead_key_init .AES128GCM []) (some (List.replicate 16 2))) (supported_aead_key_init _ _) rfl
      _ hs .start SOCKET_BUF_SIZE
    refine ⟨_, .AES128GCM, [], _, _, _, _, cs, sctx, g', rfl, h, hok, ?_⟩
    obtain ⟨-, hsealed⟩ := sender_blocks rfl h hok
    rw [hsealed, blocksFrom_nonces, chunkPlains_replicate (by simp [Buffer.ofBytes]), List.length_replicate]
    intro hnodup
    have hpos : 0 < 2 * k := by
      rw [hk]
      norm_num
    have h0 : LeCounter.incr^[2 * k] (LeCounter.zero 12) = LeCounter.zero 12 := by
      rw [hk, LeCounter.iterate_incr_period]
    have heq := List.inj_on_of_nodup_map hnodup (List.mem_range.2 (show 0 < _ by omega))
      (List.mem_range.2 (show 2 * k < _ by omega)) (Prod.ext rfl h0.symm)
    omega
  · exact ⟨tagLib fun _ _ => true, .AES128GCM, [], [Buffer.ofBytes (List.replicate 16 2 ++ ([0, 1] ++
      List.replicate 16 0) ++ List.replicate 17 1)], .start,
        tagLib_sized _, by simp [Buffer.ofBytes], by decide +kernel⟩

end OutlineServer
