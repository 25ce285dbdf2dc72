import OutlineServer.AeadNonce

/-!
# Authenticity of AEAD TCP streams

Under an ideal cipher a receiver delivers a prefix of what a sender has sent under the salt
(`stream_authenticity`), whatever it is fed behind the salt, as long as the sender stays below
`256 ^ nonce_len / 2` chunks. Beyond that the first nonces come round, and a late chunk passes for an early
one (`stream_not_authentic`).
-/

namespace OutlineServer
open Deframer

/-- A run of a sender that has sent `plain` under `salt`, and a cipher that opens nothing else under the
subkey. -/
structure IdealSender (L : CryptoLib) (M : AeadMethod) (key salt : Bytes) (plain : List Buffer) : Prop where
  sized : L.Sized
  salt_length : salt.length = supported_aead_ciphers_key_size M
  sent : ∃ capacity g cs sctx g',
    encryptCalls L capacity g (aead_ctx_init (aead_key_init M key) (some salt)) plain = .ok (cs, sctx, g') ∧
    (∀ c ∈ cs, c.1 = .CRYPTO_OK) ∧
    ∀ n c m, L.aead_decrypt M (aeadSubkey L (aead_key_init M key) salt) n c = some m →
      (aeadSubkey L (aead_key_init M key) salt, n, m) ∈ sctx.sealed ∧
      L.aead_encrypt M (aeadSubkey L (aead_key_init M key) salt) n m = some c

section
variable {L : CryptoLib} {M : AeadMethod} {key salt : Bytes} {plain : List Buffer}

theorem IdealSender.only (h : IdealSender L M key salt plain)
    (hfew : 2 * (chunkPlains plain).length < 256 ^ supported_aead_ciphers_nonce_size M) :
    (aeadStream L (aead_key_init M key) salt).Only chunkNonce
      (LeCounter.zero (supported_aead_ciphers_nonce_size M)) (chunkPlains plain) := by
  obtain ⟨capacity, g, cs, sctx, g', hrun, hok, hideal⟩ := h.sent
  refine only_sent hfew ?_
  intro n c m hm
  rw [← (sender_blocks h.salt_length hrun hok).2]
  exact (hideal n c m hm).1

/-- Up to the first failing call, a receiver that has been given the salt delivers whole chunks of the sender,
in order and from the first on. -/
theorem stream_authenticity (h : IdealSender L M key salt plain)
    (hfew : 2 * (chunkPlains plain).length < 256 ^ supported_aead_ciphers_nonce_size M) (segs : List Buffer)
    (hsegs : ∀ b ∈ segs, b.len ≤ b.capacity) (hfed : (fedBytes segs).take salt.length <+: salt) (g : CryptoState)
    (capacity : Nat) :
    ∃ rs rctx g', decryptCalls L capacity g (aead_ctx_init (aead_key_init M key) none) segs = .ok (rs, rctx, g') ∧
      ∃ ms, ms <+: chunkPlains plain ∧ delivered rs = ms.flatten := by
  obtain ⟨rs, rctx, g', fed', ms, ctx₁, hrun, hpre, hR, hdel, -⟩ :=
    decryptCalls_spec h.sized (supported_aead_key_init M key) hsegs (receives_init L _) g capacity
  refine ⟨rs, rctx, g', hrun, ms, ?_, hdel⟩
  simp only [List.nil_append] at hR hpre
  have hsl := h.salt_length
  rcases hR with _ | ⟨-, -, -, hlt, -, -, hd⟩
  · exact List.nil_prefix
  -- the bytes in front of what was drained are the salt
  have hkl : (aead_key_init M key).key_len = salt.length := hsl.symm
  rw [hkl] at hd hlt
  have htake : fed'.take salt.length = salt := by
    have hp : fed'.take salt.length <+: salt := by
      obtain ⟨x, hx⟩ := hpre
      rw [← hx, List.take_append_of_le_length (by omega)] at hfed
      exact hfed
    exact hp.eq_of_length (by rw [List.length_take]; omega)
  rw [htake] at hd
  exact hd.prefix_of_only (h.only hfew)

end

theorem idealSender_tagLib {ok : Bytes → Bytes → Bool} {M : AeadMethod} {key salt : Bytes} {plain : List Buffer}
    (hsalt : salt.length = supported_aead_ciphers_key_size M)
    (hplain : ∀ b ∈ plain, b.len ≤ CHUNK_SIZE_MASK ∧ b.len ≤ b.capacity)
    (hok : ∀ skey n m, ok n m = true →
      (skey, n, m) ∈ blocksFrom skey (LeCounter.zero (supported_aead_ciphers_nonce_size M)) (chunkPlains plain)) :
    IdealSender (tagLib ok) M key salt plain := by
  refine ⟨tagLib_sized _, hsalt, ?_⟩
  obtain ⟨cs, sctx, g', hrun, hcs⟩ := encryptCalls_total (tagLib_encrypts ok)
    (aead_ctx_init (aead_key_init M key) (some salt)) (supported_aead_key_init M key) hsalt plain hplain .start
    SOCKET_BUF_SIZE
  refine ⟨_, _, cs, sctx, g', hrun, hcs, ?_⟩
  intro n c m hm
  obtain ⟨rfl, h⟩ := tagLib_decrypt.1 hm
  rw [(sender_blocks hsalt hrun hcs).2]
  exact ⟨hok _ n m h, rfl⟩

/-- A cipher that opens the two blocks of the chunk `[3]`. -/
def firstBlocks (n m : Bytes) : Bool :=
  n = LeCounter.zero 12 ∧ m = [0, 1] ∨ n = sodium_increment (LeCounter.zero 12) ∧ m = [3]

/-- The salt and the chunk `[3]`. -/
def firstWire : Bytes := List.replicate 16 2 ++ (([0, 1] ++ List.replicate 16 0) ++ ([3] ++ List.replicate 16 0))

/-- The chunk comes in two segments, with the cut in its length. -/
theorem stream_authenticity_tagLib :
    ∃ rs rctx g', decryptCalls (tagLib firstBlocks) SOCKET_BUF_SIZE .start
        (aead_ctx_init (aead_key_init .AES128GCM []) none)
        [Buffer.ofBytes (firstWire.take 17), Buffer.ofBytes (firstWire.drop 17)] = .ok (rs, rctx, g') ∧
      (∃ ms, ms <+: chunkPlains [Buffer.ofBytes [3]] ∧ delivered rs = ms.flatten) ∧ delivered rs = [3] := by
  have hplain : chunkPlains [Buffer.ofBytes [3]] = [[3]] := rfl
  have h : IdealSender (tagLib firstBlocks) .AES128GCM [] (List.replicate 16 2) [Buffer.ofBytes [3]] := by
    refine idealSender_tagLib rfl (by simp [Buffer.ofBytes, CHUNK_SIZE_MASK]) ?_
    intro skey n m h
    rw [hplain]
    simp only [firstBlocks, decide_eq_true_eq] at h
    rcases h with ⟨rfl, rfl⟩ | ⟨rfl, rfl⟩
    · exact List.mem_cons_self
    · exact List.mem_cons_of_mem _ List.mem_cons_self
  have hdel : (decryptCalls (tagLib firstBlocks) SOCKET_BUF_SIZE .start
      (aead_ctx_init (aead_key_init .AES128GCM []) none)
      [Buffer.ofBytes (firstWire.take 17), Buffer.ofBytes (firstWire.drop 17)]).toOption.map (fun r => delivered r.1) =
      some [3] := by
    decide +kernel
  obtain ⟨rs, rctx, g', hrun, hms⟩ := stream_authenticity h (by decide)
    [Buffer.ofBytes (firstWire.take 17), Buffer.ofBytes (firstWire.drop 17)] (by simp [Buffer.ofBytes]) (by decide)
    .start SOCKET_BUF_SIZE
  rw [hrun] at hdel
  exact ⟨rs, rctx, g', hrun, hms, Option.some.inj hdel⟩

/-- A cipher that opens the blocks of `2 ^ 95` chunks `[3]` and, the nonces having come round, one chunk `[4]`. -/
def wrapBlocks (n m : Bytes) : Bool :=
  n.length = 12 ∧ (LeCounter.val n % 2 = 0 ∧ m = [0, 1] ∨ LeCounter.val n % 2 = 1 ∧ m = [3] ∨
    n = sodium_increment (LeCounter.zero 12) ∧ m = [4])

theorem stream_not_authentic :
    ¬ ∀ (L : CryptoLib) (M : AeadMethod) (key salt : Bytes) (plain segs : List Buffer) (g : CryptoState)
      (capacity : Nat), IdealSender L M key salt plain → (∀ b ∈ segs, b.len ≤ b.capacity) →
      (fedBytes segs).take salt.length <+: salt →
      ∃ rs rctx g', decryptCalls L capacity g (aead_ctx_init (aead_key_init M key) none) segs = .ok (rs, rctx, g') ∧
        ∃ ms, ms <+: chunkPlains plain ∧ delivered rs = ms.flatten := by
  intro h
  obtain ⟨k, hk⟩ : ∃ k, 2 * k = 256 ^ 12 := ⟨2 ^ 95, by norm_num⟩
  have hpos : 0 < k := by
    have : (0 : Nat) < 256 ^ 12 := by norm_num
    omega
  have hplain : chunkPlains (List.replicate k (Buffer.ofBytes [3]) ++ [Buffer.ofBytes [4]]) =
      List.replicate k [3] ++ [[4]] := by
    have happ := chunkPlains_replicate (b := Buffer.ofBytes [3]) (by simp [Buffer.ofBytes]) k
    simp only [chunkPlains] at happ ⊢
    rw [List.filter_append, List.map_append, happ]
    rfl
  have hsender : IdealSender (tagLib wrapBlocks) .AES128GCM [] (List.replicate 16 2)
      (List.replicate k (Buffer.ofBytes [3]) ++ [Buffer.ofBytes [4]]) := by
    refine idealSender_tagLib rfl ?_ ?_
    · intro b hb
      rcases List.mem_append.1 hb with hb | hb
      · obtain rfl := List.eq_of_mem_replicate hb
        simp [Buffer.ofBytes, CHUNK_SIZE_MASK]
      · obtain rfl := List.mem_singleton.1 hb
        simp [Buffer.ofBytes, CHUNK_SIZE_MASK]
    · intro skey n m hok
      rw [hplain]
      simp only [wrapBlocks, decide_eq_true_eq] at hok
      obtain ⟨hlen, hok⟩ := hok
      have hlt : LeCounter.val n < 2 * k := by
        have := LeCounter.val_lt n
        rwa [hlen, ← hk] at this
      have hn : LeCounter.incr^[LeCounter.val n] (LeCounter.zero 12) = n := by
        refine LeCounter.val_inj (by simp [hlen]) ?_
        rw [LeCounter.val_iterate_zero, ← hk, Nat.mod_eq_of_lt hlt]
      have hget : ∀ i < k, (List.replicate k ([3] : Bytes) ++ [[4]])[i]? = some [3] := by
        intro i hi
        rw [List.getElem?_append_left (by simpa using hi)]
        simp [hi]
      rcases hok with ⟨hv, rfl⟩ | ⟨hv, rfl⟩ | ⟨rfl, rfl⟩
      · have hb := (getElem?_blocksFrom skey (LeCounter.zero 12)
          (hget (LeCounter.val n / 2) (by omega))).1
        rw [show 2 * (LeCounter.val n / 2) = LeCounter.val n by omega, hn] at hb
        exact List.mem_of_getElem? hb
      · have hb := (getElem?_blocksFrom skey (LeCounter.zero 12)
          (hget (LeCounter.val n / 2) (by omega))).2
        rw [show 2 * (LeCounter.val n / 2) + 1 = LeCounter.val n by omega, hn] at hb
        exact List.mem_of_getElem? hb
      · have hk4 : (List.replicate k ([3] : Bytes) ++ [[4]])[k]? = some [4] := by simp
        have hb := (getElem?_blocksFrom skey (LeCounter.zero 12) hk4).2
        rw [Function.iterate_succ_apply', hk, LeCounter.iterate_incr_period] at hb
        exact List.mem_of_getElem? hb
  -- the chunk `[4]`, sent last, is presented first
  obtain ⟨rs, rctx, g', hrun, ms, hms, hdel⟩ := h _ _ _ _ _ [Buffer.ofBytes (List.replicate 16 2 ++
    (([0, 1] ++ List.replicate 16 0) ++ ([4] ++ List.replicate 16 0)))] .start SOCKET_BUF_SIZE hsender
    (by simp [Buffer.ofBytes]) (by decide)
  have hdel' : (decryptCalls (tagLib wrapBlocks) SOCKET_BUF_SIZE .start
      (aead_ctx_init (aead_key_init .AES128GCM []) none) [Buffer.ofBytes (List.replicate 16 2 ++
      (([0, 1] ++ List.replicate 16 0) ++ ([4] ++ List.replicate 16 0)))]).toOption.map (fun r => delivered r.1) =
      some [4] := by
    decide +kernel
  rw [hrun] at hdel'
  have h4 : ms.flatten = [4] := by
    rw [← hdel]
    exact Option.some.inj hdel'
  rw [hplain] at hms
  obtain ⟨k', rfl⟩ : ∃ k', k = k' + 1 := ⟨k - 1, by omega⟩
  rcases ms with _ | ⟨m, ms⟩
  · cases h4
  · rw [List.replicate_succ, List.cons_append, List.cons_prefix_cons] at hms
    rw [hms.1] at h4
    cases h4

end OutlineServer
