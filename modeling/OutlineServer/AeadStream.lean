import OutlineServer.AeadReceiver
import OutlineServer.AeadSender

/-!
# AEAD TCP streams

A receiver that is fed what a sender has encrypted delivers, after every call, the plaintexts of the chunks
that have arrived completely, however the stream is cut (`stream_delivery`).
-/

namespace OutlineServer
open Deframer

section
variable {L : CryptoLib} {cipher : Cipher AeadMethod} {ctx ctx' : AeadCtx} {g g' : CryptoState} {fed salt : Bytes}
  {as ms : List Bytes} {bs : List Buffer} {capacity : Nat}

theorem aeadStream_eq (hL : L.Lawful) (hs : cipher.Supported) (salt : Bytes) :
    aeadStream L cipher salt = (aeadCodec hL cipher.method (aeadSubkey L cipher salt)).toDeframer := by
  rw [aeadStream, hs.tag_len]
  rfl

def aeadChunks (hL : L.Lawful) (cipher : Cipher AeadMethod) (salt : Bytes) (ms : List Bytes) : List Bytes :=
  (aeadCodec hL cipher.method (aeadSubkey L cipher salt)).frames (LeCounter.zero cipher.nonce_len) ms

/-- Behind the salt, what has arrived of the chunks drains to those that are complete. -/
theorem drains_aeadChunks (hL : L.Lawful) (hs : cipher.Supported)
    (hms : ∀ m ∈ ms, 0 < m.length ∧ m.length ≤ CHUNK_SIZE_MASK) {p : Bytes}
    (hp : p <+: (aeadChunks hL cipher salt ms).flatten) :
    ∃ rest n, (aeadStream L cipher salt).Drains (LeCounter.zero cipher.nonce_len) p
      (whole p.length ms (aeadChunks hL cipher salt ms)) rest n false := by
  rw [aeadStream_eq hL hs]
  exact Codec.drains_prefix hms (aeadDeframer_nil _ _ _ _) hp

theorem exists_append_of_prefix {p x : Bytes} (hp : p <+: salt ++ x) (h : salt.length ≤ p.length) :
    ∃ q, p = salt ++ q ∧ q <+: x := by
  obtain ⟨q, rfl⟩ := List.prefix_of_prefix_length_le (List.prefix_append salt x) hp h
  exact ⟨q, rfl, (List.prefix_append_right_inj _).1 hp⟩

/-- What has been delivered of the sender's stream are the chunks that have arrived. -/
theorem Receives.eq_whole (hL : L.Lawful) (hs : cipher.Supported) (hsalt : salt.length = cipher.key_len)
    (hms : ∀ m ∈ ms, 0 < m.length ∧ m.length ≤ CHUNK_SIZE_MASK) (hR : Receives L cipher fed as ctx)
    (hfed : fed <+: salt ++ (aeadChunks hL cipher salt ms).flatten) :
    as = whole (fed.length - salt.length) ms (aeadChunks hL cipher salt ms) := by
  rcases hR with ⟨-, -, -, hle, -, -⟩ | ⟨-, -, -, hlt, -, -, hd⟩
  · have h0 : fed.length - salt.length = 0 := by omega
    obtain ⟨rest, n, hd⟩ := drains_aeadChunks hL hs hms (p := [])
      (List.nil_prefix (l := (aeadChunks hL cipher salt ms).flatten))
    rw [h0]
    exact ((Drains.more (aeadDeframer_nil _ _ _ _ _)).det hd).1
  · obtain ⟨q, hq, hpre⟩ := exists_append_of_prefix hfed (by omega)
    obtain ⟨rest, n, hd'⟩ := drains_aeadChunks hL hs hms hpre
    rw [hq, ← hsalt, List.take_left, List.drop_left] at hd
    rw [(hd.det hd').1, hq, List.length_append, Nat.add_sub_cancel_left]

/-- A call on a stream of the sender whose salt the filter does not report gives what it adds to the chunks that have
arrived, and does not fail. -/
theorem aead_decrypt_wire (hL : L.Lawful) (hs : cipher.Supported) (hsalt : salt.length = cipher.key_len)
    (hms : ∀ m ∈ ms, 0 < m.length ∧ m.length ≤ CHUNK_SIZE_MASK) {b : Buffer} (hb : b.len ≤ b.capacity)
    (hR : Receives L cipher fed as ctx) (hfed : fed ++ b.bytes <+: salt ++ (aeadChunks hL cipher salt ms).flatten)
    (hcheck : ctx.init ≠ 2 → ppbloom_check L.murmurhash2 g.bloom salt ≠ 1) (capacity : Nat) :
    ∃ ret ct ctx₂ g₂ as', aead_decrypt L g b ctx capacity = .ok (ret, ct, ctx₂, g₂) ∧
      Receives L cipher (fed ++ b.bytes) (as ++ as') ctx₂ ∧
      (ctx₂.init ≠ 2 → ppbloom_check L.murmurhash2 g₂.bloom salt ≠ 1) ∧
      (ret = .CRYPTO_NEED_MORE ∧ as' = [] ∧ (ctx₂.init = 2 ↔ ctx.init = 2) ∨
        ret = .CRYPTO_OK ∧ ct.bytes = as'.flatten ∧ ctx₂.init = 2) := by
  obtain ⟨ret, ct, ctx₂, g₂, hcall, hspec⟩ := aead_decrypt_spec hL.toSized hs hb hR g capacity
  rcases hspec with ⟨hinit, hlt, hc⟩ | ⟨hlt, hd⟩ | ⟨hinit, hR⟩ | ⟨hinit, hinit', -, hct, hR⟩ | ⟨hinit, hinit', hct, hR⟩
  · obtain ⟨q, hq, -⟩ := exists_append_of_prefix hfed (by omega)
    rw [hq, ← hsalt, List.take_left] at hc
    exact absurd hc (hcheck hinit)
  · obtain ⟨q, hq, hpre⟩ := exists_append_of_prefix hfed (by omega)
    rw [hq, ← hsalt, List.take_left, List.drop_left] at hd
    obtain ⟨rest, n, hd'⟩ := drains_aeadChunks hL hs hms hpre
    exact absurd (hd.det hd').2.2.2 (by simp)
  · refine ⟨_, _, _, _, [], hcall, by simpa using hR, ?_, .inl ⟨rfl, rfl, hinit⟩⟩
    intro h2
    exact hcheck (mt hinit.2 h2)
  · exact ⟨_, _, _, _, _, hcall, hR, fun h2 => absurd hinit' h2, .inr ⟨rfl, hct, hinit'⟩⟩
  · exact ⟨_, _, _, _, _, hcall, hR, fun h2 => absurd hinit' h2, .inr ⟨rfl, hct, hinit'⟩⟩

/-- No call fails on a stream of the sender whose salt the filter does not report. -/
theorem decryptCalls_no_error (hL : L.Lawful) (hs : cipher.Supported) (hsalt : salt.length = cipher.key_len)
    (hms : ∀ m ∈ ms, 0 < m.length ∧ m.length ≤ CHUNK_SIZE_MASK) (hbs : ∀ b ∈ bs, b.len ≤ b.capacity)
    (hR : Receives L cipher fed as ctx)
    (hfed : fed ++ fedBytes bs <+: salt ++ (aeadChunks hL cipher salt ms).flatten)
    (hcheck : ctx.init ≠ 2 → ppbloom_check L.murmurhash2 g.bloom salt ≠ 1) {rs : List (CryptoRet × Bytes)}
    (h : decryptCalls L capacity g ctx bs = .ok (rs, ctx', g')) : ∀ r ∈ rs, r.1 ≠ .CRYPTO_ERROR := by
  induction bs generalizing fed as ctx g rs with
  | nil =>
    cases h
    simp
  | cons b bs ih =>
    obtain ⟨hb, hbs⟩ := List.forall_mem_cons.1 hbs
    rw [fedBytes_cons, ← List.append_assoc] at hfed
    have hfed₁ : fed ++ b.bytes <+: salt ++ (aeadChunks hL cipher salt ms).flatten :=
      (List.prefix_append _ _).trans hfed
    obtain ⟨ret, ct, ctx₂, g₂, as', hcall, hR', hcheck', hret⟩ :=
      aead_decrypt_wire hL hs hsalt hms hb hR hfed₁ hcheck capacity
    have herr : ret ≠ .CRYPTO_ERROR := by
      rcases hret with ⟨rfl, -⟩ | ⟨rfl, -⟩ <;> decide
    simp only [decryptCalls, callsUntilError, hcall, C.ok_bind, herr, ↓reduceIte] at h
    obtain ⟨⟨rs', ctx₃, g₃⟩, hrun, h⟩ := C.bind_eq_ok h
    cases h
    exact List.forall_mem_cons.2 ⟨herr, ih hbs hR' hfed hcheck' hrun⟩

theorem decryptCalls_wire (hL : L.Lawful) (hs : cipher.Supported) (hsalt : salt.length = cipher.key_len)
    (hms : ∀ m ∈ ms, 0 < m.length ∧ m.length ≤ CHUNK_SIZE_MASK) (hbs : ∀ b ∈ bs, b.len ≤ b.capacity)
    (hfed : fedBytes bs <+: salt ++ (aeadChunks hL cipher salt ms).flatten)
    (hcheck : ppbloom_check L.murmurhash2 g.bloom salt ≠ 1) (capacity : Nat) :
    ∃ rs ctx' g', decryptCalls L capacity g (aead_ctx_init cipher none) bs = .ok (rs, ctx', g') ∧
      rs.length = bs.length ∧ (∀ r ∈ rs, r.1 ≠ .CRYPTO_ERROR) ∧
      delivered rs = (whole ((fedBytes bs).length - salt.length) ms (aeadChunks hL cipher salt ms)).flatten := by
  obtain ⟨rs, ctx', g', fed', as, ctx₁, hrun, -, hR, hdel, hall⟩ :=
    decryptCalls_spec hL.toSized hs hbs (receives_init L cipher) g capacity
  have herr := decryptCalls_no_error hL hs hsalt hms hbs (receives_init L cipher) hfed (fun _ => hcheck) hrun
  obtain ⟨hlen, rfl, rfl⟩ := hall herr
  refine ⟨rs, ctx₁, g', hrun, hlen, herr, ?_⟩
  simp only [List.nil_append] at hR
  rw [hdel, hR.eq_whole hL hs hsalt hms hfed]

theorem aeadFrame_pos (hL : L.Lawful) (M : AeadMethod) (skey n m : Bytes) : 0 < (aeadFrame L M skey n m).length := by
  obtain ⟨e, he, hlen⟩ := hL.encrypts M skey n (store16_be m.length)
  rw [aeadFrame, he, List.length_append, Option.getD_some, hlen]
  have : (store16_be m.length).length = 2 := rfl
  omega

theorem flatten_modifyHead (salt : Bytes) (fs : List Bytes) :
    (fs.modifyHead (salt ++ ·)).flatten <+: salt ++ fs.flatten := by
  rcases fs with _ | ⟨f, fs⟩
  · exact List.nil_prefix
  · simp

theorem whole_aeadChunks (hL : L.Lawful) (cipher : Cipher AeadMethod) (salt : Bytes) (ms : List Bytes) (n : Nat) :
    whole n ms ((aeadChunks hL cipher salt ms).modifyHead (salt ++ ·)) =
      whole (n - salt.length) ms (aeadChunks hL cipher salt ms) := by
  rcases ms with _ | ⟨m, ms⟩
  · rfl
  · exact whole_append_head (aeadFrame_pos hL _ _ _ m)

theorem prefix_fedBytes_take (bs : List Buffer) (i : Nat) : fedBytes (bs.take i) <+: fedBytes bs := by
  refine ⟨fedBytes (bs.drop i), ?_⟩
  rw [fedBytes, fedBytes, fedBytes, ← List.flatten_append, ← List.map_append, List.take_append_drop]

/-- Every call of the receiver succeeds or wants more, and after the first `i` calls it has delivered the
plaintexts of those chunks whose ciphertexts, the first one with the salt, lie in what it has been fed. -/
theorem stream_delivery (hL : L.Lawful) (M : AeadMethod) (key salt : Bytes)
    (hsalt : salt.length = supported_aead_ciphers_key_size M) (plain : List Buffer)
    (hplain : ∀ b ∈ plain, 1 ≤ b.len ∧ b.len ≤ 16383 ∧ b.len ≤ b.capacity) (g : CryptoState) (capacity : Nat) :
    ∃ cs sctx g', encryptCalls L capacity g (aead_ctx_init (aead_key_init M key) (some salt)) plain =
        .ok (cs, sctx, g') ∧ (∀ c ∈ cs, c.1 = .CRYPTO_OK) ∧
      ∀ (segs : List Buffer) (gr : CryptoState), (∀ b ∈ segs, b.len ≤ b.capacity) →
        fedBytes segs = (cs.map (·.2)).flatten → ppbloom_check L.murmurhash2 gr.bloom salt ≠ 1 →
        ∃ rs rctx gr', decryptCalls L capacity gr (aead_ctx_init (aead_key_init M key) none) segs =
            .ok (rs, rctx, gr') ∧ rs.length = segs.length ∧ (∀ r ∈ rs, r.1 ≠ .CRYPTO_ERROR) ∧
          ∀ i ≤ segs.length, delivered (rs.take i) =
            (whole (fedBytes (segs.take i)).length (plain.map Buffer.bytes) (cs.map (·.2))).flatten := by
  have hs : (aead_key_init M key).Supported := supported_aead_key_init M key
  have hctx : (aead_ctx_init (aead_key_init M key) (some salt)).salt.length = (aead_key_init M key).key_len := hsalt
  obtain ⟨cs, sctx, g', hsend, hok⟩ := encryptCalls_total hL.encrypts _ hs hctx plain
    (fun b hb => (hplain b hb).2) g capacity
  have hwire : cs.map (·.2) =
      (aeadChunks hL (aead_key_init M key) salt (plain.map Buffer.bytes)).modifyHead (salt ++ ·) :=
    encryptCalls_wire hL hctx (fun b hb => ⟨(hplain b hb).1, (hplain b hb).2.1⟩) hsend hok
  have hms : ∀ m ∈ plain.map Buffer.bytes, 0 < m.length ∧ m.length ≤ CHUNK_SIZE_MASK := by
    intro m hm
    obtain ⟨b, hb, rfl⟩ := List.mem_map.1 hm
    rw [Buffer.length_bytes]
    exact ⟨(hplain b hb).1, (hplain b hb).2.1⟩
  refine ⟨cs, sctx, g', hsend, hok, ?_⟩
  intro segs gr hsegs hfed hcheck
  have hpre : fedBytes segs <+: salt ++
      (aeadChunks hL (aead_key_init M key) salt (plain.map Buffer.bytes)).flatten := by
    rw [hfed, hwire]
    exact flatten_modifyHead salt _
  obtain ⟨rs, rctx, gr', hrun, hlen, herr, -⟩ := decryptCalls_wire hL hs hsalt hms hsegs hpre hcheck capacity
  refine ⟨rs, rctx, gr', hrun, hlen, herr, ?_⟩
  intro i _
  -- the first `i` calls are a run of their own
  obtain ⟨ctx₁, g₁, htake⟩ := decryptCalls_take hrun i
  obtain ⟨rs', ctx₂, g₂, hrun', -, -, hdel⟩ := decryptCalls_wire hL hs hsalt hms
    (fun b hb => hsegs b (List.mem_of_mem_take hb)) ((prefix_fedBytes_take segs i).trans hpre) hcheck capacity
  rw [htake] at hrun'
  cases hrun'
  rw [hdel, hwire, whole_aeadChunks]

end

theorem stream_delivery_tagLib :
    ∃ cs sctx g', encryptCalls (tagLib fun _ _ => true) SOCKET_BUF_SIZE .start
        (aead_ctx_init (aead_key_init .AES128GCM (List.replicate 16 1)) (some (List.replicate 16 2)))
        [Buffer.ofBytes [3], Buffer.ofBytes [4, 5]] = .ok (cs, sctx, g') ∧ (∀ c ∈ cs, c.1 = .CRYPTO_OK) ∧
      ∀ (segs : List Buffer) (gr : CryptoState), (∀ b ∈ segs, b.len ≤ b.capacity) →
        fedBytes segs = (cs.map (·.2)).flatten →
        ppbloom_check (tagLib fun _ _ => true).murmurhash2 gr.bloom (List.replicate 16 2) ≠ 1 →
        ∃ rs rctx gr', decryptCalls (tagLib fun _ _ => true) SOCKET_BUF_SIZE gr
            (aead_ctx_init (aead_key_init .AES128GCM (List.replicate 16 1)) none) segs = .ok (rs, rctx, gr') ∧
          rs.length = segs.length ∧ (∀ r ∈ rs, r.1 ≠ .CRYPTO_ERROR) ∧ ∀ i ≤ segs.length, delivered (rs.take i) =
            (whole (fedBytes (segs.take i)).length ([Buffer.ofBytes [3], Buffer.ofBytes [4, 5]].map Buffer.bytes)
              (cs.map (·.2))).flatten :=
  stream_delivery tagLib_lawful .AES128GCM (List.replicate 16 1) (List.replicate 16 2) rfl
    [Buffer.ofBytes [3], Buffer.ofBytes [4, 5]] (by simp [Buffer.ofBytes]) .start SOCKET_BUF_SIZE

end OutlineServer
