import Mathlib.Data.List.Infix
import OutlineServer.AeadReceiver
import OutlineServer.StreamSpec

/-!
# Stream-cipher TCP streams

The calls of a sender give its IV and the bytes of the plaintext, however that is cut
(`streamEncryptCalls_spec`); those of a receiver take them back, however they are cut
(`streamDecryptCalls_spec`). A receiver either waits for its IV or has processed what came behind it.
-/

namespace OutlineServer
open Streaming

section
variable {L : CryptoLib} {byte : StreamMethod → Bool → Bytes → Bytes → Bytes → UInt8 → UInt8}
  {ks : StreamMethod → Bytes → Bytes → Nat → UInt8} {M : StreamMethod} {key iv past fed : Bytes} {ctx : StreamCtx}
  {c : Cipher StreamMethod} {b chunk : Buffer} {g : CryptoState} {f : PPBloom}

theorem streamXor_eq (b plaintext : Buffer) (ctx : StreamCtx) (capacity : Nat) :
    streamXor L b plaintext ctx capacity = streamEncryptXor L b plaintext ctx 0 capacity := by
  simp only [streamXor, streamEncryptXor, Nat.zero_add, Nat.add_comm plaintext.len]

/-! ### The receiver -/

/-- The filter does not report the IV, or is not asked. -/
def IvFresh (L : CryptoLib) (c : Cipher StreamMethod) (iv : Bytes) (f : PPBloom) : Prop :=
  StreamMethod.RC4_MD5.code ≤ c.method.code → ppbloom_check L.murmurhash2 f iv ≠ 1

/-- The filter lets a context go on that has processed `past`. -/
structure StreamCtx.Passes (L : CryptoLib) (iv : Bytes) (f : PPBloom) (past : Bytes) (ctx : StreamCtx) : Prop where
  init : ctx.init ≠ 0
  filter : StreamMethod.RC4_MD5.code ≤ ctx.cipher.method.code →
    ctx.init = 2 ∨ ctx.init = 1 ∧ past = [] ∧ ppbloom_check L.murmurhash2 f iv ≠ 1

/-- The code and the buffer of a call that has decrypted `out`. -/
inductive Answers (out : Bytes) : CryptoRet → Buffer → Prop
  | more {b : Buffer} (h : out = []) : Answers out .CRYPTO_NEED_MORE b
  | ok {b : Buffer} (h : b.bytes = out) (hne : out ≠ []) : Answers out .CRYPTO_OK b

/-- A context that has been fed `fed`. -/
inductive StreamCtx.Receives (L : CryptoLib) (c : Cipher StreamMethod) (iv : Bytes) (f : PPBloom) (fed : Bytes)
    (ctx : StreamCtx) : Prop
  | waiting (h : ctx.Unkeyed c) (hchunk : (ctx.chunk.getD (balloc L.malloc c.nonce_len)).bytes = fed)
      (hcap : c.nonce_len ≤ (ctx.chunk.getD (balloc L.malloc c.nonce_len)).capacity) (hle : fed.length ≤ c.nonce_len)
      (hcheck : IvFresh L c iv f)
  | keyed {body : Bytes} (h : ctx.Keyed L c iv false body) (hfed : fed = iv ++ body) (hpass : ctx.Passes L iv f body)

/-- What the receiver makes of the bytes behind the IV. -/
def streamDecoded (L : CryptoLib) (byte : StreamMethod → Bool → Bytes → Bytes → Bytes → UInt8 → UInt8)
    (ks : StreamMethod → Bytes → Bytes → Nat → UInt8) (c : Cipher StreamMethod) (iv fed : Bytes) : Bytes :=
  scan (streamByte L byte ks c iv false) [] (fed.drop iv.length)

theorem streamDecoded_append (x y : Bytes) :
    streamDecoded L byte ks c iv (iv ++ (x ++ y)) =
      streamDecoded L byte ks c iv (iv ++ x) ++ scan (streamByte L byte ks c iv false) x y := by
  rw [streamDecoded, streamDecoded, List.drop_left, List.drop_left, scan_append, List.nil_append]

theorem streamDecoded_short (h : fed.length ≤ iv.length) : streamDecoded L byte ks c iv fed = [] := by
  rw [streamDecoded, List.drop_of_length_le h, scan_nil]

theorem streamDecoded_nil : streamDecoded L byte ks c iv [] = [] := streamDecoded_short (Nat.zero_le _)

theorem delivered_ok (m : Bytes) : delivered [(.CRYPTO_OK, m)] = m := by
  simp [delivered]

theorem Answers.ne_error {out : Bytes} {ret : CryptoRet} (h : Answers out ret b) : ret ≠ .CRYPTO_ERROR := by
  rcases h with _ | _ <;> decide

theorem Answers.delivered {out : Bytes} {ret : CryptoRet} (h : Answers out ret b) :
    delivered [(ret, b.bytes)] = out := by
  rcases h with rfl | ⟨rfl, -⟩
  · rfl
  · exact delivered_ok _

/-- Once it has decrypted something, the context does not depend on the filter. -/
theorem streamFilter_passes (h : ctx.Keyed L c iv false fed) (hp : ctx.Passes L iv g.bloom past) :
    ∃ ctx' g', streamFilter L g ctx = (false, ctx', g') ∧ ctx'.Keyed L c iv false fed ∧
      ∀ f x, ctx'.Passes L iv f x := by
  by_cases hfirst : ctx.init = 1 ∧ StreamMethod.RC4_MD5.code ≤ ctx.cipher.method.code
  · have hcheck : ppbloom_check L.murmurhash2 g.bloom iv ≠ 1 := by
      rcases hp.filter hfirst.2 with h2 | ⟨-, -, hcheck⟩
      · omega
      · exact hcheck
    rw [← h.nonce] at hcheck
    simp only [streamFilter, hfirst, and_self, ↓reduceIte, hcheck]
    exact ⟨_, _, rfl, ⟨h.cipher, h.nonce, h.counter, h.evp⟩, fun _ _ => ⟨by simp, fun _ => .inl rfl⟩⟩
  · simp only [streamFilter, hfirst, ↓reduceIte]
    refine ⟨_, _, rfl, h, fun _ _ => ⟨hp.init, ?_⟩⟩
    intro hmd5
    rcases hp.filter hmd5 with h2 | ⟨h1, -⟩
    · exact .inl h2
    · exact absurd ⟨h1, hmd5⟩ hfirst

theorem StreamCtx.Passes.congr {f : PPBloom} {ctx' : StreamCtx} (h : ctx.Passes L iv f past)
    (hinit : ctx'.init = ctx.init) (hc : ctx'.cipher = ctx.cipher) : ctx'.Passes L iv f past := by
  obtain ⟨h0, hf⟩ := h
  rw [← hinit] at h0
  rw [← hinit, ← hc] at hf
  exact ⟨h0, hf⟩

/-- What a call answers when `out` is what it has decrypted. -/
def StreamAnswers (L : CryptoLib) (c : Cipher StreamMethod) (iv body out : Bytes)
    (r : C (CryptoRet × Buffer × StreamCtx × CryptoState)) : Prop :=
  ∃ ret b' ctx' g', r = .ok (ret, b', ctx', g') ∧ Answers out ret b' ∧ ctx'.Keyed L c iv false body ∧
    ctx'.Passes L iv g'.bloom body

theorem streamDecryptDone_spec {body : Bytes} (h : ctx.Keyed L c iv false body) (hp : ctx.Passes L iv g.bloom past)
    (b plaintext : Buffer) (hne : plaintext.bytes ≠ []) :
    StreamAnswers L c iv body plaintext.bytes (.ok (streamDecryptDone L g b plaintext ctx)) := by
  obtain ⟨ctx', g', hfilter, hkeyed, hpass⟩ := streamFilter_passes h hp
  simp only [streamDecryptDone, hfilter]
  exact ⟨_, _, _, _, rfl, .ok rfl hne, hkeyed, hpass _ _⟩

theorem scan_bytes_ne_nil (f : Bytes → UInt8 → UInt8) (past : Bytes) (h : b.len ≠ 0) : scan f past b.bytes ≠ [] := by
  intro hnil
  have hlen := congrArg List.length hnil
  rw [length_scan, Buffer.length_bytes] at hlen
  exact h hlen

theorem streamDecryptRest_spec (hL : L.Streams byte ks) (h : ctx.Keyed L c iv false past)
    (hp : ctx.Passes L iv g.bloom past)
    (hlen : c.method.Counts (past.length + b.len)) (hb : b.len ≤ b.capacity) (plaintext : Buffer)
    (hpt : plaintext.len = b.len)
    (hroom : b.len ≤ plaintext.capacity) (capacity : Nat) :
    StreamAnswers L c iv (past ++ b.bytes) (scan (streamByte L byte ks c iv false) past b.bytes)
      (streamDecryptRest L g b plaintext ctx capacity) := by
  simp only [streamDecryptRest]
  by_cases h0 : b.len = 0
  · have hnil : b.bytes = [] := List.length_eq_zero_iff.1 (by rw [Buffer.length_bytes, h0])
    simp only [h0, ↓reduceIte, hnil, scan_nil, List.append_nil]
    exact ⟨_, _, _, _, rfl, .more rfl, h, hp⟩
  have hne := scan_bytes_ne_nil (streamByte L byte ks c iv false) past h0
  simp only [h0, ↓reduceIte, h.cipher]
  by_cases hS : StreamMethod.SALSA20.code ≤ c.method.code
  · obtain ⟨b', pt', hx, hlen', hread⟩ := streamEncryptXor_spec hL hS h hlen hb hpt 0 capacity
    simp only [hS, ↓reduceIte, streamXor_eq, hx, C.ok_bind]
    have hbytes : pt'.bytes = scan (streamByte L byte ks c iv false) past b.bytes := by
      rw [Nat.zero_add, Block.read_zero, List.nil_append] at hread
      rw [Buffer.bytes, hlen', hread]
    rw [← hbytes] at hne ⊢
    exact streamDecryptDone_spec (h.count hS (by simpa using hlen)) (hp.congr rfl rfl) _ _ hne
  · obtain ⟨ctx₁, hupd, hkeyed, hinit⟩ := cipher_ctx_update_keyed hL hS h b.bytes
    have hpass : ctx₁.Passes L iv g.bloom past := hp.congr hinit (hkeyed.cipher.trans h.cipher.symm)
    simp only [Buffer.bytes] at hupd
    simp only [hS, ↓reduceIte, Buffer.get_ok (show 0 + b.len ≤ b.capacity by omega), C.ok_bind, hupd]
    rw [Buffer.put_ok (by rw [length_scan, Block.length_read]; omega), C.ok_bind]
    have hdone := streamDecryptDone_spec hkeyed hpass b { plaintext with
      data := plaintext.data.write 0 (scan (streamByte L byte ks c iv false) past b.bytes)
      len := (scan (streamByte L byte ks c iv false) past b.bytes).length }
    rw [Buffer.bytes_write] at hdone
    exact hdone hne

theorem streamDecryptInPlace_spec (hL : L.Streams byte ks) (hS : ¬StreamMethod.SALSA20.code ≤ c.method.code)
    (h : ctx.Keyed L c iv false past) (hp : ctx.Passes L iv g.bloom past) (hb : b.len ≤ b.capacity) :
    StreamAnswers L c iv (past ++ b.bytes) (scan (streamByte L byte ks c iv false) past b.bytes)
      (streamDecryptInPlace L g b ctx) := by
  simp only [streamDecryptInPlace]
  by_cases h0 : b.len = 0
  · have hnil : b.bytes = [] := List.length_eq_zero_iff.1 (by rw [Buffer.length_bytes, h0])
    simp only [h0, ↓reduceIte, hnil, scan_nil, List.append_nil]
    exact ⟨_, _, _, _, rfl, .more rfl, h, hp⟩
  obtain ⟨ctx₁, hupd, hkeyed, hinit⟩ := cipher_ctx_update_keyed hL hS h b.bytes
  obtain ⟨ctx', g', hfilter, hkeyed', hpass⟩ := streamFilter_passes (g := g) hkeyed
    (hp.congr hinit (hkeyed.cipher.trans h.cipher.symm))
  simp only [Buffer.bytes] at hupd
  simp only [h0, ↓reduceIte, Buffer.get_ok (show 0 + b.len ≤ b.capacity by omega), C.ok_bind, hupd]
  rw [Buffer.put_ok (by rw [length_scan, Block.length_read]; omega), C.ok_bind]
  simp only [hfilter]
  refine ⟨_, _, _, _, rfl, .ok ?_ (scan_bytes_ne_nil _ _ h0), hkeyed', hpass _ _⟩
  exact Block.read_write_same _ _ _

theorem streamTakeIv_spec {nonce_len : Nat} (hb : b.len ≤ b.capacity) (hle : chunk.len ≤ nonce_len)
    (hcap : nonce_len ≤ chunk.capacity) :
    ∃ ct ck, streamTakeIv b chunk nonce_len = .ok (ct, ck) ∧
      ck.bytes = chunk.bytes ++ b.bytes.take (nonce_len - chunk.len) ∧ ck.capacity = chunk.capacity ∧
      ct.bytes = b.bytes.drop (nonce_len - chunk.len) ∧ ct.len ≤ b.len ∧ ct.len ≤ ct.capacity := by
  set left := min (nonce_len - chunk.len) b.len with hleft
  simp only [streamTakeIv, ← hleft, Buffer.get_ok (show 0 + left ≤ b.capacity by omega), C.ok_bind]
  rw [Buffer.put_ok (by rw [Block.length_read]; omega), C.ok_bind, Buffer.get_ok (by omega), C.ok_bind,
    Buffer.put_ok (by rw [Block.length_read]; omega), C.ok_bind]
  refine ⟨_, _, rfl, ?_, rfl, ?_, by simp only; omega, by simp only; omega⟩
  · have hread := Block.read_write_append chunk.data chunk.len 0 (b.data.read 0 left) (Nat.zero_le _)
    rw [Nat.sub_zero, Block.length_read] at hread
    rw [List.take_eq_take_min, Buffer.length_bytes, ← hleft, Buffer.bytes, Buffer.bytes, Buffer.bytes,
      Block.take_read _ _ _ _ (by omega)]
    exact hread
  · have hsame := Block.read_write_same b.data 0 (b.data.read left (b.len - left))
    rw [Block.length_read] at hsame
    rw [List.drop_eq_drop_min, Buffer.length_bytes, ← hleft]
    simp only [Buffer.bytes, hsame, Block.drop_read _ _ _ _ (show left ≤ b.len by omega), Nat.zero_add]

/-- What the receiver has been fed starts like the IV. -/
theorem eq_append_of_take {x : Bytes} (h : x.take iv.length <+: iv) (hle : iv.length ≤ x.length) :
    x = iv ++ x.drop iv.length := by
  have htake : x.take iv.length = iv := h.eq_of_length (by rw [List.length_take]; omega)
  conv_lhs => rw [← List.take_append_drop iv.length x, htake]

/-- No call fails, and each delivers what it adds to the bytes behind the IV. -/
theorem stream_decrypt_spec (hL : L.Streams byte ks) (hM : stream_supported L M)
    (hkey : key.length = supported_stream_ciphers_key_size M) (hiv : iv.length = supported_stream_ciphers_nonce_size M)
    (h : ctx.Receives L (stream_key_init M key) iv g.bloom fed) (hpre : (fed ++ b.bytes).take iv.length <+: iv)
    (hlen : M.Counts (fed.length + b.len - iv.length)) (hb : b.len ≤ b.capacity) (capacity : Nat) :
    ∃ ret b' ctx' g' out, stream_decrypt L g b ctx capacity = .ok (ret, b', ctx', g') ∧ Answers out ret b' ∧
      ctx'.Receives L (stream_key_init M key) iv g'.bloom (fed ++ b.bytes) ∧
      streamDecoded L byte ks (stream_key_init M key) iv (fed ++ b.bytes) =
        streamDecoded L byte ks (stream_key_init M key) iv fed ++ out := by
  have hnl : (stream_key_init M key).nonce_len = iv.length := hiv.symm
  rcases h with ⟨h, hchunk, hcap, hle, hcheck⟩ | ⟨h, rfl, hpass⟩
  · rw [hnl] at hchunk hcap hle
    have hclen : (ctx.chunk.getD (balloc L.malloc iv.length)).len = fed.length := by
      rw [← hchunk, Buffer.length_bytes]
    obtain ⟨ct, ck, htake, hckb, hckc, hctb, hctl, hctc⟩ := streamTakeIv_spec hb (hclen.trans_le hle) hcap
    rw [hchunk, hclen] at hckb
    rw [hclen] at hctb
    have hck : ck.bytes = (fed ++ b.bytes).take iv.length := by
      rw [hckb, List.take_append, List.take_of_length_le hle]
    have hcklen : ck.len = min iv.length (fed.length + b.len) := by
      rw [← ck.length_bytes, hck, List.length_take, List.length_append, Buffer.length_bytes]
    have hcnl : ctx.cipher.nonce_len = iv.length := by rw [h.cipher, hnl]
    simp only [stream_decrypt, h.init, ne_eq, not_true_eq_false, false_and, ↓reduceIte, hcnl, htake, C.ok_bind]
    by_cases hlt : ck.len < iv.length
    · -- the IV is not complete, and all of the input belongs to it
      have hall : (fed ++ b.bytes).length ≤ iv.length := by
        rw [List.length_append, Buffer.length_bytes]
        omega
      rw [List.take_of_length_le hall] at hck
      simp only [hlt, ↓reduceIte]
      refine ⟨_, _, _, _, [], rfl, .more rfl, .waiting ⟨rfl, h.cipher, h.evp⟩ hck ?_ (hnl ▸ hall) hcheck, ?_⟩
      · rw [hnl, Option.getD_some, hckc]
        exact hcap
      · rw [streamDecoded_short hall, streamDecoded_short hle]
        rfl
    have hfull : iv.length ≤ (fed ++ b.bytes).length := by
      rw [List.length_append, Buffer.length_bytes]
      omega
    have hbody : fed ++ b.bytes = iv ++ ct.bytes := by
      conv_lhs => rw [eq_append_of_take hpre hfull]
      rw [hctb, List.drop_append, List.drop_of_length_le hle, List.nil_append]
    have hread : ck.data.read 0 iv.length = iv := by
      rw [show iv.length = ck.len by omega]
      rw [hbody, List.take_left] at hck
      exact hck
    simp only [hlt, ↓reduceIte, Buffer.get_ok (show 0 + iv.length ≤ ck.capacity by omega), C.ok_bind, hread]
    have hun : StreamCtx.Unkeyed (stream_key_init M key) { ctx with chunk := some ck, nonce := iv } :=
      ⟨h.init, h.cipher, h.evp⟩
    obtain ⟨ctx₁, hset, -, hkeyed⟩ := cipher_ctx_set_nonce_keyed hL hM hkey hiv hun rfl false
    simp only [h.init] at hset
    have hc₁ : ctx₁.cipher = stream_key_init M key := (hkeyed 1).cipher
    have hpassed : ¬(StreamMethod.RC4_MD5.code ≤ ctx₁.cipher.method.code ∧
        ppbloom_check L.murmurhash2 g.bloom iv = 1) := by
      rw [hc₁]
      exact fun hrep => hcheck hrep.1 hrep.2
    simp only [hset, C.ok_bind, hpassed, ↓reduceIte]
    have hctlen : ct.len = (fed ++ b.bytes).length - iv.length := by
      rw [hbody, List.length_append, Nat.add_sub_cancel_left, Buffer.length_bytes]
    obtain ⟨n, hn, -, hroom⟩ := brealloc_eq g.stream_decrypt_tmp b.len capacity
    rw [hn]
    obtain ⟨ret, b', ctx', g', hrest, hans, hkeyed', hpass'⟩ := streamDecryptRest_spec hL (hkeyed 1)
      ⟨by simp, fun hmd5 => .inr ⟨rfl, rfl, hcheck (hc₁ ▸ hmd5)⟩⟩ (b := ct)
      (hlen.mono (by rw [hctlen, List.length_append, Buffer.length_bytes, List.length_nil]; omega)) hctc
      ⟨g.stream_decrypt_tmp.idx, ct.len, n, g.stream_decrypt_tmp.data⟩ rfl (by simp only; omega) capacity
    refine ⟨ret, b', ctx', g', _, hrest, hans, .keyed hkeyed' hbody hpass', ?_⟩
    rw [hbody, streamDecoded_short hle, List.nil_append, streamDecoded, List.drop_left]
  · have hinit := hpass.init
    rename_i body
    have hlen' : M.Counts (body.length + b.len) := by
      rw [List.length_append] at hlen
      exact hlen.mono (by omega)
    have hanswers : StreamAnswers L (stream_key_init M key) iv (body ++ b.bytes)
        (scan (streamByte L byte ks (stream_key_init M key) iv false) body b.bytes)
        (stream_decrypt L g b ctx capacity) := by
      by_cases hS : StreamMethod.SALSA20.code ≤ (stream_key_init M key).method.code
      · obtain ⟨n, hn, -, hroom⟩ := brealloc_eq g.stream_decrypt_tmp b.len capacity
        simp only [stream_decrypt, hinit, ne_eq, not_false_eq_true, true_and, h.cipher, Nat.not_lt.2 hS, ↓reduceIte, hn]
        exact streamDecryptRest_spec hL h hpass hlen' hb
          ⟨g.stream_decrypt_tmp.idx, b.len, n, g.stream_decrypt_tmp.data⟩ rfl hroom capacity
      · simp only [stream_decrypt, hinit, ne_eq, not_false_eq_true, true_and, h.cipher, Nat.not_le.1 hS, ↓reduceIte]
        exact streamDecryptInPlace_spec hL hS h hpass hb
    obtain ⟨ret, b', ctx', g', hcall, hans, hkeyed', hpass'⟩ := hanswers
    refine ⟨ret, b', ctx', g', _, hcall, hans, .keyed hkeyed' (List.append_assoc _ _ _) hpass', ?_⟩
    rw [List.append_assoc, streamDecoded_append]

/-! ### Runs -/

/-- Calls of `stream_encrypt` in one context. -/
abbrev streamEncryptCalls (L : CryptoLib) (capacity : Nat) :
    CryptoStatics → StreamCtx → List Buffer → C (List (CryptoRet × Bytes) × StreamCtx × CryptoStatics) :=
  callsOf fun g b ctx => stream_encrypt L g b ctx capacity

/-- Calls of `stream_decrypt` in one context. -/
abbrev streamDecryptCalls (L : CryptoLib) (capacity : Nat) :
    CryptoState → StreamCtx → List Buffer → C (List (CryptoRet × Bytes) × StreamCtx × CryptoState) :=
  callsUntilError fun g b ctx => stream_decrypt L g b ctx capacity

/-- The first call sends the IV, and all of them the bytes of the plaintext. -/
theorem streamEncryptCalls_spec (hL : L.Streams byte ks) (hM : stream_supported L M)
    (hkey : key.length = supported_stream_ciphers_key_size M) (hiv : iv.length = supported_stream_ciphers_nonce_size M)
    (bs : List Buffer) (hbs : ∀ b ∈ bs, b.len ≤ b.capacity) (h : ctx.Sends L (stream_key_init M key) iv past)
    (hlen : M.Counts (past.length + (fedBytes bs).length)) (g : CryptoStatics) (capacity : Nat) :
    ∃ cs ctx' g', streamEncryptCalls L capacity g ctx bs = .ok (cs, ctx', g') ∧ cs.length = bs.length ∧
      (∀ c ∈ cs, c.1 = .CRYPTO_OK) ∧ (cs.map (·.2)).flatten = (if ctx.init = 0 ∧ bs ≠ [] then iv else []) ++
        scan (streamByte L byte ks (stream_key_init M key) iv true) past (fedBytes bs) := by
  induction bs generalizing ctx g past with
  | nil => exact ⟨[], ctx, g, rfl, rfl, by simp, by simp [fedBytes]⟩
  | cons b bs ih =>
    obtain ⟨hb, hbs⟩ := List.forall_mem_cons.1 hbs
    rw [fedBytes_cons, List.length_append, Buffer.length_bytes] at hlen
    obtain ⟨b', ctx₁, g₁, hcall, hbytes, hsends, hinit⟩ :=
      stream_encrypt_spec hL hM hkey hiv h (hlen.mono (by omega)) hb g capacity
    obtain ⟨cs, ctx', g', hrun, hcs, hok, hflat⟩ := ih hbs hsends
      (hlen.mono (by rw [List.length_append, Buffer.length_bytes]; omega)) g₁
    rw [if_neg (fun hi => hinit hi.1), List.nil_append] at hflat
    refine ⟨(.CRYPTO_OK, b'.bytes) :: cs, ctx', g', ?_, ?_, ?_, ?_⟩
    · simp only [callsOf, hcall, C.ok_bind, hrun]
      rfl
    · rw [List.length_cons, List.length_cons, hcs]
    · exact List.forall_mem_cons.2 ⟨rfl, hok⟩
    · rw [List.map_cons, List.flatten_cons, hflat, hbytes, fedBytes_cons, scan_append, List.append_assoc]
      simp only [ne_eq, reduceCtorEq, not_false_eq_true, and_true]

theorem delivered_cons (r : CryptoRet × Bytes) (rs : List (CryptoRet × Bytes)) :
    delivered (r :: rs) = delivered [r] ++ delivered rs := by
  rw [delivered, delivered, delivered, ← List.flatten_append, ← List.map_append, ← List.filter_append]
  rfl

/-- No call fails, and together they deliver what the bytes behind the IV decrypt to. -/
theorem streamDecryptCalls_spec (hL : L.Streams byte ks) (hM : stream_supported L M)
    (hkey : key.length = supported_stream_ciphers_key_size M) (hiv : iv.length = supported_stream_ciphers_nonce_size M)
    (bs : List Buffer) (hbs : ∀ b ∈ bs, b.len ≤ b.capacity) (h : ctx.Receives L (stream_key_init M key) iv g.bloom fed)
    (hpre : (fed ++ fedBytes bs).take iv.length <+: iv)
    (hlen : M.Counts (fed.length + (fedBytes bs).length - iv.length)) (capacity : Nat) :
    ∃ rs ctx' g', streamDecryptCalls L capacity g ctx bs = .ok (rs, ctx', g') ∧ rs.length = bs.length ∧
      (∀ r ∈ rs, r.1 ≠ .CRYPTO_ERROR) ∧ streamDecoded L byte ks (stream_key_init M key) iv (fed ++ fedBytes bs) =
        streamDecoded L byte ks (stream_key_init M key) iv fed ++ delivered rs := by
  induction bs generalizing ctx g fed with
  | nil => exact ⟨[], ctx, g, rfl, rfl, by simp, by simp [fedBytes, delivered]⟩
  | cons b bs ih =>
    obtain ⟨hb, hbs⟩ := List.forall_mem_cons.1 hbs
    rw [fedBytes_cons, ← List.append_assoc] at hpre ⊢
    rw [fedBytes_cons, List.length_append, Buffer.length_bytes] at hlen
    have hpre₁ : (fed ++ b.bytes).take iv.length <+: iv := (List.IsPrefix.take (List.prefix_append _ _) _).trans hpre
    obtain ⟨ret, b', ctx₁, g₁, out, hcall, hans, hR, hdec⟩ :=
      stream_decrypt_spec hL hM hkey hiv h hpre₁ (hlen.mono (by omega)) hb capacity
    have hret := hans.ne_error
    obtain ⟨rs, ctx', g', hrun, hrs, herr, hdec'⟩ := ih hbs hR hpre
      (hlen.mono (by rw [List.length_append, Buffer.length_bytes]; omega))
    refine ⟨(ret, b'.bytes) :: rs, ctx', g', ?_, ?_, ?_, ?_⟩
    · simp only [callsUntilError, hcall, C.ok_bind, hret, ↓reduceIte, hrun]
      rfl
    · rw [List.length_cons, List.length_cons, hrs]
    · exact List.forall_mem_cons.2 ⟨hret, herr⟩
    · rw [hdec', hdec, delivered_cons (ret, b'.bytes) rs, hans.delivered, List.append_assoc]

/-- A sender and a receiver of one stream, however the plaintext and the stream are cut: no call fails, and the
plaintext arrives. If there is a segment at all, the stream is the datagram of the plaintext. -/
theorem stream_segmentation (hL : L.Streams byte ks) (hM : stream_supported L M)
    (hkey : key.length = supported_stream_ciphers_key_size M) (hiv : iv.length = supported_stream_ciphers_nonce_size M)
    (plain : List Buffer) (hplain : ∀ b ∈ plain, b.len ≤ b.capacity) (hlen : (fedBytes plain).length < 2 ^ 38)
    (g : CryptoStatics) (capacity : Nat) :
    ∃ sctx cs sctx' g', stream_ctx_init L (stream_key_init M key) true iv = .ok sctx ∧
      streamEncryptCalls L capacity g sctx plain = .ok (cs, sctx', g') ∧ cs.length = plain.length ∧
      (∀ c ∈ cs, c.1 = .CRYPTO_OK) ∧
      (plain ≠ [] → ∀ (b : Buffer) (g : CryptoStatics) (capacity : Nat), b.len ≤ b.capacity →
        b.bytes = fedBytes plain → ∃ b' g', stream_encrypt_all L g iv b (stream_key_init M key) capacity =
          .ok (.CRYPTO_OK, b', g') ∧ b'.bytes = (cs.map (·.2)).flatten) ∧
      ∀ (segs : List Buffer) (gr : CryptoState) (capacity : Nat), (∀ b ∈ segs, b.len ≤ b.capacity) →
        fedBytes segs = (cs.map (·.2)).flatten → ppbloom_check L.murmurhash2 gr.bloom iv ≠ 1 →
        ∃ rctx rs rctx' gr', stream_ctx_init L (stream_key_init M key) false [] = .ok rctx ∧
          streamDecryptCalls L capacity gr rctx segs = .ok (rs, rctx', gr') ∧ rs.length = segs.length ∧
          (∀ r ∈ rs, r.1 ≠ .CRYPTO_ERROR) ∧ delivered rs = fedBytes plain := by
  obtain ⟨sctx, hsctx, hun, -, hn⟩ := stream_ctx_init_unkeyed hM key true iv
  obtain ⟨cs, sctx', g', hsend, hcs, hok, hflat⟩ := streamEncryptCalls_spec hL hM hkey hiv plain hplain
    (.fresh hun (hn rfl) rfl) (StreamMethod.counts_of_lt (by simpa using hlen)) g capacity
  rw [hun.init] at hflat
  refine ⟨sctx, cs, sctx', g', hsctx, hsend, hcs, hok, ?_, ?_⟩
  · intro hne b g capacity hb hbytes
    obtain ⟨b', g', hall, hb'⟩ := stream_encrypt_all_spec hL hM hkey hiv hb g capacity
    refine ⟨b', g', hall, ?_⟩
    rw [hb', hbytes, hflat, if_pos ⟨rfl, hne⟩, streamBytes]
  intro segs gr capacity hsegs hfed hcheck
  obtain ⟨rctx, hrctx, hrun, hchunk, -⟩ := stream_ctx_init_unkeyed hM key false []
  have hR : rctx.Receives L (stream_key_init M key) iv gr.bloom [] := by
    refine .waiting hrun ?_ ?_ (Nat.zero_le _) fun _ => hcheck
    · rw [hchunk]
      rfl
    · rw [hchunk]
      exact Nat.le_refl _
  have hstream : fedBytes segs = [] ∧ fedBytes plain = [] ∨
      fedBytes segs = iv ++ streamBytes L byte ks (stream_key_init M key) iv (fedBytes plain) := by
    rw [hfed, hflat, streamBytes]
    by_cases hne : plain = []
    · rw [hne]
      exact .inl (by simp [fedBytes])
    · exact .inr (by rw [if_pos ⟨rfl, hne⟩])
  have hpre : ([] ++ fedBytes segs).take iv.length <+: iv := by
    rw [List.nil_append]
    rcases hstream with ⟨hs, -⟩ | hs
    · rw [hs, List.take_nil]
      exact List.nil_prefix
    · rw [hs, List.take_left]
  have hsize : (fedBytes segs).length ≤ iv.length + (fedBytes plain).length := by
    rcases hstream with ⟨hs, -⟩ | hs
    · simp [hs]
    · rw [hs, List.length_append, streamBytes, length_scan]
  obtain ⟨rs, rctx', gr', hrecv, hrs, herr, hdec⟩ := streamDecryptCalls_spec hL hM hkey hiv segs hsegs hR hpre
    (StreamMethod.counts_of_lt (by rw [List.length_nil]; omega)) capacity
  refine ⟨rctx, rs, rctx', gr', hrctx, hrecv, hrs, herr, ?_⟩
  rw [streamDecoded_nil, List.nil_append, List.nil_append] at hdec
  rw [← hdec]
  rcases hstream with ⟨hs, hp⟩ | hs
  · rw [hs, hp, streamDecoded_nil]
  · rw [hs, streamDecoded, List.drop_left, scan_streamBytes hL]

end

/-! ### A cipher that xors positions -/

def xorPos (n : Nat) (x : Bytes) : Bytes := x.mapIdx fun i b => b ^^^ UInt8.ofNat (n + i)

def xorLib : CryptoLib :=
  { tagLib (fun _ _ => true) with
    murmurhash2 := fun x seed => x.foldl (fun h b => h * 31 + b.toUInt32 + 1) seed
    cipher_update := fun _ evp x => some (xorPos evp.input.length x)
    stream_xor_ic := fun _ _ _ ic x => xorPos (SODIUM_BLOCK_SIZE * ic) x }

theorem xorLib_streams : xorLib.Streams (fun _ _ _ _ => pad fun i b => b ^^^ UInt8.ofNat i)
    (fun _ _ _ => UInt8.ofNat) where
  md5_length _ := rfl
  setup _ _ _ := rfl
  update M evp x := by
    rw [scan_pad]
    rfl
  inverts M key iv := by
    refine inverts_pad ?_
    intro i b
    rw [UInt8.xor_assoc, UInt8.xor_self, UInt8.xor_zero]
  xor_ic _ _ _ _ _ := rfl

theorem xorLib_lawful : xorLib.Lawful where
  decrypt_length := @tagLib_lawful.decrypt_length
  encrypts := tagLib_lawful.encrypts
  decrypt_encrypt := @tagLib_lawful.decrypt_encrypt

def CryptoStatics.start : CryptoStatics :=
  { CryptoState.start with
    aead_encrypt_all_tmp := .static
    stream_encrypt_tmp := .static
    stream_encrypt_all_tmp := .static }

theorem stream_segmentation_xorLib :
    ∃ sctx cs sctx' g', stream_ctx_init xorLib (stream_key_init .CHACHA20 (List.replicate 32 1)) true
        (List.replicate 8 2) = .ok sctx ∧
      streamEncryptCalls xorLib SOCKET_BUF_SIZE .start sctx [Buffer.ofBytes [3], Buffer.ofBytes [4, 5]] =
        .ok (cs, sctx', g') ∧ cs.length = 2 ∧ (∀ c ∈ cs, c.1 = .CRYPTO_OK) ∧
      ([Buffer.ofBytes [3], Buffer.ofBytes [4, 5]] ≠ [] → ∀ (b : Buffer) (g : CryptoStatics) (capacity : Nat),
        b.len ≤ b.capacity → b.bytes = fedBytes [Buffer.ofBytes [3], Buffer.ofBytes [4, 5]] →
        ∃ b' g', stream_encrypt_all xorLib g (List.replicate 8 2) b
          (stream_key_init .CHACHA20 (List.replicate 32 1)) capacity =
            .ok (.CRYPTO_OK, b', g') ∧ b'.bytes = (cs.map (·.2)).flatten) ∧
      ∀ (segs : List Buffer) (gr : CryptoState) (capacity : Nat), (∀ b ∈ segs, b.len ≤ b.capacity) →
        fedBytes segs = (cs.map (·.2)).flatten →
        ppbloom_check xorLib.murmurhash2 gr.bloom (List.replicate 8 2) ≠ 1 →
        ∃ rctx rs rctx' gr', stream_ctx_init xorLib (stream_key_init .CHACHA20 (List.replicate 32 1)) false [] =
            .ok rctx ∧
          streamDecryptCalls xorLib capacity gr rctx segs = .ok (rs, rctx', gr') ∧ rs.length = segs.length ∧
          (∀ r ∈ rs, r.1 ≠ .CRYPTO_ERROR) ∧
          delivered rs = fedBytes [Buffer.ofBytes [3], Buffer.ofBytes [4, 5]] :=
  stream_segmentation xorLib_streams ⟨by decide, .inl (by decide)⟩ rfl rfl
    [Buffer.ofBytes [3], Buffer.ofBytes [4, 5]] (by simp [Buffer.ofBytes]) (by decide) .start SOCKET_BUF_SIZE

/-- Without a segment nothing is sent, while the datagram of the empty plaintext is the IV. -/
theorem stream_segmentation_nil :
    ∃ sctx cs sctx' g' b' g'', stream_ctx_init xorLib (stream_key_init .AES_128_CTR (List.replicate 16 1)) true
        (List.replicate 16 2) = .ok sctx ∧
      streamEncryptCalls xorLib SOCKET_BUF_SIZE .start sctx [] = .ok (cs, sctx', g') ∧
      stream_encrypt_all xorLib .start (List.replicate 16 2) (Buffer.ofBytes [])
        (stream_key_init .AES_128_CTR (List.replicate 16 1)) SOCKET_BUF_SIZE = .ok (.CRYPTO_OK, b', g'') ∧
      b'.bytes ≠ (cs.map (·.2)).flatten := by
  have hM : stream_supported xorLib .AES_128_CTR := ⟨by decide, .inr (by decide)⟩
  obtain ⟨sctx, hsctx, -⟩ := stream_ctx_init_unkeyed hM (List.replicate 16 1) true (List.replicate 16 2)
  obtain ⟨b', g'', hall, hb'⟩ := stream_encrypt_all_spec xorLib_streams hM (List.length_replicate (n := 16) (a := 1))
    (List.length_replicate (n := 16) (a := 2)) (b := Buffer.ofBytes []) (Nat.le_refl _) .start SOCKET_BUF_SIZE
  refine ⟨sctx, [], sctx, .start, b', g'', hsctx, rfl, hall, ?_⟩
  rw [hb']
  exact List.cons_ne_nil _ _

end OutlineServer
