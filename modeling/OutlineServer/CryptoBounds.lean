import OutlineServer.Datagrams
import OutlineServer.StreamBounds

/-!
# Runs of the crypto layer

The contexts of all connections over the static state that they share. `Admitted` is how the relays call: an input
lies in a buffer that has room for `capacity` bytes, and TCP encrypts at most `SOCKET_BUF_SIZE` bytes at once. Every
reachable state has contexts that fit, whatever has gone through the static buffers (`CryptoLayer.fits`).
-/

namespace OutlineServer

structure CryptoLayer where
  statics : CryptoStatics
  ctxs : List (AeadCtx ⊕ StreamCtx)

/-- The calls of `crypto_t`, with what `rand_bytes` gives those that need a salt or an IV. -/
inductive CryptoCall
  | ctx_init (method : AeadMethod ⊕ StreamMethod) (key : Bytes) (enc : Bool) (salt : Bytes)
  | ctx_release (i : Nat)
  | encrypt (i : Nat) (plaintext : Buffer) (capacity : Nat)
  | decrypt (i : Nat) (ciphertext : Buffer) (capacity : Nat)
  | encrypt_all (method : AeadMethod ⊕ StreamMethod) (key salt : Bytes) (plaintext : Buffer) (capacity : Nat)
  | decrypt_all (method : AeadMethod ⊕ StreamMethod) (key : Bytes) (ciphertext : Buffer) (capacity : Nat)

def ctxChunk : AeadCtx ⊕ StreamCtx → Option Buffer
  | .inl ctx => ctx.chunk
  | .inr ctx => ctx.chunk

def CtxFits : AeadCtx ⊕ StreamCtx → Prop
  | .inl ctx => ctx.Fits
  | .inr ctx => ctx.Fits

namespace CryptoCall

def capacity : CryptoCall → Nat
  | ctx_init .. | ctx_release _ => 0
  | encrypt _ _ capacity | decrypt _ _ capacity | encrypt_all _ _ _ _ capacity | decrypt_all _ _ _ capacity => capacity

/-- `stream_init` makes no cipher of `TABLE`. -/
def Admitted (s : CryptoLayer) : CryptoCall → Prop
  | ctx_init method _ _ salt => method ≠ .inr .TABLE ∧ salt.length = salt_size method
  | ctx_release i => i < s.ctxs.length
  | encrypt i plaintext capacity => i < s.ctxs.length ∧ plaintext.Hands capacity ∧ plaintext.len ≤ SOCKET_BUF_SIZE
  | decrypt i ciphertext capacity => i < s.ctxs.length ∧ ciphertext.Hands capacity
  | encrypt_all method _ salt plaintext capacity =>
    method ≠ .inr .TABLE ∧ salt.length = salt_size method ∧ plaintext.Hands capacity
  | decrypt_all method _ ciphertext capacity => method ≠ .inr .TABLE ∧ ciphertext.Hands capacity

variable (L : CryptoLib)

/-- The buffer that the call hands back, and the state. -/
def run (s : CryptoLayer) : CryptoCall → C (Option Buffer × CryptoLayer)
  | ctx_init (.inl M) key enc salt =>
    return (none,
      { s with ctxs := s.ctxs ++ [.inl (aead_ctx_init (aead_key_init M key) (if enc then some salt else none))] })
  | ctx_init (.inr M) key enc salt => do
    let ctx ← stream_ctx_init L (stream_key_init M key) enc salt
    return (none, { s with ctxs := s.ctxs ++ [.inr ctx] })
  | ctx_release i => return (none, { s with ctxs := s.ctxs.eraseIdx i })
  | encrypt i plaintext capacity =>
    match s.ctxs[i]? with
    | none => .error .bounds
    | some (.inl ctx) => do
      let (_, b, ctx, g) ← aead_encrypt L s.statics.toCryptoState plaintext ctx capacity
      return (some b, ⟨{ s.statics with toCryptoState := g }, s.ctxs.set i (.inl ctx)⟩)
    | some (.inr ctx) => do
      let (_, b, ctx, g) ← stream_encrypt L s.statics plaintext ctx capacity
      return (some b, ⟨g, s.ctxs.set i (.inr ctx)⟩)
  | decrypt i ciphertext capacity =>
    match s.ctxs[i]? with
    | none => .error .bounds
    | some (.inl ctx) => do
      let (_, b, ctx, g) ← aead_decrypt L s.statics.toCryptoState ciphertext ctx capacity
      return (some b, ⟨{ s.statics with toCryptoState := g }, s.ctxs.set i (.inl ctx)⟩)
    | some (.inr ctx) => do
      let (_, b, ctx, g) ← stream_decrypt L s.statics.toCryptoState ciphertext ctx capacity
      return (some b, ⟨{ s.statics with toCryptoState := g }, s.ctxs.set i (.inr ctx)⟩)
  | encrypt_all method key salt plaintext capacity => do
    let (_, b, g) ← OutlineServer.encrypt_all L method key capacity s.statics salt plaintext
    return (some b, { s with statics := g })
  | decrypt_all method key ciphertext capacity => do
    let (_, b, g) ← (decryptor L method key capacity).decrypt_all s.statics.toCryptoState ciphertext
    return (some b, { s with statics := { s.statics with toCryptoState := g } })

end CryptoCall

/-- The static buffers may hold anything at the start. -/
def cryptoLts (L : CryptoLib) : Lts CryptoLayer CryptoCall where
  init s := s.ctxs = []
  step s c s' := c.Admitted s ∧ ∃ b, c.run L s = .ok (b, s')

section
variable {L : CryptoLib} {s : CryptoLayer} {ctx : AeadCtx ⊕ StreamCtx} {method : AeadMethod ⊕ StreamMethod}
  {key salt : Bytes} {b : Buffer} {capacity : Nat}

theorem encrypt_all_within (hL : L.Lengths) (hsalt : salt.length = salt_size method) (hb : b.Hands capacity)
    (g : CryptoStatics) :
    C.Within (encrypt_all L method key capacity g salt b) fun r => r.2.1.Hands capacity := by
  cases method with
  | inl M => exact aead_encrypt_all_within hL (supported_aead_key_init M key) hsalt hb g
  | inr M => exact stream_encrypt_all_within hL hsalt hb g

theorem decrypt_all_within (hL : L.Lengths) (hb : b.Hands capacity) (g : CryptoState) :
    C.Within ((decryptor L method key capacity).decrypt_all g b) fun r => r.2.1.Hands capacity ∧ r.2.1.len ≤ b.len := by
  cases method with
  | inl M => exact aead_decrypt_all_within hL (supported_aead_key_init M key) hb g
  | inr M => exact stream_decrypt_all_within hL hb g

def CryptoLayer.Fits (s : CryptoLayer) : Prop := ∀ ctx ∈ s.ctxs, CtxFits ctx

theorem CtxFits.chunk (h : CtxFits ctx) {b : Buffer} (hb : b ∈ ctxChunk ctx) : b.idx + b.len ≤ b.capacity := by
  cases ctx with
  | inl ctx => exact AeadCtx.Fits.chunk h b hb
  | inr ctx =>
    obtain ⟨hidx, hlen, hroom⟩ := StreamCtx.Fits.chunk h b hb
    omega

theorem CryptoLayer.Fits.set (h : s.Fits) (ctx : AeadCtx ⊕ StreamCtx) (hctx : CtxFits ctx) (i : Nat)
    (g : CryptoStatics) : CryptoLayer.Fits ⟨g, s.ctxs.set i ctx⟩ := by
  intro c hc
  rcases List.mem_or_eq_of_mem_set hc with hc | rfl
  · exact h c hc
  · exact hctx

theorem CryptoLayer.Fits.push (h : s.Fits) (ctx : AeadCtx ⊕ StreamCtx) (hctx : CtxFits ctx) (g : CryptoStatics) :
    CryptoLayer.Fits ⟨g, s.ctxs ++ [ctx]⟩ := by
  intro c hc
  rcases List.mem_append.1 hc with hc | hc
  · exact h c hc
  · rw [List.mem_singleton.1 hc]
    exact hctx

/-- An admitted call keeps the contexts within their buffers, and hands back a buffer for the next input. -/
theorem CryptoCall.run_within (hL : L.Lengths) (h : s.Fits) {c : CryptoCall} (hc : c.Admitted s) :
    C.Within (c.run L s) fun r => (∀ b ∈ r.1, b.Hands c.capacity) ∧ r.2.Fits := by
  have hnone : ∀ b ∈ (none : Option Buffer), b.Hands c.capacity := nofun
  have hsome : ∀ b : Buffer, b.Hands c.capacity → ∀ b' ∈ some b, b'.Hands c.capacity := by
    rintro b hb _ ⟨⟩
    exact hb
  cases c with
  | ctx_init method key enc salt =>
    obtain ⟨-, hsalt⟩ := hc
    cases method with
    | inl M =>
      refine ⟨hnone, h.push (.inl _) ⟨supported_aead_key_init M key, ?_, ?_⟩ s.statics⟩
      · cases enc
        · exact List.length_replicate
        · exact hsalt
      · rintro b ⟨⟩
    | inr M =>
      refine (stream_ctx_init_within fun _ => hsalt).bind ?_
      rintro ctx ⟨hctx, -⟩
      exact ⟨hnone, h.push (.inr ctx) hctx s.statics⟩
  | ctx_release i => exact ⟨hnone, fun ctx hctx => h ctx (List.mem_of_mem_eraseIdx hctx)⟩
  | encrypt i b capacity =>
    obtain ⟨hi, hb, hle⟩ := hc
    have hctx := h _ (List.getElem_mem hi)
    simp only [run, List.getElem?_eq_getElem hi]
    generalize s.ctxs[i] = ctx at hctx
    cases ctx with
    | inl ctx =>
      refine (aead_encrypt_within hL hctx hb hle _).bind ?_
      rintro ⟨ret, b', ctx', g⟩ ⟨hb', hctx'⟩
      exact ⟨hsome b' hb', h.set (.inl ctx') hctx' i _⟩
    | inr ctx =>
      refine (stream_encrypt_within hL hctx hb _).bind ?_
      rintro ⟨ret, b', ctx', g⟩ ⟨hb', hctx'⟩
      exact ⟨hsome b' hb', h.set (.inr ctx') hctx' i _⟩
  | decrypt i b capacity =>
    obtain ⟨hi, hb⟩ := hc
    have hctx := h _ (List.getElem_mem hi)
    simp only [run, List.getElem?_eq_getElem hi]
    generalize s.ctxs[i] = ctx at hctx
    cases ctx with
    | inl ctx =>
      refine (aead_decrypt_within hL hctx hb _).bind ?_
      rintro ⟨ret, b', ctx', g⟩ ⟨hb', hctx'⟩
      exact ⟨hsome b' hb', h.set (.inl ctx') hctx' i _⟩
    | inr ctx =>
      refine (stream_decrypt_within hL hctx hb _).bind ?_
      rintro ⟨ret, b', ctx', g⟩ ⟨hb', hctx'⟩
      exact ⟨hsome b' hb', h.set (.inr ctx') hctx' i _⟩
  | encrypt_all method key salt b capacity =>
    obtain ⟨-, hsalt, hb⟩ := hc
    refine (encrypt_all_within hL hsalt hb _).bind ?_
    rintro ⟨ret, b', g⟩ hb'
    exact ⟨hsome b' hb', h⟩
  | decrypt_all method key b capacity =>
    obtain ⟨-, hb⟩ := hc
    refine (decrypt_all_within hL hb _).bind ?_
    rintro ⟨ret, b', g⟩ ⟨hb', -⟩
    exact ⟨hsome b' hb', h⟩

theorem CryptoLayer.fits (hL : L.Lengths) (h : (cryptoLts L).Reach s) : s.Fits := by
  refine h.invariant ?_ ?_
  · intro s hs ctx hctx
    rw [show s.ctxs = [] from hs] at hctx
    cases hctx
  · rintro s c s' - hs ⟨hc, b, hrun⟩
    exact ((CryptoCall.run_within hL hs hc).of_eq_ok hrun).2

/-- In every state that calls lead to, no admitted call accesses memory out of bounds, fails an assertion or loops,
and the buffer handed back has room for the next input. -/
theorem crypto_bounds (hL : L.Lengths) (h : (cryptoLts L).Reach s) :
    (∀ ctx ∈ s.ctxs, ∀ b ∈ ctxChunk ctx, b.idx + b.len ≤ b.capacity) ∧
      ∀ c : CryptoCall, c.Admitted s → (∀ e, c.run L s = .error e → e = .fatal) ∧
        ∀ b s', c.run L s = .ok (some b, s') → c.capacity ≤ b.capacity ∧ b.len ≤ b.capacity := by
  have hfits := CryptoLayer.fits hL h
  refine ⟨fun ctx hctx b hb => (hfits ctx hctx).chunk hb, ?_⟩
  intro c hc
  have hrun := CryptoCall.run_within hL hfits hc
  constructor
  · intro e he
    rw [he] at hrun
    exact hrun
  · intro b s' hok
    obtain ⟨hroom, hlen⟩ := (hrun.of_eq_ok hok).1 b rfl
    exact ⟨hroom, hlen⟩

end

theorem xorLib_lengths : xorLib.Lengths where
  toSized := xorLib_lawful.toSized
  encrypt_length h := by
    obtain ⟨c, hc, hlen⟩ := xorLib_lawful.encrypts _ _ _ _
    rw [h] at hc
    cases hc
    exact hlen
  update_length h := by
    cases h
    exact List.length_mapIdx
  xor_length _ _ _ _ _ := List.length_mapIdx

/-- The state of a relay that has made its two contexts and has received five bytes. -/
theorem crypto_bounds_two : ∃ s : CryptoLayer, s.ctxs.length = 2 ∧
    s.ctxs.any (fun ctx => (ctxChunk ctx).any (·.len == 5)) = true ∧
    (∀ ctx ∈ s.ctxs, ∀ b ∈ ctxChunk ctx, b.idx + b.len ≤ b.capacity) ∧
      ∀ c : CryptoCall, c.Admitted s → (∀ e, c.run xorLib s = .error e → e = .fatal) ∧
        ∀ b s', c.run xorLib s = .ok (some b, s') → c.capacity ≤ b.capacity ∧ b.len ≤ b.capacity := by
  let key : Bytes := List.replicate 16 1
  let s₀ : CryptoLayer := ⟨.start, []⟩
  let s₁ : CryptoLayer := ⟨.start, [.inl (aead_ctx_init (aead_key_init .AES128GCM key) (some key))]⟩
  let s₂ : CryptoLayer := ⟨.start, s₁.ctxs ++ [.inl (aead_ctx_init (aead_key_init .AES128GCM key) none)]⟩
  have h₁ : (cryptoLts xorLib).Reach s₁ := (Lts.Reach.init (s := s₀) rfl).step
    (e := .ctx_init (.inl .AES128GCM) key true key) ⟨⟨nofun, rfl⟩, none, rfl⟩
  have h₂ : (cryptoLts xorLib).Reach s₂ := h₁.step
    (e := .ctx_init (.inl .AES128GCM) key false key) ⟨⟨nofun, rfl⟩, none, rfl⟩
  have h₃ := h₂.step (e := CryptoCall.decrypt 1 (Buffer.ofBytes [1, 2, 3, 4, 5]) 5)
    ⟨(⟨by decide, ⟨Nat.le_refl _, Nat.le_refl _⟩⟩ : 1 < s₂.ctxs.length ∧
      Buffer.Hands 5 (Buffer.ofBytes [1, 2, 3, 4, 5])), _, rfl⟩
  exact ⟨_, rfl, rfl, crypto_bounds xorLib_lengths h₃⟩

end OutlineServer
