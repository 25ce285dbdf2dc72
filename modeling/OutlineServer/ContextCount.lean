import OutlineServer.CryptoBounds

/-!
# The contexts of the one-shot functions (`aead.c`, `stream.c`)

The four functions again, with the number of the contexts that have been initialised and not released. A function that
returns leaves this number as it was (`Released`), but for a decryption of a salt or IV that the filter reports, which
returns without the release.
-/

namespace OutlineServer.Contexts

section
variable (L : CryptoLib) (live : Int)

def aead_ctx_init (cipher : Cipher AeadMethod) (salt : Option Bytes) : AeadCtx × Int :=
  (OutlineServer.aead_ctx_init cipher salt, live + 1)

def aead_ctx_release : Int := live - 1

def stream_ctx_init (cipher : Cipher StreamMethod) (enc : Bool) (nonce : Bytes) : C (StreamCtx × Int) := do
  let ctx ← OutlineServer.stream_ctx_init L cipher enc nonce
  return (ctx, live + 1)

def stream_ctx_release : Int := live - 1

def aead_encrypt_all (g : CryptoStatics) (salt : Bytes) (plaintext : Buffer) (cipher : Cipher AeadMethod)
    (capacity : Nat) : C ((CryptoRet × Buffer × CryptoStatics) × Int) := do
  let ctx := aead_ctx_init live cipher (some salt)
  let live := ctx.2
  let salt_len := cipher.key_len
  let tag_len := cipher.tag_len
  let ciphertext := { brealloc g.aead_encrypt_all_tmp (salt_len + tag_len + plaintext.len) capacity with
    len := tag_len + plaintext.len }
  let ciphertext ← ciphertext.put 0 ctx.1.salt
  let bloom := ppbloom_add L.murmurhash2 g.bloom ctx.1.salt
  let ctx ← aead_cipher_ctx_set_key L ctx.1
  let m ← plaintext.get 0 plaintext.len
  let live := aead_ctx_release live
  match aead_cipher_encrypt L ctx m with
  | (none, _) => return ((.CRYPTO_ERROR, plaintext, { g with bloom, aead_encrypt_all_tmp := ciphertext }), live)
  | (some e, _) =>
    let ciphertext ← ciphertext.put salt_len e
    cassert (ciphertext.len = e.length)
    let (plaintext, ciphertext) := bswap_data plaintext ciphertext
    return ((.CRYPTO_OK, { plaintext with len := salt_len + ciphertext.len },
      { g with bloom, aead_encrypt_all_tmp := ciphertext }), live)

def aead_decrypt_all (g : CryptoState) (ciphertext : Buffer) (cipher : Cipher AeadMethod) (capacity : Nat) :
    C ((CryptoRet × Buffer × CryptoState) × Int) := do
  let salt_len := cipher.key_len
  let tag_len := cipher.tag_len
  if ciphertext.len ≤ salt_len + tag_len then
    return ((.CRYPTO_ERROR, ciphertext, g), live)
  let ctx := aead_ctx_init live cipher none
  let live := ctx.2
  let plaintext := brealloc g.aead_decrypt_all_tmp ciphertext.len capacity
  let plaintext := { plaintext with len := ciphertext.len - salt_len - tag_len }
  let salt ← ciphertext.get 0 salt_len
  let ctx := { ctx.1 with salt }
  if ppbloom_check L.murmurhash2 g.bloom salt = 1 then
    return ((.CRYPTO_ERROR, ciphertext, { g with aead_decrypt_all_tmp := plaintext }), live)
  let ctx ← aead_cipher_ctx_set_key L ctx
  let e ← ciphertext.get salt_len (ciphertext.len - salt_len)
  let live := aead_ctx_release live
  match aead_cipher_decrypt L ctx e with
  | none => return ((.CRYPTO_ERROR, ciphertext, { g with aead_decrypt_all_tmp := plaintext }), live)
  | some m =>
    let plaintext ← plaintext.put 0 m
    let g := { g with bloom := ppbloom_add L.murmurhash2 g.bloom salt }
    let (ciphertext, plaintext) := bswap_data ciphertext plaintext
    return ((.CRYPTO_OK, { ciphertext with len := plaintext.len }, { g with aead_decrypt_all_tmp := plaintext }), live)

def stream_encrypt_all (g : CryptoStatics) (nonce : Bytes) (plaintext : Buffer) (cipher : Cipher StreamMethod)
    (capacity : Nat) : C ((CryptoRet × Buffer × CryptoStatics) × Int) := do
  let ctx ← stream_ctx_init L live cipher true nonce
  let live := ctx.2
  let nonce_len := cipher.nonce_len
  let ciphertext := { brealloc g.stream_encrypt_all_tmp (nonce_len + plaintext.len) capacity with len := plaintext.len }
  let ctx ← cipher_ctx_set_nonce L ctx.1 ctx.1.nonce true
  let ciphertext ← ciphertext.put 0 ctx.nonce
  let bloom := ppbloom_add L.murmurhash2 g.bloom ctx.nonce
  let input ← plaintext.get 0 plaintext.len
  let out := if StreamMethod.SALSA20.code ≤ cipher.method.code then
      some (crypto_stream_xor_ic L input ctx.nonce 0 cipher.key cipher.method)
    else (cipher_ctx_update L ctx input).1
  let live := stream_ctx_release live
  match out with
  | none => return ((.CRYPTO_ERROR, plaintext, { g with bloom, stream_encrypt_all_tmp := ciphertext }), live)
  | some out =>
    let ciphertext ← ciphertext.put nonce_len out
    let ciphertext := if StreamMethod.SALSA20.code ≤ cipher.method.code then ciphertext
      else { ciphertext with len := out.length }
    let (plaintext, ciphertext) := bswap_data plaintext ciphertext
    return ((.CRYPTO_OK, { plaintext with len := nonce_len + ciphertext.len },
      { g with bloom, stream_encrypt_all_tmp := ciphertext }), live)

def stream_decrypt_all (g : CryptoState) (ciphertext : Buffer) (cipher : Cipher StreamMethod) (capacity : Nat) :
    C ((CryptoRet × Buffer × CryptoState) × Int) := do
  let nonce_len := cipher.nonce_len
  if ciphertext.len ≤ nonce_len then
    return ((.CRYPTO_ERROR, ciphertext, g), live)
  let ctx ← stream_ctx_init L live cipher false []
  let live := ctx.2
  let plaintext := { brealloc g.stream_decrypt_all_tmp ciphertext.len capacity with len := ciphertext.len - nonce_len }
  let nonce ← ciphertext.get 0 nonce_len
  if ppbloom_check L.murmurhash2 g.bloom nonce = 1 then
    return ((.CRYPTO_ERROR, ciphertext, { g with stream_decrypt_all_tmp := plaintext }), live)
  let ctx ← cipher_ctx_set_nonce L { ctx.1 with nonce } nonce false
  let input ← ciphertext.get nonce_len (ciphertext.len - nonce_len)
  let out := if StreamMethod.SALSA20.code ≤ cipher.method.code then
      some (crypto_stream_xor_ic L input nonce 0 cipher.key cipher.method)
    else (cipher_ctx_update L ctx input).1
  let live := stream_ctx_release live
  match out with
  | none => return ((.CRYPTO_ERROR, ciphertext, { g with stream_decrypt_all_tmp := plaintext }), live)
  | some out =>
    let plaintext ← plaintext.put 0 out
    let g := { g with bloom := ppbloom_add L.murmurhash2 g.bloom nonce }
    let plaintext := if StreamMethod.SALSA20.code ≤ cipher.method.code then plaintext
      else { plaintext with len := out.length }
    let (ciphertext, plaintext) := bswap_data ciphertext plaintext
    return ((.CRYPTO_OK, { ciphertext with len := plaintext.len }, { g with stream_decrypt_all_tmp := plaintext }),
      live)

end

/-- A function that returns leaves as many contexts as there were. -/
def Released {α : Type} (live : Int) (r : C (α × Int)) : Prop := ∀ a live', r = .ok (a, live') → live' = live

variable {α β γ : Type} {L : CryptoLib} {live live' : Int} {g : CryptoState} {s : CryptoStatics} {b : Buffer}
  {salt : Bytes} {capacity : Nat}

/-! ### The functions without the number -/

theorem fst_bind {x : C γ} {f : γ → C (α × β)} {f' : γ → C α} (h : ∀ a, Prod.fst <$> f a = f' a) :
    Prod.fst <$> (x >>= f) = x >>= f' := by
  rw [map_bind]
  exact bind_congr h

theorem fst_ite {p : Prop} [Decidable p] {x y : C (α × β)} {x' y' : C α} (hx : Prod.fst <$> x = x')
    (hy : Prod.fst <$> y = y') : (Prod.fst <$> if p then x else y) = if p then x' else y' := by
  rw [apply_ite (Prod.fst <$> ·), hx, hy]

theorem fst_aead_encrypt_all (cipher : Cipher AeadMethod) :
    Prod.fst <$> aead_encrypt_all L live s salt b cipher capacity =
      OutlineServer.aead_encrypt_all L s salt b cipher capacity := by
  unfold aead_encrypt_all OutlineServer.aead_encrypt_all aead_ctx_init
  dsimp only
  refine fst_bind fun ciphertext => fst_bind fun ctx => fst_bind fun m => ?_
  rcases aead_cipher_encrypt L ctx m with ⟨_ | e, _⟩
  · rfl
  · exact fst_bind fun _ => fst_bind fun _ => rfl

theorem fst_aead_decrypt_all (cipher : Cipher AeadMethod) :
    Prod.fst <$> aead_decrypt_all L live g b cipher capacity =
      OutlineServer.aead_decrypt_all L g b cipher capacity := by
  unfold aead_decrypt_all OutlineServer.aead_decrypt_all aead_ctx_init
  dsimp only
  refine fst_ite rfl (fst_bind fun salt => fst_ite rfl (fst_bind fun ctx => fst_bind fun e => ?_))
  cases aead_cipher_decrypt L ctx e with
  | none => rfl
  | some m => exact fst_bind fun _ => rfl

theorem fst_stream_encrypt_all (cipher : Cipher StreamMethod) :
    Prod.fst <$> stream_encrypt_all L live s salt b cipher capacity =
      OutlineServer.stream_encrypt_all L s salt b cipher capacity := by
  unfold stream_encrypt_all OutlineServer.stream_encrypt_all stream_ctx_init
  simp only [bind_assoc, pure_bind]
  refine fst_bind fun ctx => fst_bind fun ctx => fst_bind fun ciphertext => fst_bind fun input => ?_
  generalize (if StreamMethod.SALSA20.code ≤ cipher.method.code then
    some (crypto_stream_xor_ic L input ctx.nonce 0 cipher.key cipher.method) else (cipher_ctx_update L ctx input).1) =
      out
  cases out with
  | none => rfl
  | some out => exact fst_bind fun _ => rfl

theorem fst_stream_decrypt_all (cipher : Cipher StreamMethod) :
    Prod.fst <$> stream_decrypt_all L live g b cipher capacity =
      OutlineServer.stream_decrypt_all L g b cipher capacity := by
  unfold stream_decrypt_all OutlineServer.stream_decrypt_all stream_ctx_init
  simp only [bind_assoc, pure_bind]
  refine fst_ite rfl (fst_bind fun ctx => fst_bind fun nonce => fst_ite rfl (fst_bind fun ctx => fst_bind fun input =>
    ?_))
  generalize (if StreamMethod.SALSA20.code ≤ cipher.method.code then
    some (crypto_stream_xor_ic L input nonce 0 cipher.key cipher.method) else (cipher_ctx_update L ctx input).1) = out
  cases out with
  | none => rfl
  | some out => exact fst_bind fun _ => rfl

/-! ### The release -/

theorem Released.bind {x : C β} {f : β → C (α × Int)} (hf : ∀ a, x = .ok a → Released live (f a)) :
    Released live (x >>= f) := by
  intro a live' h
  obtain ⟨y, hy, h⟩ := C.bind_eq_ok h
  exact hf y hy a live' h

theorem Released.ok {a : α} : Released live (.ok (a, live) : C (α × Int)) := by
  intro a' live' h
  cases h
  rfl

theorem not_released_ok {a : α} (hne : live' ≠ live) : ¬ Released live (.ok (a, live') : C (α × Int)) :=
  fun h => hne (h a live' rfl)

theorem aead_encrypt_all_released (cipher : Cipher AeadMethod) :
    Released live (aead_encrypt_all L live s salt b cipher capacity) := by
  unfold aead_encrypt_all aead_ctx_init aead_ctx_release
  simp only [Int.add_sub_cancel]
  refine Released.bind fun ciphertext _ => Released.bind fun ctx _ => Released.bind fun m _ => ?_
  split
  · exact .ok
  · exact Released.bind fun _ _ => Released.bind fun _ _ => .ok

theorem stream_encrypt_all_released (cipher : Cipher StreamMethod) :
    Released live (stream_encrypt_all L live s salt b cipher capacity) := by
  unfold stream_encrypt_all stream_ctx_init stream_ctx_release
  simp only [bind_assoc, pure_bind, Int.add_sub_cancel]
  refine Released.bind fun ctx _ => Released.bind fun ctx _ => Released.bind fun ciphertext _ =>
    Released.bind fun input _ => ?_
  split
  · exact .ok
  · exact Released.bind fun _ _ => .ok

/-- The datagram has more than the salt and the tag, and the filter reports the salt. -/
def Repeated (L : CryptoLib) (g : CryptoState) (b : Buffer) (salt_len tag_len : Nat) : Prop :=
  salt_len + tag_len < b.len ∧ ∃ salt, b.get 0 salt_len = .ok salt ∧ ppbloom_check L.murmurhash2 g.bloom salt = 1

/-- The branch that returns without the release, and what follows it. -/
theorem released_check_iff {salt_len : Nat} {a : α} {k : Bytes → C (α × Int)} (hk : ∀ salt, Released live (k salt)) :
    Released live (b.get 0 salt_len >>= fun salt =>
        if ppbloom_check L.murmurhash2 g.bloom salt = 1 then .ok (a, live + 1) else k salt) ↔
      ¬ ∃ salt, b.get 0 salt_len = .ok salt ∧ ppbloom_check L.murmurhash2 g.bloom salt = 1 := by
  constructor
  · rintro h ⟨salt, hsalt, hcheck⟩
    rw [hsalt, C.ok_bind, if_pos hcheck] at h
    exact not_released_ok (by omega) h
  · intro h
    refine Released.bind fun salt hsalt => ?_
    rw [if_neg fun hcheck => h ⟨salt, hsalt, hcheck⟩]
    exact hk salt

theorem aead_decrypt_all_released_iff (cipher : Cipher AeadMethod) :
    Released live (aead_decrypt_all L live g b cipher capacity) ↔ ¬ Repeated L g b cipher.key_len cipher.tag_len := by
  unfold aead_decrypt_all aead_ctx_init aead_ctx_release Repeated
  simp only [Int.add_sub_cancel]
  split
  · exact iff_of_true .ok fun hrep => absurd hrep.1 (by omega)
  · rw [and_iff_right (by omega)]
    refine released_check_iff fun salt => Released.bind fun ctx _ => Released.bind fun e _ => ?_
    split
    · exact .ok
    · exact Released.bind fun _ _ => .ok

theorem stream_decrypt_all_released_iff (cipher : Cipher StreamMethod) :
    Released live (stream_decrypt_all L live g b cipher capacity) ↔
      ¬ (Repeated L g b cipher.nonce_len 0 ∧ ∃ ctx, OutlineServer.stream_ctx_init L cipher false [] = .ok ctx) := by
  unfold stream_decrypt_all stream_ctx_init stream_ctx_release Repeated
  simp only [bind_assoc, pure_bind, Int.add_sub_cancel]
  split
  · exact iff_of_true .ok fun hrep => absurd hrep.1.1 (by omega)
  · simp only [show cipher.nonce_len + 0 < b.len by omega, true_and]
    cases hctx : OutlineServer.stream_ctx_init L cipher false [] with
    | error e =>
      refine iff_of_true (Released.bind fun ctx h => nomatch h) fun hrep => ?_
      obtain ⟨-, ctx, h⟩ := hrep
      exact nomatch h
    | ok ctx =>
      rw [C.ok_bind, and_iff_left ⟨ctx, rfl⟩]
      refine released_check_iff fun nonce => Released.bind fun ctx _ => Released.bind fun input _ => ?_
      split
      · exact .ok
      · exact Released.bind fun _ _ => .ok

/-- All but the two decryptions of what the filter reports release their context. -/
theorem contexts_released (L : CryptoLib) (live : Int) (b : Buffer) (capacity : Nat) :
    (∀ s salt cipher, Released live (aead_encrypt_all L live s salt b cipher capacity)) ∧
    (∀ g cipher, Released live (aead_decrypt_all L live g b cipher capacity) ↔
      ¬ Repeated L g b cipher.key_len cipher.tag_len) ∧
    (∀ s nonce cipher, Released live (stream_encrypt_all L live s nonce b cipher capacity)) ∧
    (∀ g cipher, Released live (stream_decrypt_all L live g b cipher capacity) ↔
      ¬ (Repeated L g b cipher.nonce_len 0 ∧ ∃ ctx, OutlineServer.stream_ctx_init L cipher false [] = .ok ctx)) :=
  ⟨fun _ _ => aead_encrypt_all_released, fun _ => aead_decrypt_all_released_iff,
    fun _ _ => stream_encrypt_all_released, fun _ => stream_decrypt_all_released_iff⟩

/-- A datagram under a key of sixteen bytes. -/
def datagram : Buffer := Buffer.ofBytes (List.replicate 16 2 ++ ([3] ++ List.replicate 16 0))

/-- The datagram comes twice. -/
theorem datagram_twice : ∃ b g, aead_decrypt_all xorLib 0 CryptoStatics.start.toCryptoState datagram
      (aead_key_init .AES128GCM (List.replicate 16 1)) SOCKET_BUF_SIZE = .ok ((.CRYPTO_OK, b, g), 0) ∧
    ¬ Released 0
      (aead_decrypt_all xorLib 0 g datagram (aead_key_init .AES128GCM (List.replicate 16 1)) SOCKET_BUF_SIZE) := by
  have hrun : (do
      let r ← aead_decrypt_all xorLib 0 CryptoStatics.start.toCryptoState datagram
        (aead_key_init .AES128GCM (List.replicate 16 1)) SOCKET_BUF_SIZE
      let r' ← aead_decrypt_all xorLib 0 r.1.2.2 datagram (aead_key_init .AES128GCM (List.replicate 16 1))
        SOCKET_BUF_SIZE
      return (r.1.1, r.2, r'.2) : C (CryptoRet × Int × Int)) = .ok (.CRYPTO_OK, 0, 1) := by
    decide +kernel
  obtain ⟨⟨⟨ret, b, g⟩, live⟩, hfirst, hrun⟩ := C.bind_eq_ok hrun
  obtain ⟨⟨r, live'⟩, hsecond, hrun⟩ := C.bind_eq_ok hrun
  cases hrun
  refine ⟨b, g, hfirst, fun h => ?_⟩
  cases h r 1 hsecond

end OutlineServer.Contexts
