import OutlineServer.AeadSpec

/-!
# Runs of `aead_decrypt`

The calls of one context, up to the first that fails. What they have delivered is what the bytes behind
the salt drain to (`decryptCalls_spec`), for every stream and every way it is cut.
-/

namespace OutlineServer

/-- Calls of `aead_decrypt` in one context. -/
abbrev decryptCalls (L : CryptoLib) (capacity : Nat) :
    CryptoState → AeadCtx → List Buffer → C (List (CryptoRet × Bytes) × AeadCtx × CryptoState) :=
  callsUntilError fun g b ctx => aead_decrypt L g b ctx capacity

/-- The buffers returned with `CRYPTO_OK`, one behind the other. -/
def delivered (rs : List (CryptoRet × Bytes)) : Bytes :=
  ((rs.filter fun r => r.1 = .CRYPTO_OK).map (·.2)).flatten

def fedBytes (bs : List Buffer) : Bytes := (bs.map Buffer.bytes).flatten

@[simp] theorem fedBytes_cons (b : Buffer) (bs : List Buffer) : fedBytes (b :: bs) = b.bytes ++ fedBytes bs := rfl

section
variable {L : CryptoLib} {cipher : Cipher AeadMethod} {ctx ctx' : AeadCtx} {g g' : CryptoState} {fed : Bytes}
  {as : List Bytes} {b : Buffer} {bs : List Buffer} {capacity : Nat}

theorem receives_init (L : CryptoLib) (cipher : Cipher AeadMethod) :
    Receives L cipher [] [] (aead_ctx_init cipher none) :=
  .unsalted rfl rfl (by simp [aead_ctx_init]) (Nat.zero_le _) rfl rfl

/-- A run ends as its last call does: it goes through all the input, or stops at a call that fails and leaves
what had been delivered before. -/
theorem decryptCalls_spec (hL : L.Sized) (hs : cipher.Supported) (hbs : ∀ b ∈ bs, b.len ≤ b.capacity)
    (h : Receives L cipher fed as ctx) (g : CryptoState) (capacity : Nat) :
    ∃ rs ctx' g' fed' as' ctx₁, decryptCalls L capacity g ctx bs = .ok (rs, ctx', g') ∧
      fed' <+: fed ++ fedBytes bs ∧ Receives L cipher fed' (as ++ as') ctx₁ ∧ delivered rs = as'.flatten ∧
      ((∀ r ∈ rs, r.1 ≠ .CRYPTO_ERROR) → rs.length = bs.length ∧ fed' = fed ++ fedBytes bs ∧ ctx₁ = ctx') := by
  induction bs generalizing fed as ctx g with
  | nil =>
    refine ⟨[], ctx, g, fed, [], ctx, rfl, ?_, ?_, rfl, ?_⟩
    · simp [fedBytes]
    · simpa using h
    · simp [fedBytes]
  | cons b bs ih =>
    obtain ⟨hb, hbs⟩ := List.forall_mem_cons.1 hbs
    obtain ⟨ret, ct, ctx₂, g₂, hcall, hspec⟩ := aead_decrypt_spec hL hs hb h g capacity
    simp only [callsUntilError, hcall, C.ok_bind]
    by_cases herr : ret = .CRYPTO_ERROR
    · refine ⟨[(ret, ct.bytes)], ctx₂, g₂, fed, [], ctx, ?_, List.prefix_append _ _, by simpa using h, ?_, ?_⟩
      · simp only [herr, ↓reduceIte]
        rfl
      · simp [delivered, herr]
      · simp [herr]
    simp only [herr, ↓reduceIte]
    -- what the call delivered, and the state it leaves
    obtain ⟨as₂, hR, hout⟩ : ∃ as₂, Receives L cipher (fed ++ b.bytes) (as ++ as₂) ctx₂ ∧
        delivered [(ret, ct.bytes)] = as₂.flatten := by
      rcases hspec with _ | _ | ⟨-, hR⟩ | ⟨-, -, -, hct, hR⟩ | ⟨-, -, hct, hR⟩
      · exact absurd rfl herr
      · exact absurd rfl herr
      · exact ⟨[], by simpa using hR, rfl⟩
      · exact ⟨_, hR, by simpa [delivered] using hct⟩
      · exact ⟨_, hR, by simpa [delivered] using hct⟩
    obtain ⟨rs, ctx', g', fed', as', ctx₁, hrun, hfed, hR', hdel, hall⟩ := ih hbs hR g₂
    refine ⟨(ret, ct.bytes) :: rs, ctx', g', fed', as₂ ++ as', ctx₁, ?_, ?_, ?_, ?_, ?_⟩
    · unfold decryptCalls at hrun
      rw [hrun]
      rfl
    · rwa [fedBytes_cons, ← List.append_assoc]
    · rwa [← List.append_assoc]
    · rw [List.flatten_append, ← hout, ← hdel]
      simp only [delivered, ← List.flatten_append, ← List.map_append, ← List.filter_append]
      rfl
    · intro hrs
      obtain ⟨hlen, hfed, hctx⟩ := hall fun r hr => hrs r (List.mem_cons_of_mem _ hr)
      refine ⟨by rw [List.length_cons, List.length_cons, hlen], ?_, hctx⟩
      rw [hfed, fedBytes_cons, List.append_assoc]

theorem decryptCalls_take {rs : List (CryptoRet × Bytes)}
    (h : decryptCalls L capacity g ctx bs = .ok (rs, ctx', g')) (i : Nat) :
    ∃ ctx₁ g₁, decryptCalls L capacity g ctx (bs.take i) = .ok (rs.take i, ctx₁, g₁) := by
  induction bs generalizing g ctx rs i with
  | nil =>
    cases h
    exact ⟨ctx', g', by simp [callsUntilError]⟩
  | cons b bs ih =>
    rcases i with _ | i
    · exact ⟨ctx, g, rfl⟩
    obtain ⟨⟨ret, ct, ctx₂, g₂⟩, hcall, h⟩ := C.bind_eq_ok h
    simp only [List.take_succ_cons, callsUntilError, hcall, C.ok_bind]
    by_cases herr : ret = .CRYPTO_ERROR
    · simp only [herr, ↓reduceIte] at h ⊢
      cases h
      exact ⟨ctx', g', by rw [List.take_succ_cons, List.take_nil]; rfl⟩
    · simp only [herr, ↓reduceIte] at h ⊢
      obtain ⟨⟨rs', ctx₃, g₃⟩, hrun, h⟩ := C.bind_eq_ok h
      cases h
      obtain ⟨ctx₁, g₁, h⟩ := ih hrun i
      unfold decryptCalls at h
      exact ⟨ctx₁, g₁, by rw [h]; rfl⟩

end

end OutlineServer
