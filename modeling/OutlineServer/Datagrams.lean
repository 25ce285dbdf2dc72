import Mathlib.Data.List.Nodup
import OutlineServer.ReplayGuards
import OutlineServer.StreamRuns

/-!
# UDP datagrams

`encrypt_all` sends the salt with the encrypted message, and `decrypt_all` gives the message back if the filter
does not report the salt, which it then adds (`Datagrams`). A run of datagrams arrives if the filter admits each
salt after the ones before it. `RC4` has no IV: its first datagram adds the empty item, which the filter reports at
the second one (`stream_decrypt_all_repeated`), while `stream_decrypt` does not look at the filter for this method.
-/

namespace OutlineServer
open Streaming

/-- `encrypt_all` of a method; `salt` is what `rand_bytes` gives for its salt or IV. -/
def encrypt_all (L : CryptoLib) (method : AeadMethod ⊕ StreamMethod) (key : Bytes) (capacity : Nat) (g : CryptoStatics)
    (salt : Bytes) (plaintext : Buffer) : C (CryptoRet × Buffer × CryptoStatics) :=
  match method with
  | .inl M => aead_encrypt_all L g salt plaintext (aead_key_init M key) capacity
  | .inr M => stream_encrypt_all L g salt plaintext (stream_key_init M key) capacity

/-- The messages of a sender, with the salt that each gets. -/
def encryptDatagrams (L : CryptoLib) (method : AeadMethod ⊕ StreamMethod) (key : Bytes) (capacity : Nat) :
    CryptoStatics → List (Bytes × Buffer) → C (List (CryptoRet × Bytes) × CryptoStatics)
  | g, [] => .ok ([], g)
  | g, (salt, b) :: ms => do
    let (ret, b, g) ← encrypt_all L method key capacity g salt b
    let (rs, g) ← encryptDatagrams L method key capacity g ms
    return ((ret, b.bytes) :: rs, g)

def decryptDatagrams (D : Decryptor) : CryptoState → List Buffer → C (List (CryptoRet × Bytes) × CryptoState)
  | g, [] => .ok ([], g)
  | g, b :: bs => do
    let (ret, b, g) ← D.decrypt_all g b
    let (rs, g) ← decryptDatagrams D g bs
    return ((ret, b.bytes) :: rs, g)

/-- Of the items `xs`, added one after the other, the filter reports none that has not been added. -/
def PPBloom.Exact (murmurhash2 : Murmur) (f : PPBloom) (xs : List Bytes) : Prop :=
  ∀ i x, xs[i]? = some x → ppbloom_check murmurhash2 (f.addAll murmurhash2 (xs.take i)) x = 1 → x ∈ xs.take i

/-- The filter reports none of the items `xs` when it is their turn. -/
def PPBloom.Admits (murmurhash2 : Murmur) : PPBloom → List Bytes → Prop
  | _, [] => True
  | f, x :: xs => ppbloom_check murmurhash2 f x ≠ 1 ∧ (ppbloom_add murmurhash2 f x).Admits murmurhash2 xs

section
variable {murmurhash2 : Murmur} {f : PPBloom} {x : Bytes} {xs : List Bytes}

theorem PPBloom.admits_of_forall
    (h : ∀ i x, xs[i]? = some x → ppbloom_check murmurhash2 (f.addAll murmurhash2 (xs.take i)) x ≠ 1) :
    f.Admits murmurhash2 xs := by
  induction xs generalizing f with
  | nil => trivial
  | cons x xs ih =>
    refine ⟨h 0 x rfl, ih ?_⟩
    intro i y hy
    exact h (i + 1) y hy

theorem PPBloom.Exact.admits (h : f.Exact murmurhash2 xs) (hnd : xs.Nodup) : f.Admits murmurhash2 xs := by
  refine PPBloom.admits_of_forall ?_
  intro i x hx hcheck
  obtain ⟨hi, rfl⟩ := List.getElem?_eq_some_iff.1 hx
  obtain ⟨j, hj, heq⟩ := List.mem_take_iff_getElem.1 (h i _ hx hcheck)
  have hij : j = i := (List.Nodup.getElem_inj_iff hnd).1 heq
  omega

/-- An item is reported right after it has been added. -/
theorem ppbloom_check_add_self (h : f.WF) (x : Bytes) :
    ppbloom_check murmurhash2 (ppbloom_add murmurhash2 f x) x = 1 :=
  (lives_ppbloom_add h x).check (ppbloom_add_wf h x)

end

/-- The two parts of a datagram. -/
theorem Buffer.read_parts {b : Buffer} {salt e : Bytes} (h : b.bytes = salt ++ e) :
    b.data.read 0 salt.length = salt ∧ b.data.read salt.length (b.len - salt.length) = e ∧
      b.len = salt.length + e.length := by
  have hlen : b.len = salt.length + e.length := by rw [← b.length_bytes, h, List.length_append]
  refine ⟨?_, ?_, hlen⟩
  · rw [← Block.take_read b.data 0 b.len salt.length (by omega), ← Buffer.bytes, h, List.take_left]
  · have hdrop := Block.drop_read b.data 0 b.len salt.length (by omega)
    rw [Nat.zero_add] at hdrop
    rw [← hdrop, ← Buffer.bytes, h, List.drop_left]

/-! ### Both kinds of methods -/

/-- The two sides of a method. `wire` is what is sent behind the salt. -/
structure Datagrams (D : Decryptor) (murmurhash2 : Murmur)
    (enc : CryptoStatics → Bytes → Buffer → C (CryptoRet × Buffer × CryptoStatics)) (wire : Bytes → Bytes → Bytes) :
    Prop where
  encrypt : ∀ {g salt b}, salt.length = D.salt_len → b.len ≤ b.capacity →
    ∃ b' g', enc g salt b = .ok (.CRYPTO_OK, b', g') ∧ b'.bytes = salt ++ wire salt b.bytes
  decrypt : ∀ {g salt m b}, salt.length = D.salt_len → m ≠ [] → b.len ≤ b.capacity → b.bytes = salt ++ wire salt m →
    ppbloom_check murmurhash2 g.bloom salt ≠ 1 → ∃ b' g', D.decrypt_all g b = .ok (.CRYPTO_OK, b', g') ∧
      b'.bytes = m ∧ g'.bloom = ppbloom_add murmurhash2 g.bloom salt

section
variable {L : CryptoLib} {M : AeadMethod} {key salt : Bytes} {b : Buffer}

def aeadWire (L : CryptoLib) (cipher : Cipher AeadMethod) (salt m : Bytes) : Bytes :=
  (L.aead_encrypt cipher.method (aeadSubkey L cipher salt) (LeCounter.zero cipher.nonce_len) m).getD []

theorem aeadWire_eq (hL : L.Lawful) (cipher : Cipher AeadMethod) (salt m : Bytes) :
    L.aead_encrypt cipher.method (aeadSubkey L cipher salt) (LeCounter.zero cipher.nonce_len) m =
        some (aeadWire L cipher salt m) ∧
      (aeadWire L cipher salt m).length = m.length + supported_aead_ciphers_tag_size cipher.method := by
  obtain ⟨e, he, hlen⟩ := hL.encrypts cipher.method (aeadSubkey L cipher salt) (LeCounter.zero cipher.nonce_len) m
  rw [aeadWire, he]
  exact ⟨rfl, hlen⟩

/-- The context of one datagram. -/
theorem aead_cipher_ctx_set_key_init {cipher : Cipher AeadMethod} (hs : cipher.Supported) (salt : Bytes) :
    ∃ ctx, aead_cipher_ctx_set_key L { aead_ctx_init cipher none with salt } = .ok ctx ∧ ctx.cipher = cipher ∧
      ctx.skey = aeadSubkey L cipher salt ∧ ctx.nonce = LeCounter.zero cipher.nonce_len := by
  have hkey := hs.key_len
  exact ⟨_, aead_cipher_ctx_set_key_eq (show cipher.key_len ≤ 255 * 20 by omega), rfl, rfl, rfl⟩

theorem aead_encrypt_all_spec (hL : L.Lawful) {cipher : Cipher AeadMethod} (hs : cipher.Supported)
    (hsalt : salt.length = cipher.key_len) (hb : b.len ≤ b.capacity) (g : CryptoStatics) (capacity : Nat) :
    ∃ b' g', aead_encrypt_all L g salt b cipher capacity = .ok (.CRYPTO_OK, b', g') ∧
      b'.bytes = salt ++ aeadWire L cipher salt b.bytes := by
  obtain ⟨he, hlen⟩ := aeadWire_eq hL cipher salt b.bytes
  rw [← hs.tag_len, Buffer.length_bytes] at hlen
  obtain ⟨n, hn, -, hroom⟩ := brealloc_eq g.aead_encrypt_all_tmp (cipher.key_len + cipher.tag_len + b.len) capacity
  obtain ⟨ctx, hset, hc, hskey, hnonce⟩ := aead_cipher_ctx_set_key_init (L := L) hs salt
  have hinit : aead_ctx_init cipher (some salt) = { aead_ctx_init cipher none with salt } := rfl
  simp only [aead_encrypt_all, hn, hinit]
  rw [Buffer.put_ok (by simp only; omega), C.ok_bind, hset, C.ok_bind, Buffer.get_ok (by omega), C.ok_bind]
  simp only [aead_cipher_encrypt, hc, hskey, hnonce, show b.data.read 0 b.len = b.bytes from rfl, he]
  rw [Buffer.put_ok (by simp only; omega), C.ok_bind, cassert_ok (by simp only; omega), C.ok_bind]
  refine ⟨_, _, rfl, ?_⟩
  have hread := Block.read_write_append (g.aead_encrypt_all_tmp.data.write 0 salt) cipher.key_len 0
    (aeadWire L cipher salt b.bytes) (Nat.zero_le _)
  have hsame := Block.read_write_same g.aead_encrypt_all_tmp.data 0 salt
  rw [hsalt] at hsame
  rw [Nat.sub_zero, hsame, hlen, Nat.add_comm b.len] at hread
  exact hread

theorem aead_decrypt_all_spec (hL : L.Lawful) {cipher : Cipher AeadMethod} (hs : cipher.Supported) {m : Bytes}
    (hsalt : salt.length = cipher.key_len) (hm : m ≠ []) (hb : b.len ≤ b.capacity)
    (hbytes : b.bytes = salt ++ aeadWire L cipher salt m) {g : CryptoState}
    (hcheck : ppbloom_check L.murmurhash2 g.bloom salt ≠ 1) (capacity : Nat) :
    ∃ b' g', aead_decrypt_all L g b cipher capacity = .ok (.CRYPTO_OK, b', g') ∧ b'.bytes = m ∧
      g'.bloom = ppbloom_add L.murmurhash2 g.bloom salt := by
  have hpos := List.length_pos_iff.2 hm
  obtain ⟨he, hlen⟩ := aeadWire_eq hL cipher salt m
  have hd := hL.decrypt_encrypt he
  rw [← hs.tag_len] at hlen
  obtain ⟨hhead, hrest, hblen⟩ := Buffer.read_parts hbytes
  obtain ⟨n, hn, -, hroom⟩ := brealloc_eq g.aead_decrypt_all_tmp b.len capacity
  obtain ⟨ctx, hset, hc, hskey, hnonce⟩ := aead_cipher_ctx_set_key_init (L := L) hs salt
  have hlong : ¬b.len ≤ cipher.key_len + cipher.tag_len := by omega
  rw [hsalt] at hhead hrest
  simp only [aead_decrypt_all, hlong, ↓reduceIte, hn]
  rw [Buffer.get_ok (by omega), C.ok_bind, hhead, if_neg hcheck, hset, C.ok_bind, Buffer.get_ok (by omega), C.ok_bind,
    hrest]
  simp only [aead_cipher_decrypt, hc, hskey, hnonce, hd]
  rw [Buffer.put_ok (by simp only; omega), C.ok_bind]
  refine ⟨_, _, rfl, ?_, rfl⟩
  have hplen : b.len - cipher.key_len - cipher.tag_len = m.length := by omega
  simp only [bswap_data, hplen]
  exact Buffer.bytes_write g.aead_decrypt_all_tmp m

theorem aead_datagrams (hL : L.Lawful) (M : AeadMethod) (key : Bytes) (capacity capacity' : Nat) :
    Datagrams (decryptor L (.inl M) key capacity') L.murmurhash2 (encrypt_all L (.inl M) key capacity)
      (aeadWire L (aead_key_init M key)) where
  encrypt hsalt hb := aead_encrypt_all_spec hL (supported_aead_key_init M key) hsalt hb _ _
  decrypt hsalt hm hb hbytes hcheck :=
    aead_decrypt_all_spec hL (supported_aead_key_init M key) hsalt hm hb hbytes hcheck _

end

section
variable {L : CryptoLib} {byte : StreamMethod → Bool → Bytes → Bytes → Bytes → UInt8 → UInt8}
  {ks : StreamMethod → Bytes → Bytes → Nat → UInt8} {M : StreamMethod} {key iv : Bytes} {b : Buffer} {g : CryptoState}

theorem stream_decrypt_all_spec (hL : L.Streams byte ks) (hM : stream_supported L M)
    (hkey : key.length = supported_stream_ciphers_key_size M) (hiv : iv.length = supported_stream_ciphers_nonce_size M)
    {m : Bytes} (hm : m ≠ []) (hb : b.len ≤ b.capacity)
    (hbytes : b.bytes = iv ++ streamBytes L byte ks (stream_key_init M key) iv m)
    (hcheck : ppbloom_check L.murmurhash2 g.bloom iv ≠ 1) (capacity : Nat) :
    ∃ b' g', stream_decrypt_all L g b (stream_key_init M key) capacity = .ok (.CRYPTO_OK, b', g') ∧ b'.bytes = m ∧
      g'.bloom = ppbloom_add L.murmurhash2 g.bloom iv := by
  have hpos := List.length_pos_iff.2 hm
  have hnl : (stream_key_init M key).nonce_len = iv.length := hiv.symm
  obtain ⟨hhead, hrest, hblen⟩ := Buffer.read_parts hbytes
  have hsize : (streamBytes L byte ks (stream_key_init M key) iv m).length = m.length := by
    rw [streamBytes, length_scan]
  obtain ⟨n, hn, -, hroom⟩ := brealloc_eq g.stream_decrypt_all_tmp b.len capacity
  obtain ⟨ctx, hctx, hun, -, -⟩ := stream_ctx_init_unkeyed hM key false []
  have hun' : StreamCtx.Unkeyed (stream_key_init M key) { ctx with nonce := iv } := ⟨hun.init, hun.cipher, hun.evp⟩
  obtain ⟨ctx₁, hset, -, hkeyed⟩ := cipher_ctx_set_nonce_keyed hL hM hkey hiv hun' rfl false
  have hout := stream_output_eq hL (hkeyed ctx₁.init) (streamBytes L byte ks (stream_key_init M key) iv m)
  rw [scan_streamBytes hL] at hout
  have hlong : ¬b.len ≤ iv.length := by omega
  simp only [stream_decrypt_all, hnl, hlong, ↓reduceIte, hctx, C.ok_bind, hn]
  rw [Buffer.get_ok (by omega), C.ok_bind, hhead, if_neg hcheck, hset, C.ok_bind, Buffer.get_ok (by omega), C.ok_bind,
    hrest]
  simp only [hout]
  rw [Buffer.put_ok (by simp only; omega), C.ok_bind]
  refine ⟨_, _, rfl, ?_, rfl⟩
  have hplen : b.len - iv.length = m.length := by omega
  split
  · simp only [bswap_data, hplen]
    exact Buffer.bytes_write g.stream_decrypt_all_tmp m
  · exact Buffer.bytes_write g.stream_decrypt_all_tmp m

/-- A datagram whose IV the filter reports is dropped. -/
theorem stream_decrypt_all_repeated (hM : stream_supported L M)
    (hiv : iv.length = supported_stream_ciphers_nonce_size M)
    {e : Bytes} (hb : b.len ≤ b.capacity) (hbytes : b.bytes = iv ++ e)
    (hcheck : ppbloom_check L.murmurhash2 g.bloom iv = 1) {key : Bytes} {capacity : Nat}
    {r : CryptoRet × Buffer × CryptoState} (h : stream_decrypt_all L g b (stream_key_init M key) capacity = .ok r) :
    r.1 = .CRYPTO_ERROR := by
  have hnl : (stream_key_init M key).nonce_len = iv.length := hiv.symm
  obtain ⟨hhead, -, hblen⟩ := Buffer.read_parts hbytes
  obtain ⟨ctx, hctx, -⟩ := stream_ctx_init_unkeyed hM key false []
  simp only [stream_decrypt_all, hnl, hctx, C.ok_bind] at h
  split at h
  · cases h
    rfl
  · rw [Buffer.get_ok (by omega), C.ok_bind, hhead, if_pos hcheck] at h
    cases h
    rfl

theorem stream_datagrams (hL : L.Streams byte ks) (hM : stream_supported L M)
    (hkey : key.length = supported_stream_ciphers_key_size M) (capacity capacity' : Nat) :
    Datagrams (decryptor L (.inr M) key capacity') L.murmurhash2 (encrypt_all L (.inr M) key capacity)
      (streamBytes L byte ks (stream_key_init M key)) where
  encrypt hsalt hb := stream_encrypt_all_spec hL hM hkey hsalt hb _ _
  decrypt hsalt hm hb hbytes hcheck := stream_decrypt_all_spec hL hM hkey hsalt hm hb hbytes hcheck _

end

/-! ### Runs -/

section
variable {D : Decryptor} {L : CryptoLib} {method : AeadMethod ⊕ StreamMethod} {key : Bytes} {capacity : Nat}
  {wire : Bytes → Bytes → Bytes} {msgs : List (Bytes × Buffer)} {ds : List Buffer} {g : CryptoState}

/-- What is to arrive of a run. -/
def arrivals (msgs : List (Bytes × Buffer)) : List (CryptoRet × Bytes) := msgs.map fun m => (.CRYPTO_OK, m.2.bytes)

theorem Datagrams.encryptDatagrams_eq (h : Datagrams D L.murmurhash2 (encrypt_all L method key capacity) wire)
    (hmsgs : ∀ m ∈ msgs, m.1.length = D.salt_len ∧ m.2.len ≤ m.2.capacity) (g : CryptoStatics) :
    ∃ g', encryptDatagrams L method key capacity g msgs =
      .ok (msgs.map fun m => (.CRYPTO_OK, m.1 ++ wire m.1 m.2.bytes), g') := by
  induction msgs generalizing g with
  | nil => exact ⟨g, rfl⟩
  | cons m ms ih =>
    obtain ⟨⟨hsalt, hcap⟩, hms⟩ := List.forall_mem_cons.1 hmsgs
    obtain ⟨b', g₁, hcall, hbytes⟩ := h.encrypt (g := g) hsalt hcap
    obtain ⟨g', hrun⟩ := ih hms g₁
    refine ⟨g', ?_⟩
    simp only [encryptDatagrams, hcall, C.ok_bind, hrun, List.map_cons, ← hbytes]
    rfl

/-- The datagrams that the filter admits arrive. -/
theorem Datagrams.decryptDatagrams_eq
    {enc : CryptoStatics → Bytes → Buffer → C (CryptoRet × Buffer × CryptoStatics)}
    (h : Datagrams D L.murmurhash2 enc wire)
    (hmsgs : ∀ m ∈ msgs, m.1.length = D.salt_len ∧ m.2.bytes ≠ []) (hds : ∀ b ∈ ds, b.len ≤ b.capacity)
    (hwire : ds.map Buffer.bytes = msgs.map fun m => m.1 ++ wire m.1 m.2.bytes)
    (hadmits : g.bloom.Admits L.murmurhash2 (msgs.map (·.1))) :
    ∃ g', decryptDatagrams D g ds = .ok (arrivals msgs, g') := by
  induction msgs generalizing ds g with
  | nil =>
    obtain rfl := List.map_eq_nil_iff.1 hwire
    exact ⟨g, rfl⟩
  | cons m ms ih =>
    obtain ⟨b, bs, rfl, hb, hbs⟩ := List.map_eq_cons_iff.1 hwire
    obtain ⟨⟨hsalt, hne⟩, hms⟩ := List.forall_mem_cons.1 hmsgs
    obtain ⟨hcap, hcaps⟩ := List.forall_mem_cons.1 hds
    obtain ⟨hcheck, hadmits⟩ := hadmits
    obtain ⟨b', g₁, hcall, hbytes, hbloom⟩ := h.decrypt hsalt hne hcap hb hcheck
    rw [← hbloom] at hadmits
    obtain ⟨g', hrun⟩ := ih hms hcaps hbs hadmits
    refine ⟨g', ?_⟩
    simp only [decryptDatagrams, hcall, C.ok_bind, hrun, hbytes]
    rfl

end

theorem supported_nonce_size_eq_zero {L : CryptoLib} {M : StreamMethod} (hM : stream_supported L M) :
    supported_stream_ciphers_nonce_size M = 0 ↔ M = .RC4 := by
  have hT := hM.1
  cases M <;> first | exact absurd rfl hT | decide

/-- Of two datagrams without IV, the second one does not arrive. -/
theorem rc4_second_dropped {L : CryptoLib} {key : Bytes} {capacity : Nat} {wire : Bytes → Bytes → Bytes}
    {enc : CryptoStatics → Bytes → Buffer → C (CryptoRet × Buffer × CryptoStatics)}
    (h : Datagrams (decryptor L (.inr .RC4) key capacity) L.murmurhash2 enc wire) (hM : stream_supported L .RC4)
    {g g' : CryptoState} (hf : g.bloom.WF) (hcheck : ppbloom_check L.murmurhash2 g.bloom [] ≠ 1) {m : Bytes}
    (hm : m ≠ [])
    {b b₂ : Buffer} {bs : List Buffer} (hb : b.len ≤ b.capacity) (hb₂ : b₂.len ≤ b₂.capacity)
    (hbytes : b.bytes = [] ++ wire [] m) {rs : List (CryptoRet × Bytes)}
    (hrun : decryptDatagrams (decryptor L (.inr .RC4) key capacity) g (b :: b₂ :: bs) = .ok (rs, g')) :
    ∃ r ∈ rs, r.1 = .CRYPTO_ERROR := by
  obtain ⟨b₁, g₁, hcall, -, hbloom⟩ := h.decrypt rfl hm hb hbytes hcheck
  obtain ⟨⟨ret, b₁', g₁'⟩, hfirst, hrun⟩ := C.bind_eq_ok hrun
  rw [hcall] at hfirst
  cases hfirst
  obtain ⟨⟨rs', g''⟩, hrest, hrun⟩ := C.bind_eq_ok hrun
  cases hrun
  obtain ⟨⟨ret₂, b₂', g₂⟩, hsecond, hrest⟩ := C.bind_eq_ok hrest
  obtain ⟨⟨rs'', g₃⟩, -, hrest⟩ := C.bind_eq_ok hrest
  cases hrest
  -- the first datagram has added the empty item
  have hself : ppbloom_check L.murmurhash2 g₁.bloom [] = 1 := by
    rw [hbloom]
    exact ppbloom_check_add_self hf []
  refine ⟨(ret₂, b₂'.bytes), by simp, ?_⟩
  exact stream_decrypt_all_repeated hM rfl hb₂ (List.nil_append b₂.bytes).symm hself hsecond

/-- The length of the salt or IV. -/
def salt_size : AeadMethod ⊕ StreamMethod → Nat
  | .inl M => supported_aead_ciphers_key_size M
  | .inr M => supported_stream_ciphers_nonce_size M

/-- The run of a sender arrives at a receiver whose filter reports none of the salts before it is added, if and only
if the method has an IV or there is at most one datagram. -/
theorem datagram_round_trip {L : CryptoLib} {byte : StreamMethod → Bool → Bytes → Bytes → Bytes → UInt8 → UInt8}
    {ks : StreamMethod → Bytes → Bytes → Nat → UInt8} (hA : L.Lawful) (hS : L.Streams byte ks)
    (method : AeadMethod ⊕ StreamMethod) (key : Bytes)
    (hM : ∀ M, method = .inr M → stream_supported L M ∧ key.length = supported_stream_ciphers_key_size M)
    (msgs : List (Bytes × Buffer)) (hsalt : ∀ m ∈ msgs, m.1.length = salt_size method)
    (hfresh : salt_size method ≠ 0 → (msgs.map (·.1)).Nodup)
    (hmsgs : ∀ m ∈ msgs, m.2.bytes ≠ [] ∧ m.2.len ≤ m.2.capacity) (g : CryptoStatics) (gr : CryptoState)
    (hf : gr.bloom.WF) (hexact : gr.bloom.Exact L.murmurhash2 (msgs.map (·.1))) (capacity capacity' : Nat) :
    ∃ cs g', encryptDatagrams L method key capacity g msgs = .ok (cs, g') ∧ (∀ c ∈ cs, c.1 = .CRYPTO_OK) ∧
      ∀ ds : List Buffer, (∀ b ∈ ds, b.len ≤ b.capacity) → ds.map Buffer.bytes = cs.map (·.2) →
        ((∃ gr', decryptDatagrams (decryptor L method key capacity') gr ds = .ok (arrivals msgs, gr')) ↔
          method ≠ .inr .RC4 ∨ msgs.length ≤ 1) := by
  obtain ⟨wire, hD, hlen⟩ : ∃ wire, Datagrams (decryptor L method key capacity') L.murmurhash2
      (encrypt_all L method key capacity) wire ∧ (decryptor L method key capacity').salt_len = salt_size method := by
    rcases method with M | M
    · exact ⟨_, aead_datagrams hA M key capacity capacity', rfl⟩
    · obtain ⟨hsup, hkey⟩ := hM M rfl
      exact ⟨_, stream_datagrams hS hsup hkey capacity capacity', rfl⟩
  obtain ⟨g', hsend⟩ := hD.encryptDatagrams_eq
    (fun m hm => ⟨(hsalt m hm).trans hlen.symm, (hmsgs m hm).2⟩) g
  refine ⟨_, g', hsend, ?_, ?_⟩
  · intro c hc
    obtain ⟨m, -, rfl⟩ := List.mem_map.1 hc
    rfl
  intro ds hds hwire
  rw [List.map_map] at hwire
  have harrives : (msgs.map (·.1)).Nodup →
      ∃ gr', decryptDatagrams (decryptor L method key capacity') gr ds = .ok (arrivals msgs, gr') := by
    intro hnd
    exact hD.decryptDatagrams_eq (fun m hm => ⟨(hsalt m hm).trans hlen.symm, (hmsgs m hm).1⟩) hds hwire
      (hexact.admits hnd)
  by_cases hrc4 : method = .inr .RC4
  · subst hrc4
    obtain ⟨hsup, hkey⟩ := hM .RC4 rfl
    rcases msgs with _ | ⟨m, _ | ⟨m₂, ms⟩⟩
    · exact iff_of_true (harrives List.nodup_nil) (.inr (Nat.zero_le _))
    · exact iff_of_true (harrives (List.nodup_singleton _)) (.inr (Nat.le_refl _))
    refine iff_of_false ?_ (by simp)
    rintro ⟨gr', hrun⟩
    -- the first two datagrams
    obtain ⟨b, bs, rfl, hb, hbs⟩ := List.map_eq_cons_iff.1 hwire
    obtain ⟨b₂, bs, rfl, -, -⟩ := List.map_eq_cons_iff.1 hbs
    obtain ⟨hcap, hcaps⟩ := List.forall_mem_cons.1 hds
    obtain ⟨hcap₂, -⟩ := List.forall_mem_cons.1 hcaps
    have hiv : m.1 = [] := List.length_eq_zero_iff.1 (hsalt m (by simp))
    simp only [Function.comp, hiv] at hb
    have hcheck : ppbloom_check L.murmurhash2 gr.bloom [] ≠ 1 := by
      intro h1
      exact absurd (hexact 0 [] (by simp [hiv]) h1) (by simp)
    obtain ⟨r, hr, herr⟩ := rc4_second_dropped hD hsup hf hcheck (hmsgs m (by simp)).1 hcap hcap₂ hb hrun
    obtain ⟨m', -, rfl⟩ := List.mem_map.1 hr
    cases herr
  · have hne : salt_size method ≠ 0 := by
      rcases method with M | M
      · cases M <;> decide
      · intro h0
        exact hrc4 (congrArg _ ((supported_nonce_size_eq_zero (hM M rfl).1).1 h0))
    exact iff_of_true (harrives (hfresh hne)) (.inl hrc4)

theorem datagram_round_trip_xorLib :
    ∃ cs g', encryptDatagrams xorLib (.inr .AES_128_CTR) (List.replicate 16 1) SOCKET_BUF_SIZE .start
        [(List.replicate 16 2, Buffer.ofBytes [3]), (List.replicate 16 4, Buffer.ofBytes [5, 6])] = .ok (cs, g') ∧
      (∀ c ∈ cs, c.1 = .CRYPTO_OK) ∧
      ∀ ds : List Buffer, (∀ b ∈ ds, b.len ≤ b.capacity) → ds.map Buffer.bytes = cs.map (·.2) →
        ((∃ gr',
            decryptDatagrams (decryptor xorLib (.inr .AES_128_CTR) (List.replicate 16 1) SOCKET_BUF_SIZE) .start ds =
            .ok (arrivals [(List.replicate 16 2, Buffer.ofBytes [3]), (List.replicate 16 4, Buffer.ofBytes [5, 6])],
              gr')) ↔
          (.inr .AES_128_CTR : AeadMethod ⊕ StreamMethod) ≠ .inr .RC4 ∨ 2 ≤ 1) := by
  refine datagram_round_trip xorLib_lawful xorLib_streams (.inr .AES_128_CTR) (List.replicate 16 1) ?_ _ ?_ ?_ ?_ _ _
    ?_ ?_ SOCKET_BUF_SIZE SOCKET_BUF_SIZE
  · intro M hM
    cases hM
    exact ⟨⟨by decide, .inr (by decide)⟩, rfl⟩
  · simp [salt_size, supported_stream_ciphers_nonce_size, StreamMethod.code, StreamMethod.ctorIdx]
  · intro _
    decide
  · decide
  · exact ppbloom_init_wf (by decide)
  · -- the filter starts empty, and the first IV leaves a bit of the second one unset
    intro i x hx hcheck
    rcases i with _ | _ | i
    · cases hx
      exact absurd hcheck (by decide +kernel)
    · cases hx
      exact absurd hcheck (by decide +kernel)
    · cases hx

/-- The second of two datagrams of `RC4` is dropped. -/
theorem datagram_round_trip_rc4 :
    ∃ cs g' rs gr', encryptDatagrams xorLib (.inr .RC4) (List.replicate 16 1) SOCKET_BUF_SIZE .start
        [([], Buffer.ofBytes [3]), ([], Buffer.ofBytes [4])] = .ok (cs, g') ∧
      decryptDatagrams (decryptor xorLib (.inr .RC4) (List.replicate 16 1) SOCKET_BUF_SIZE) .start
        (cs.map fun c => Buffer.ofBytes c.2) = .ok (rs, gr') ∧
      cs.map (·.1) = [.CRYPTO_OK, .CRYPTO_OK] ∧ rs.map (·.1) = [.CRYPTO_OK, .CRYPTO_ERROR] := by
  have hrun : (do
      let (cs, _) ← encryptDatagrams xorLib (.inr .RC4) (List.replicate 16 1) SOCKET_BUF_SIZE .start
        [([], Buffer.ofBytes [3]), ([], Buffer.ofBytes [4])]
      let (rs, _) ← decryptDatagrams (decryptor xorLib (.inr .RC4) (List.replicate 16 1) SOCKET_BUF_SIZE) .start
        (cs.map fun c => Buffer.ofBytes c.2)
      return (cs.map (·.1), rs.map (·.1)) : C (List CryptoRet × List CryptoRet)) =
        .ok ([.CRYPTO_OK, .CRYPTO_OK], [.CRYPTO_OK, .CRYPTO_ERROR]) := by
    decide +kernel
  obtain ⟨⟨cs, g'⟩, hsend, hrun⟩ := C.bind_eq_ok hrun
  obtain ⟨⟨rs, gr'⟩, hrecv, hrun⟩ := C.bind_eq_ok hrun
  obtain ⟨hcs, hrs⟩ := Prod.mk.inj (Except.ok.inj hrun)
  exact ⟨cs, g', rs, gr', hsend, hrecv, hcs, hrs⟩

end OutlineServer
