import OutlineServer.Hkdf

/-!
# Keys from passwords (`crypto.c`)

`crypto_derive_key` copies one digest after another into the key, byte by byte. Its index `j` is an `unsigned int`
where the length is a `size_t`, so the loop ends for lengths below `2^32` only. Then the key is the start of the chain
of digests, each of the one before it and the password (`crypto_derive_key_iff`), and a shorter key is a prefix of a
longer one (`derivedKey_prefix`).
-/

namespace OutlineServer.DeriveKey
open Chain Hkdf

/-- MD5, whose size `mbedtls_md_get_size` gives. -/
structure Md5 where
  md : Bytes → Bytes
  length_md : ∀ m, (md m).length = 16

def mds : Nat := 16

/-- The inner loop from `i` on, with `todo` rounds to go. -/
def copyLoop (md_buf : Bytes) (key_len : Nat) : (todo i j : Nat) → (key : Bytes) → C (Nat × Bytes)
  | 0, _, j, key => .ok (j, key)
  | todo + 1, i, j, key =>
    if key_len ≤ j then
      .ok (j, key)
    else do
      let bs ← readArray (md_buf.drop i) 1
      let key ← writeArray key j bs
      copyLoop md_buf key_len todo (i + 1) ((j + 1) % 2 ^ 32) key

/-- What is hashed before the password. -/
def lastDigest (addmd : Nat) (md_buf : Bytes) : C Bytes := if addmd ≠ 0 then readArray md_buf mds else .ok []

/-- The outer loop. -/
def deriveLoop (md : Md5) (pass : Bytes) (key_len : Nat) : (fuel addmd j : Nat) → (md_buf key : Bytes) → C Bytes
  | 0, _, _, _, _ => .error .diverges
  | fuel + 1, addmd, j, md_buf, key =>
    if key_len ≤ j then
      .ok key
    else do
      let last ← lastDigest addmd md_buf
      let md_buf ← writeArray md_buf 0 (md.md (last ++ pass))
      let copied ← copyLoop md_buf key_len mds 0 j key
      deriveLoop md pass key_len fuel (addmd + 1) copied.1 md_buf copied.2

/-- `crypto_derive_key`; `md_buf` is what the array of the digest holds at first. It returns the length as an `int`,
which is negative from `2^31` on. -/
def crypto_derive_key (md : Md5) (fuel : Nat) (md_buf : {m : Bytes // m.length = MAX_MD_SIZE}) (pass key : Bytes)
    (key_len : Nat) : C (Int × Bytes) := do
  let key ← deriveLoop md pass key_len fuel 0 0 md_buf key
  return ((key_len : Int).bmod (2 ^ 32), key)

/-- `D(i + 1)` after `D(i)`. -/
def digestStep (md : Md5) (pass : Bytes) (_ : Nat) (D : Bytes) : Bytes := md.md (D ++ pass)

/-- The first bytes of `D1 || D2 || …`. -/
def derivedKey (md : Md5) (pass : Bytes) (key_len : Nat) : Bytes := chain (digestStep md pass) key_len

/-- The function returns, and has written the key and nothing behind it. -/
def Derives (md : Md5) (md_buf : {m : Bytes // m.length = MAX_MD_SIZE}) (pass key : Bytes) (key_len : Nat) : Prop :=
  ∃ fuel, crypto_derive_key md fuel md_buf pass key key_len =
    .ok ((key_len : Int).bmod (2 ^ 32), derivedKey md pass key_len ++ key.drop key_len)

variable {md : Md5} {pass md_buf key m : Bytes} {key_len todo i j n fuel addmd : Nat}

theorem length_digestStep (md : Md5) (pass : Bytes) (i : Nat) : (chained (digestStep md pass) (i + 1)).length = mds :=
  md.length_md _

theorem length_derivedKey (md : Md5) (pass : Bytes) (key_len : Nat) : (derivedKey md pass key_len).length = key_len :=
  length_chain (length_digestStep md pass) (by decide)

theorem derivedKey_prefix (md : Md5) (pass : Bytes) (h : n ≤ key_len) :
    (derivedKey md pass key_len).take n = derivedKey md pass n :=
  take_chain (length_digestStep md pass) (by decide) h

theorem derivedKey_add (md : Md5) (pass : Bytes) (n : Nat) (hi : i ≤ mds) :
    derivedKey md pass (n * mds + i) = blocks (digestStep md pass) n ++ (chained (digestStep md pass) (n + 1)).take i :=
  chain_add (length_digestStep md pass) (by decide) hi

/-! ### Lengths below `2^32` -/

/-- The bytes that are still missing, or those that the digest still has. -/
theorem copyLoop_spec (hlen : key_len ≤ key.length) (hj : j ≤ key_len) (h32 : key_len < 2 ^ 32) (hm : m.length = j)
    (hi : i + todo ≤ md_buf.length) :
    copyLoop md_buf key_len todo i j (m ++ key.drop j) = .ok (j + min todo (key_len - j),
      m ++ (md_buf.drop i).take (min todo (key_len - j)) ++ key.drop (j + min todo (key_len - j))) := by
  induction todo generalizing i j m with
  | zero => simp [copyLoop]
  | succ todo ih =>
    rw [copyLoop]
    split
    · obtain rfl : j = key_len := by omega
      simp
    · rename_i hlt
      obtain ⟨b, rest, hb⟩ : ∃ b rest, md_buf.drop i = b :: rest := by
        refine List.exists_cons_of_ne_nil fun hnil => ?_
        rw [List.drop_eq_nil_iff] at hnil
        omega
      have hrest : md_buf.drop (i + 1) = rest := by
        rw [← List.drop_drop, hb, List.drop_succ_cons, List.drop_zero]
      rw [hb, readArray_ok (by simp), C.ok_bind, List.take_succ_cons, List.take_zero,
        writeArray_append (n := 1) (by omega) rfl hm, C.ok_bind, Nat.mod_eq_of_lt (by omega),
        ih (by omega) (by simp [hm]) (by omega), hrest]
      have hmin : min (todo + 1) (key_len - j) = min todo (key_len - (j + 1)) + 1 := by omega
      rw [hmin, List.take_succ_cons, List.append_assoc m, List.singleton_append, Nat.add_assoc, Nat.add_comm 1]

/-- The rounds behind the first `n`. -/
theorem deriveLoop_spec (hlen : key_len ≤ key.length) (h32 : key_len < 2 ^ 32) (hbuf : md_buf.length = MAX_MD_SIZE)
    (hj : j = min (n * mds) key_len) (hlast : j < key_len → n ≠ 0 → md_buf.take mds = chained (digestStep md pass) n)
    (hfuel : key_len - j < fuel) :
    deriveLoop md pass key_len fuel n j md_buf (derivedKey md pass j ++ key.drop j) =
      .ok (derivedKey md pass key_len ++ key.drop key_len) := by
  induction fuel generalizing n j md_buf with
  | zero => omega
  | succ fuel ih =>
    rw [deriveLoop]
    split
    · obtain rfl : j = key_len := by omega
      rfl
    · rename_i hlt
      have hjn : j = n * mds := by omega
      have hread : lastDigest n md_buf = .ok (chained (digestStep md pass) n) := by
        unfold lastDigest
        split
        · rename_i hn
          rw [readArray_ok (by rw [hbuf]; decide), hlast (by omega) hn]
        · rename_i hn
          rw [not_not.1 hn]
          rfl
      have hdigest : md.md (chained (digestStep md pass) n ++ pass) = chained (digestStep md pass) (n + 1) := rfl
      have hsize := length_digestStep md pass n
      rw [hread, C.ok_bind, hdigest, writeArray_ok (by rw [hsize, hbuf]; decide), C.ok_bind, hsize]
      generalize hbuf' : List.take 0 md_buf ++ chained (digestStep md pass) (n + 1) ++ List.drop (0 + mds) md_buf =
        md_buf'
      have hlen' : md_buf'.length = MAX_MD_SIZE := by
        rw [← hbuf', List.length_append, List.length_append, List.length_drop, hsize, List.length_take, hbuf]
        decide
      have htake : ∀ i ≤ mds, md_buf'.take i = (chained (digestStep md pass) (n + 1)).take i := by
        intro i hi
        rw [← hbuf', List.take_zero, List.nil_append, List.take_append_of_le_length (by omega)]
      have hcopied : derivedKey md pass j ++ md_buf'.take (min mds (key_len - j)) =
          derivedKey md pass (j + min mds (key_len - j)) := by
        have hold := derivedKey_add md pass n (Nat.zero_le mds)
        rw [Nat.add_zero, List.take_zero, List.append_nil] at hold
        rw [htake _ (Nat.min_le_left _ _), hjn, derivedKey_add md pass n (Nat.min_le_left _ _), hold]
      rw [copyLoop_spec hlen (by omega) h32 (length_derivedKey md pass j) (by rw [hlen']; decide), C.ok_bind,
        List.drop_zero, hcopied]
      have hmds : 0 < mds := by decide
      have hsucc : (n + 1) * mds = n * mds + mds := Nat.succ_mul _ _
      refine ih hlen' (by omega) (fun _ _ => ?_) (by omega)
      rw [htake _ (Nat.le_refl _), List.take_of_length_le (by omega)]

/-! ### Other lengths -/

theorem copyLoop_lt {key' : Bytes} {j' : Nat} (hj : j < 2 ^ 32)
    (h : copyLoop md_buf key_len todo i j key = .ok (j', key')) : j' < 2 ^ 32 := by
  induction todo generalizing i j key with
  | zero =>
    cases h
    exact hj
  | succ todo ih =>
    rw [copyLoop] at h
    split at h
    · cases h
      exact hj
    · obtain ⟨bs, -, h⟩ := C.bind_eq_ok h
      obtain ⟨key₁, -, h⟩ := C.bind_eq_ok h
      exact ih (Nat.mod_lt _ (by decide)) h

/-- The index wraps and the loop goes on. -/
theorem deriveLoop_diverges {key' : Bytes} (h32 : 2 ^ 32 ≤ key_len) (hj : j < 2 ^ 32) :
    deriveLoop md pass key_len fuel addmd j md_buf key ≠ .ok key' := by
  intro h
  induction fuel generalizing addmd j md_buf key with
  | zero => cases h
  | succ fuel ih =>
    rw [deriveLoop, if_neg (by omega)] at h
    obtain ⟨last, -, h⟩ := C.bind_eq_ok h
    obtain ⟨md_buf', -, h⟩ := C.bind_eq_ok h
    obtain ⟨copied, hcopied, h⟩ := C.bind_eq_ok h
    exact ih (copyLoop_lt hj hcopied) h

theorem not_derives (h32 : 2 ^ 32 ≤ key_len) (md_buf : {m : Bytes // m.length = MAX_MD_SIZE}) :
    ¬ Derives md md_buf pass key key_len := by
  rintro ⟨fuel, h⟩
  obtain ⟨key', hkey, -⟩ := C.bind_eq_ok h
  exact deriveLoop_diverges h32 (by decide) hkey

/-- MD5 on the password `password`, and behind its digest. -/
def md5 : Md5 where
  md m :=
    if m.length = 8 then
      [0x5f, 0x4d, 0xcc, 0x3b, 0x5a, 0xa7, 0x65, 0xd6, 0x1d, 0x83, 0x27, 0xde, 0xb8, 0x82, 0xcf, 0x99]
    else
      [0x2b, 0x95, 0x99, 0x0a, 0x91, 0x51, 0x37, 0x4a, 0xbd, 0x8f, 0xf8, 0xc5, 0xa7, 0xa0, 0xfe, 0x08]
  length_md m := by
    split <;> rfl

/-- `password` -/
def testPass : Bytes := [0x70, 0x61, 0x73, 0x73, 0x77, 0x6f, 0x72, 0x64]

/-- For every password and every array that the key fits in. -/
theorem crypto_derive_key_iff (md : Md5) (md_buf : {m : Bytes // m.length = MAX_MD_SIZE}) (pass : Bytes) {key : Bytes}
    {key_len : Nat} (hlen : key_len ≤ key.length) :
    (Derives md md_buf pass key key_len ∧ ∀ n ≤ key_len, (derivedKey md pass key_len).take n = derivedKey md pass n) ↔
      key_len < 2 ^ 32 := by
  constructor
  · intro h
    by_contra h32
    exact not_derives (Nat.not_lt.1 h32) md_buf h.1
  · intro h32
    refine ⟨⟨key_len + 1, ?_⟩, fun n hn => derivedKey_prefix md pass hn⟩
    have hloop : deriveLoop md pass key_len (key_len + 1) 0 0 md_buf.1 key =
        .ok (derivedKey md pass key_len ++ key.drop key_len) :=
      deriveLoop_spec (j := 0) (n := 0) hlen h32 md_buf.2 (by simp) (fun _ h => absurd rfl h) (Nat.lt_succ_self _)
    rw [crypto_derive_key, hloop]
    rfl

theorem crypto_derive_key_iff_password :
    Derives md5 ⟨List.replicate 64 0, rfl⟩ testPass (List.replicate 32 0) 32 :=
  ((@crypto_derive_key_iff md5 ⟨List.replicate 64 0, rfl⟩ testPass (List.replicate 32 0) 32
    (by decide)).2 (by decide)).1

/-- A length that an `unsigned int` does not reach. -/
theorem derive_four_gigabytes :
    ¬ Derives md5 ⟨List.replicate 64 0, rfl⟩ testPass (List.replicate (2 ^ 32) 0) (2 ^ 32) :=
  not_derives (Nat.le_refl _) _

end OutlineServer.DeriveKey
