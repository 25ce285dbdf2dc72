import OutlineServer.Crypto
import OutlineServer.Lib.Chain

/-!
# Expansion of a pseudo-random key (`crypto.c`)

`crypto_hkdf_expand` with the memory that it writes. `T` is the array of the last hash, of which nothing is hashed in
the first round. The output is the start of the chain `T(1) || T(2) || …` of RFC 5869, section 2.3
(`crypto_hkdf_expand_spec`).
-/

namespace OutlineServer.Hkdf
open Chain

/-- `MBEDTLS_MD_MAX_SIZE` -/
def MAX_MD_SIZE : Nat := 64

/-- A digest of mbed TLS, with its size in bytes. -/
structure MdInfo where
  size : Nat
  size_pos : 0 < size
  size_le : size ≤ MAX_MD_SIZE
  hmac : Bytes → Bytes → Bytes
  length_hmac : ∀ key m, (hmac key m).length = size

/-- The first `n` bytes of an array, as a source of `memcpy` or a digest. -/
def readArray (a : Bytes) (n : Nat) : C Bytes := if n ≤ a.length then .ok (a.take n) else .error .bounds

/-- `memcpy` into an array, whose bytes from its start to the end of what is allocated are `a`. -/
def writeArray (a : Bytes) (off : Nat) (bs : Bytes) : C Bytes :=
  if off + bs.length ≤ a.length then .ok (a.take off ++ bs ++ a.drop (off + bs.length)) else .error .bounds

/-- The loop of `crypto_hkdf_expand` from `i` on, with `todo` rounds to go. -/
def expandLoop (md : MdInfo) (prk info : Bytes) (okm_len N : Nat) :
    (todo i : Nat) → (T : Bytes) → (T_len pos : Nat) → (okm : Bytes) → C Bytes
  | 0, _, _, _, _, okm => .ok okm
  | todo + 1, i, T, T_len, pos, okm => do
    let last ← readArray T T_len
    let T ← writeArray T 0 (md.hmac prk (last ++ info ++ [UInt8.ofNat i]))
    let bs ← readArray T (if i ≠ N then md.size else okm_len - pos)
    let okm ← writeArray okm pos bs
    expandLoop md prk info okm_len N todo (i + 1) T md.size (pos + md.size) okm

/-- `crypto_hkdf_expand`; `T` is what the array of the last hash holds at first. -/
def crypto_hkdf_expand (md : MdInfo) (T : {T : Bytes // T.length = MAX_MD_SIZE}) (prk : Bytes) (prk_len : Int)
    (info : Option Bytes) (info_len : Int) (okm : Option Bytes) (okm_len : Int) : C (CryptoRet × Option Bytes) :=
  match okm with
  | none => .ok (.CRYPTO_ERROR, none)
  | some okm =>
    if info_len < 0 ∨ okm_len < 0 then
      .ok (.CRYPTO_ERROR, some okm)
    else if prk_len < md.size then
      .ok (.CRYPTO_ERROR, some okm)
    else
      let N := okm_len.toNat / md.size + if okm_len.toNat % md.size ≠ 0 then 1 else 0
      if 255 < N then
        .ok (.CRYPTO_ERROR, some okm)
      else do
        let prk ← readArray prk prk_len.toNat
        let info ← readArray (info.getD [0]) info_len.toNat
        let okm ← expandLoop md prk info okm_len.toNat N N 1 T 0 0 okm
        return (.CRYPTO_OK, some okm)

/-! ### The chain of RFC 5869 -/

/-- `T(i + 1)` after `T(i)`. -/
def rfc5869 (md : MdInfo) (prk info : Bytes) (i : Nat) (T : Bytes) : Bytes :=
  md.hmac prk (T ++ info ++ [UInt8.ofNat (i + 1)])

variable {md : MdInfo} {prk info T okm a bs : Bytes} {n off okm_len N i : Nat}

theorem length_rfc5869 (md : MdInfo) (prk info : Bytes) (i : Nat) :
    (chained (rfc5869 md prk info) (i + 1)).length = md.size := md.length_hmac _ _

theorem readArray_ok (h : n ≤ a.length) : readArray a n = .ok (a.take n) := if_pos h

theorem writeArray_ok (h : off + bs.length ≤ a.length) :
    writeArray a off bs = .ok (a.take off ++ bs ++ a.drop (off + bs.length)) := if_pos h

/-- Written bytes behind others that have been written. -/
theorem writeArray_append (h : n + off ≤ a.length) (hbs : bs.length = n) {m : Bytes} (hm : m.length = off) :
    writeArray (m ++ a.drop off) off bs = .ok (m ++ bs ++ a.drop (off + n)) := by
  have hlen : (m ++ a.drop off).length = a.length := by
    rw [List.length_append, List.length_drop]
    omega
  rw [writeArray_ok (by omega), List.take_left' hm, List.drop_append, List.drop_of_length_le (by omega),
    List.nil_append, List.drop_drop]
  congr 3
  omega

/-- What the array holds after `i` rounds. -/
def written (md : MdInfo) (prk info okm : Bytes) (okm_len i : Nat) : Bytes :=
  (blocks (rfc5869 md prk info) i).take okm_len ++ okm.drop (min okm_len (i * md.size))

/-- A round that has been made before the last one, or the last one, which copies what is missing. -/
theorem written_succ (hpos : i * md.size < okm_len) (hnext : i + 1 ≠ N → (i + 1) * md.size ≤ okm_len)
    (hend : i + 1 = N → okm_len ≤ (i + 1) * md.size) (hlen : okm_len ≤ okm.length) :
    writeArray (written md prk info okm okm_len i) (i * md.size)
        ((chained (rfc5869 md prk info) (i + 1)).take (if i + 1 ≠ N then md.size else okm_len - i * md.size)) =
      .ok (written md prk info okm okm_len (i + 1)) := by
  have hblocks : (blocks (rfc5869 md prk info) i).length = i * md.size := length_blocks (length_rfc5869 md prk info)
  have hchained := length_rfc5869 md prk info i
  have hsucc : (i + 1) * md.size = i * md.size + md.size := Nat.succ_mul _ _
  have hold : written md prk info okm okm_len i = blocks (rfc5869 md prk info) i ++ okm.drop (i * md.size) := by
    rw [written, List.take_of_length_le (by omega), Nat.min_eq_right (by omega)]
  have hnew : (blocks (rfc5869 md prk info) (i + 1)).take okm_len = blocks (rfc5869 md prk info) i ++
      (chained (rfc5869 md prk info) (i + 1)).take (okm_len - i * md.size) := by
    rw [blocks_succ, List.take_append, hblocks, List.take_of_length_le (by omega)]
  rw [hold]
  by_cases hi : i + 1 = N
  · have hle := hend hi
    rw [if_neg (not_not.2 hi), writeArray_append (n := okm_len - i * md.size) (by omega)
      (by rw [List.length_take]; omega) hblocks, written, hnew, Nat.min_eq_left hle]
    congr 3
    omega
  · have hle := hnext hi
    rw [if_pos hi, writeArray_append (n := md.size) (by omega) (by rw [List.length_take]; omega) hblocks, written, hnew,
      Nat.min_eq_right hle, hsucc, List.take_of_length_le (by omega), List.take_of_length_le (by omega)]

/-- The rounds behind the first `i`. -/
theorem expandLoop_spec (hN : okm_len ≤ N * md.size) (hceil : ∀ i, i < N → i * md.size < okm_len)
    (hlen : okm_len ≤ okm.length) {todo T_len : Nat} (htodo : i + todo = N) (hT : T.length = MAX_MD_SIZE)
    (hTlen : T_len ≤ MAX_MD_SIZE) (htake : T.take T_len = chained (rfc5869 md prk info) i) :
    expandLoop md prk info okm_len N todo (i + 1) T T_len (i * md.size) (written md prk info okm okm_len i) =
      .ok (chain (rfc5869 md prk info) okm_len ++ okm.drop okm_len) := by
  induction todo generalizing i T T_len with
  | zero =>
    obtain rfl : i = N := by omega
    rw [expandLoop, written, take_blocks (length_rfc5869 md prk info) md.size_pos hN, Nat.min_eq_left hN]
  | succ todo ih =>
    have hhash : md.hmac prk (chained (rfc5869 md prk info) i ++ info ++ [UInt8.ofNat (i + 1)]) =
        chained (rfc5869 md prk info) (i + 1) := rfl
    have hsize := length_rfc5869 md prk info i
    have hle := md.size_le
    have hsucc : (i + 1) * md.size = i * md.size + md.size := Nat.succ_mul _ _
    rw [expandLoop, readArray_ok (by omega), C.ok_bind, htake, hhash,
      writeArray_ok (by rw [hsize, hT]; omega), C.ok_bind, hsize]
    generalize hT' : List.take 0 T ++ chained (rfc5869 md prk info) (i + 1) ++ List.drop (0 + md.size) T = T'
    have hT'len : T'.length = MAX_MD_SIZE := by
      rw [← hT', List.length_append, List.length_append, List.length_drop, hsize, List.length_take]
      omega
    have hT'take : ∀ n ≤ md.size, T'.take n = (chained (rfc5869 md prk info) (i + 1)).take n := by
      intro n hn
      rw [← hT', List.take_zero, List.nil_append, List.take_append_of_le_length (by omega)]
    have hpos := hceil i (by omega)
    have hend : i + 1 = N → okm_len ≤ (i + 1) * md.size := fun h => h ▸ hN
    have hnext : i + 1 ≠ N → (i + 1) * md.size ≤ okm_len := fun h => (hceil (i + 1) (by omega)).le
    have hcopied : (if i + 1 ≠ N then md.size else okm_len - i * md.size) ≤ md.size := by
      split
      · exact Nat.le_refl _
      · have := hend (by omega)
        omega
    rw [readArray_ok (by omega), C.ok_bind, hT'take _ hcopied, written_succ hpos hnext hend hlen, C.ok_bind, ← hsucc]
    refine ih (by omega) hT'len (by omega) ?_
    rw [hT'take _ (Nat.le_refl _), List.take_of_length_le (by omega)]

/-! ### The number of rounds -/

def rounds (size okm_len : Nat) : Nat := okm_len / size + if okm_len % size ≠ 0 then 1 else 0

variable {size : Nat}

theorem le_rounds (hsize : 0 < size) (okm_len : Nat) : okm_len ≤ rounds size okm_len * size := by
  have hdiv := Nat.div_add_mod' okm_len size
  have hmod := Nat.mod_lt okm_len hsize
  unfold rounds
  split
  · rw [Nat.succ_mul]
    omega
  · rw [Nat.add_zero]
    omega

theorem of_lt_rounds (h : i < rounds size okm_len) : i * size < okm_len := by
  have hdiv := Nat.div_add_mod' okm_len size
  unfold rounds at h
  split at h
  · have hle := Nat.mul_le_mul_right size (Nat.lt_succ_iff.1 h)
    omega
  · have hle : (i + 1) * size ≤ okm_len / size * size := Nat.mul_le_mul_right size h
    have hsize : 0 < size := by
      by_contra hzero
      obtain rfl : size = 0 := by omega
      simp at h
    rw [Nat.succ_mul] at hle
    omega

theorem rounds_le_iff (hsize : 0 < size) : rounds size okm_len ≤ n ↔ okm_len ≤ n * size := by
  constructor
  · intro h
    exact (le_rounds hsize okm_len).trans (Nat.mul_le_mul_right size h)
  · intro h
    by_contra hlt
    exact absurd (of_lt_rounds (Nat.not_le.1 hlt)) (Nat.not_lt.2 h)

/-- The function of the other modules has the same output. -/
theorem hkdfLoop_eq {todo : Nat} (htodo : i + todo = rounds md.size okm_len) :
    hkdfLoop md.hmac md.size okm_len (rounds md.size okm_len) prk info todo (i + 1) (chained (rfc5869 md prk info) i)
        ((blocks (rfc5869 md prk info) i).take okm_len) = chain (rfc5869 md prk info) okm_len := by
  induction todo generalizing i with
  | zero =>
    obtain rfl : i = rounds md.size okm_len := by omega
    rw [hkdfLoop, take_blocks (length_rfc5869 md prk info) md.size_pos (le_rounds md.size_pos okm_len)]
  | succ todo ih =>
    have hhash : md.hmac prk (chained (rfc5869 md prk info) i ++ info ++ [UInt8.ofNat (i + 1)]) =
        chained (rfc5869 md prk info) (i + 1) := rfl
    have hblocks : (blocks (rfc5869 md prk info) i).length = i * md.size := length_blocks (length_rfc5869 md prk info)
    have hsize := length_rfc5869 md prk info i
    have hpos : i * md.size < okm_len := of_lt_rounds (by omega)
    rw [hkdfLoop, hhash, ← ih (i := i + 1) (by omega)]
    congr 1
    rw [blocks_succ, List.take_append, hblocks, List.length_take, hblocks, Nat.min_eq_right hpos.le]
    split
    · rename_i hi
      have hnext : (i + 1) * md.size < okm_len := of_lt_rounds (by omega)
      rw [Nat.succ_mul] at hnext
      have hfirst : (chained (rfc5869 md prk info) (i + 1)).take md.size = chained (rfc5869 md prk info) (i + 1) :=
        List.take_of_length_le hsize.le
      have hall : (chained (rfc5869 md prk info) (i + 1)).take (okm_len - i * md.size) =
          chained (rfc5869 md prk info) (i + 1) := List.take_of_length_le (by omega)
      rw [hfirst, hall, List.take_of_length_le (by omega)]
    · rw [List.take_of_length_le (by omega)]

theorem crypto_hkdf_expand_eq (h : okm_len ≤ 255 * md.size) :
    OutlineServer.crypto_hkdf_expand md.hmac md.size prk info okm_len = some (chain (rfc5869 md prk info) okm_len) := by
  have hN : ¬ 255 < rounds md.size okm_len := Nat.not_lt.2 ((rounds_le_iff md.size_pos).2 h)
  show (if 255 < rounds md.size okm_len then none else _) = _
  rw [if_neg hN]
  have hloop := @hkdfLoop_eq md prk info okm_len 0 _ (Nat.zero_add (rounds md.size okm_len))
  rw [blocks_zero, List.take_nil] at hloop
  exact congrArg some hloop

theorem lt_rounds (h : ¬ okm_len ≤ 255 * md.size) : 255 < rounds md.size okm_len :=
  Nat.not_le.1 (mt (rounds_le_iff md.size_pos).1 h)

theorem crypto_hkdf_expand_none (h : ¬ okm_len ≤ 255 * md.size) :
    OutlineServer.crypto_hkdf_expand md.hmac md.size prk info okm_len = none :=
  if_pos (lt_rounds h)

/-- SHA-256 with the key and the text of the first test of RFC 5869. -/
def hmacSha256 : Bytes → Bytes → Bytes := fun _ m =>
  if m.length = 11 then
    [0x3c, 0xb2, 0x5f, 0x25, 0xfa, 0xac, 0xd5, 0x7a, 0x90, 0x43, 0x4f, 0x64, 0xd0, 0x36, 0x2f, 0x2a,
      0x2d, 0x2d, 0x0a, 0x90, 0xcf, 0x1a, 0x5a, 0x4c, 0x5d, 0xb0, 0x2d, 0x56, 0xec, 0xc4, 0xc5, 0xbf]
  else
    [0x34, 0x00, 0x72, 0x08, 0xd5, 0xb8, 0x87, 0x18, 0x58, 0x65, 0xb4, 0xb0, 0xa8, 0x5a, 0x99, 0x3b,
      0x89, 0xb9, 0xb6, 0x56, 0x83, 0xd6, 0x0f, 0x01, 0x06, 0xd2, 0x8f, 0xff, 0x03, 0x9d, 0x0b, 0x6f]

def sha256 : MdInfo where
  size := 32
  size_pos := by decide
  size_le := by decide
  hmac := hmacSha256
  length_hmac _ m := by
    unfold hmacSha256
    split <;> rfl

/-- The output of the function that the ciphers' modules use is written into the array. -/
theorem crypto_hkdf_expand_refines (md : MdInfo) (T : {T : Bytes // T.length = MAX_MD_SIZE}) {prk : Bytes}
    (hprk : md.size ≤ prk.length) (info okm : Bytes) {okm_len : Nat}
    (hroom : okm_len ≤ 255 * md.size → okm_len ≤ okm.length) :
    crypto_hkdf_expand md T prk prk.length (some info) info.length (some okm) okm_len =
      match OutlineServer.crypto_hkdf_expand md.hmac md.size prk info okm_len with
      | some out => .ok (.CRYPTO_OK, some (out ++ okm.drop okm_len))
      | none => .ok (.CRYPTO_ERROR, some okm) := by
  have hchecks : crypto_hkdf_expand md T prk prk.length (some info) info.length (some okm) okm_len =
      if 255 < rounds md.size okm_len then .ok (.CRYPTO_ERROR, some okm) else do
        let okm ← expandLoop md prk info okm_len (rounds md.size okm_len) (rounds md.size okm_len) 1 T.1 0 0 okm
        return (.CRYPTO_OK, some okm) := by
    rw [crypto_hkdf_expand]
    simp only
    rw [if_neg (by omega), if_neg (by omega), Int.toNat_natCast, Int.toNat_natCast, Int.toNat_natCast,
      readArray_ok (Nat.le_refl _), List.take_length, C.ok_bind, Option.getD_some, readArray_ok (Nat.le_refl _),
      List.take_length, C.ok_bind]
    rfl
  by_cases h : okm_len ≤ 255 * md.size
  · have hN : ¬ 255 < rounds md.size okm_len := Nat.not_lt.2 ((rounds_le_iff md.size_pos).2 h)
    have hloop := @expandLoop_spec md prk info T.1 okm okm_len _ 0 (le_rounds md.size_pos okm_len)
      (fun i hi => of_lt_rounds hi) (hroom h) _ 0 (Nat.zero_add _) T.2 (Nat.zero_le _) rfl
    rw [written, blocks_zero, List.take_nil, List.nil_append, Nat.zero_mul, Nat.min_zero, List.drop_zero] at hloop
    rw [hchecks, if_neg hN, hloop, C.ok_bind, crypto_hkdf_expand_eq h]
    rfl
  · rw [hchecks, if_pos (lt_rounds h), crypto_hkdf_expand_none h]

/-- For every output array and whatever lies behind it. -/
theorem crypto_hkdf_expand_spec (md : MdInfo) (T : {T : Bytes // T.length = MAX_MD_SIZE}) {prk : Bytes}
    (hprk : md.size ≤ prk.length) (info okm : Bytes) (okm_len : Nat) :
    (okm_len ≤ 255 * md.size → okm_len ≤ okm.length →
      crypto_hkdf_expand md T prk prk.length (some info) info.length (some okm) okm_len =
        .ok (.CRYPTO_OK, some (chain (rfc5869 md prk info) okm_len ++ okm.drop okm_len))) ∧
    (255 * md.size < okm_len →
      crypto_hkdf_expand md T prk prk.length (some info) info.length (some okm) okm_len =
        .ok (.CRYPTO_ERROR, some okm)) := by
  constructor
  · intro h hlen
    rw [crypto_hkdf_expand_refines md T hprk info okm fun _ => hlen, crypto_hkdf_expand_eq h]
  · intro h
    rw [crypto_hkdf_expand_refines md T hprk info okm fun hle => absurd hle (Nat.not_le.2 h),
      crypto_hkdf_expand_none (Nat.not_le.2 h)]

/-- The key of the test. -/
def testKey : Bytes :=
  [0x07, 0x77, 0x09, 0x36, 0x2c, 0x2e, 0x32, 0xdf, 0x0d, 0xdc, 0x3f, 0x0d, 0xc4, 0x7b, 0xba, 0x63,
    0x90, 0xb6, 0xc7, 0x3b, 0xb5, 0x0f, 0x9c, 0x31, 0x22, 0xec, 0x84, 0x4a, 0xd7, 0xc2, 0xb3, 0xe5]

theorem crypto_hkdf_expand_spec_sha256 :
    crypto_hkdf_expand sha256 ⟨List.replicate 64 0, rfl⟩ testKey 32
        (some [0xf0, 0xf1, 0xf2, 0xf3, 0xf4, 0xf5, 0xf6, 0xf7, 0xf8, 0xf9]) 10
        (some (List.replicate 43 7)) 42 = .ok (.CRYPTO_OK, some
      [0x3c, 0xb2, 0x5f, 0x25, 0xfa, 0xac, 0xd5, 0x7a, 0x90, 0x43, 0x4f, 0x64, 0xd0, 0x36, 0x2f, 0x2a,
        0x2d, 0x2d, 0x0a, 0x90, 0xcf, 0x1a, 0x5a, 0x4c, 0x5d, 0xb0, 0x2d, 0x56, 0xec, 0xc4, 0xc5, 0xbf,
        0x34, 0x00, 0x72, 0x08, 0xd5, 0xb8, 0x87, 0x18, 0x58, 0x65, 0x07]) := by
  have hspec := (@crypto_hkdf_expand_spec sha256 ⟨List.replicate 64 0, rfl⟩ testKey (by decide)
    [0xf0, 0xf1, 0xf2, 0xf3, 0xf4, 0xf5, 0xf6, 0xf7, 0xf8, 0xf9] (List.replicate 43 7) 42).1 (by decide) (by decide)
  exact hspec

end OutlineServer.Hkdf
