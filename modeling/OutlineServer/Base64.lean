import OutlineServer.DeriveKey
import OutlineServer.IpLock

/-!
# Keys in Base64 (`base64.c`, `crypto.c`)

`base64_encode` and `base64_decode` shift bits through an accumulator of 32 bits that is never cleared. Between two
bytes of the encoder its last `i_shift` bits are still to be printed, and the decoder of what has been printed has the
other bits of that byte and all bytes before it (`Pending`). So a key comes back from its encoding
(`base64_round_trip`).
-/

namespace OutlineServer.Base64
open Hkdf (writeArray)

def UINT_MAX : Nat := 2 ^ 32 - 1

/-- `BASE64_SIZE` -/
def BASE64_SIZE (n : Nat) : Nat := (n + 2) / 3 * 4 + 1

def map2 : List Nat :=
  [0xff, 0xff, 0x3e, 0xff, 0xff, 0x34, 0x35, 0x36,
    0x37, 0x38, 0x39, 0x3a, 0x3b, 0x3c, 0x3d, 0xff,
    0xff, 0xff, 0xff, 0xff, 0xff, 0xff, 0x00, 0x01,
    0x02, 0x03, 0x04, 0x05, 0x06, 0x07, 0x08, 0x09,
    0x0a, 0x0b, 0x0c, 0x0d, 0x0e, 0x0f, 0x10, 0x11,
    0x12, 0x13, 0x14, 0x15, 0x16, 0x17, 0x18, 0x19,
    0xff, 0xff, 0xff, 0xff, 0x3f, 0xff, 0x1a, 0x1b,
    0x1c, 0x1d, 0x1e, 0x1f, 0x20, 0x21, 0x22, 0x23,
    0x24, 0x25, 0x26, 0x27, 0x28, 0x29, 0x2a, 0x2b,
    0x2c, 0x2d, 0x2e, 0x2f, 0x30, 0x31, 0x32, 0x33]

def b64 : Text := "ABCDEFGHIJKLMNOPQRSTUVWXYZabcdefghijklmnopqrstuvwxyz0123456789-_".toList

/-! ### `base64_decode` -/

/-- The variables of the loop; `dst` is what has been written. -/
structure Decoder where
  i : Nat
  v : Int
  dst : Bytes

/-- The digit of a character; `none` if the decoder returns `-1`. -/
def digit (c : Char) : Option Nat :=
  if c.toNat < 43 then none
  else
    match map2[c.toNat - 43]? with
    | some x => if x = 0xff then none else some x
    | none => none

/-- A round of the loop, with the digit of the character. -/
def Decoder.round (out_size : Int) (d : Decoder) (x : Nat) : Decoder :=
  let v := (d.v * 2 ^ 6 + x).bmod (2 ^ 32)
  if d.i % 4 ≠ 0 ∧ d.dst.length < out_size then
    ⟨d.i + 1, v, d.dst ++ [UInt8.ofNat (v / 2 ^ (6 - 2 * (d.i % 4)) % 256).toNat]⟩
  else
    ⟨d.i + 1, v, d.dst⟩

/-- The loop from a character on, and what the function returns. -/
def decodeLoop (out_size : Int) (d : Decoder) : Text → Int × Bytes
  | [] => (d.dst.length, d.dst)
  | c :: s =>
    if c = '\x00' ∨ c = '=' then
      (d.dst.length, d.dst)
    else
      match digit c with
      | none => (-1, d.dst)
      | some x => decodeLoop out_size (d.round out_size x) s

/-- `base64_decode`, with the bytes that it has written. -/
def base64_decode (text : Text) (out_size : Int) : Int × Bytes := decodeLoop out_size ⟨0, 0, []⟩ text

/-! ### `base64_encode` -/

/-- `*dst++ = c`, where `dst` is what has been written. -/
def putChar (size : Nat) (dst : Text) (c : Char) : C Text :=
  if dst.length < size then .ok (dst ++ [c]) else .error .bounds

/-- The character that is printed for the digit at `i_shift`. -/
def sextet (i_bits : Nat) (i_shift : Int) : Nat := i_bits * 2 ^ 6 % 2 ^ 32 / 2 ^ i_shift.toNat % 64

/-- The inner loop. -/
def printLoop (size i_bits bytes_remaining : Nat) : (fuel : Nat) → (i_shift : Int) → (dst : Text) → C (Int × Text)
  | 0, _, _ => .error .diverges
  | fuel + 1, i_shift, dst => do
    let dst ← putChar size dst (b64.getD (sextet i_bits i_shift) '\x00')
    if 6 < i_shift - 6 ∨ (bytes_remaining = 0 ∧ 0 < i_shift - 6) then
      printLoop size i_bits bytes_remaining fuel (i_shift - 6) dst
    else
      return (i_shift - 6, dst)

/-- The outer loop. -/
def encodeLoop (size : Nat) : Bytes → (i_bits : Nat) → (i_shift : Int) → (dst : Text) → C Text
  | [], _, _, dst => .ok dst
  | b :: rest, i_bits, i_shift, dst => do
    let i_bits := (i_bits * 2 ^ 8 + b.toNat) % 2 ^ 32
    let printed ← printLoop size i_bits rest.length (i_shift + 8).toNat (i_shift + 8) dst
    encodeLoop size rest i_bits printed.1 printed.2

/-- The loop that pads, with the `todo` characters that are missing. -/
def padLoop (size : Nat) : (todo : Nat) → Text → C Text
  | 0, dst => .ok dst
  | todo + 1, dst => do
    let dst ← putChar size dst '='
    padLoop size todo dst

/-- `base64_encode` into an array of `out_size` characters: the string, or `none` for `NULL`. -/
def base64_encode (out_size : Nat) (src : Bytes) : C (Option Text) :=
  if UINT_MAX / 4 ≤ src.length ∨ out_size < BASE64_SIZE src.length then
    .ok none
  else do
    let dst ← encodeLoop out_size src 0 0 []
    let dst ← padLoop out_size ((4 - dst.length % 4) % 4) dst
    let _ ← putChar out_size dst '\x00'
    return some dst

/-- `out_len`, an `int` -/
def outLen (base64 : Text) : Int := (BASE64_SIZE base64.length : Int).bmod (2 ^ 32)

/-- `crypto_parse_key`; what follows an invalid key ends in `FATAL`. -/
def crypto_parse_key (base64 : Text) (key : Bytes) (key_len : Nat) : C (Nat × Bytes) :=
  if outLen base64 ≤ 0 then
    .error .bounds
  else
    match base64_decode base64 (outLen base64) with
    | (out_len, out) =>
      if 0 < out_len ∧ (key_len : Int) ≤ out_len then do
        let key ← writeArray key 0 (out.take key_len)
        return (key_len, key)
      else
        .error .fatal

/-! ### The alphabet -/

theorem digit_b64 : ∀ x < 64, digit (b64.getD x '\x00') = some x ∧ b64.getD x '\x00' ≠ '\x00' ∧
    b64.getD x '\x00' ≠ '=' := by
  decide +kernel

/-- What the decoder has after the characters `dst`, which are digits. -/
inductive Decodes (out_size : Int) : Text → Decoder → Prop
  | nil : Decodes out_size [] ⟨0, 0, []⟩
  | snoc {dst : Text} {d : Decoder} {x : Nat} (h : Decodes out_size dst d) (hx : x < 64) :
    Decodes out_size (dst ++ [b64.getD x '\x00']) (d.round out_size x)

variable {out_size : Int} {size todo n : Nat} {dst : Text} {d : Decoder} {bs key : Bytes}

theorem Decodes.loop (h : Decodes out_size dst d) (s : Text) :
    decodeLoop out_size ⟨0, 0, []⟩ (dst ++ s) = decodeLoop out_size d s := by
  induction h generalizing s with
  | nil => rfl
  | @snoc dst d x h hx ih =>
    obtain ⟨hdigit, hnul, heq⟩ := digit_b64 x hx
    rw [List.append_assoc, ih, List.singleton_append, decodeLoop, if_neg (not_or.2 ⟨hnul, heq⟩), hdigit]

theorem Decodes.length_dst_le (h : Decodes out_size dst d) : d.dst.length ≤ dst.length := by
  induction h with
  | nil => exact Nat.le_refl _
  | @snoc dst d x h hx ih =>
    rw [List.length_append, List.length_singleton]
    unfold Decoder.round
    split
    · rw [List.length_append, List.length_singleton]
      omega
    · exact Nat.le_succ_of_le ih

/-! ### Low bits -/

theorem bmod_emod {k : Nat} (hk : k ≤ 32) (v : Int) : v.bmod (2 ^ 32) % 2 ^ k = v % 2 ^ k := by
  have hdvd : (2 ^ k : Int) ∣ (2 ^ 32 : Nat) := by
    rw [Nat.cast_pow]
    exact pow_dvd_pow _ hk
  have hmod := congrArg (· % (2 ^ k : Int)) (Int.bmod_emod (x := v) (m := 2 ^ 32))
  simp only [Int.emod_emod_of_dvd _ hdvd] at hmod
  exact hmod

theorem round_i (out_size : Int) (d : Decoder) (x : Nat) : (d.round out_size x).i = d.i + 1 := by
  unfold Decoder.round
  split <;> rfl

theorem round_v (out_size : Int) (d : Decoder) (x : Nat) : (d.round out_size x).v % 2 ^ 12 =
    (d.v * 64 + x) % 2 ^ 12 := by
  have hv : (d.round out_size x).v = (d.v * 2 ^ 6 + x).bmod (2 ^ 32) := by
    unfold Decoder.round
    split <;> rfl
  rw [hv]
  exact bmod_emod (by decide) _

/-- The first digit of four writes nothing. -/
theorem round_dst_first (hi : d.i % 4 = 0) (x : Nat) : (d.round out_size x).dst = d.dst := by
  rw [Decoder.round, if_neg (fun h => h.1 hi)]

/-- The others write what their bits and those before them come to. -/
theorem round_dst {k x : Nat} {b : UInt8} (hi : d.i % 4 = k) (hk : k ≠ 0) (hroom : (d.dst.length : Int) < out_size)
    (hb : (d.v * 64 + x) % 2 ^ 12 / 2 ^ (6 - 2 * k) % 256 = b.toNat) :
    (d.round out_size x).dst = d.dst ++ [b] := by
  have hv : (d.v * 2 ^ 6 + x).bmod (2 ^ 32) % 2 ^ 12 = (d.v * 64 + x) % 2 ^ 12 := bmod_emod (by decide) _
  have hbyte : (d.v * 2 ^ 6 + x).bmod (2 ^ 32) / 2 ^ (6 - 2 * (d.i % 4)) % 256 = (b.toNat : Int) := by
    rw [hi, ← hb]
    obtain rfl | rfl | rfl : k = 1 ∨ k = 2 ∨ k = 3 := by omega
    · simp only [Nat.reduceMul, Nat.reduceSub]
      omega
    · simp only [Nat.reduceMul, Nat.reduceSub]
      omega
    · simp only [Nat.reduceMul, Nat.reduceSub]
      omega
  rw [Decoder.round, if_pos ⟨hi ▸ hk, hroom⟩]
  simp only [hbyte, Int.toNat_natCast, UInt8.ofNat_toNat]

/-! ### One byte -/

/-- The characters `dst` have been printed for the bytes `done` and all but the last `s` bits of the byte `last`. -/
structure Pending (out_size : Int) (done : Bytes) (last : UInt8) (s : Nat) (dst : Text) (d : Decoder) : Prop where
  decodes : Decodes out_size dst d
  written : d.dst = done
  shift : s = 2 ∨ s = 4 ∨ s = 6
  phase : d.i % 4 = s / 2
  bits : d.v % 2 ^ (8 - s) = (last.toNat / 2 ^ s : Nat)

variable {done : Bytes} {last b : UInt8} {s I r fuel : Nat} {sh : Int}

theorem printLoop_succ (hroom : dst.length < size) : printLoop size I r (fuel + 1) sh dst =
    if 6 < sh - 6 ∨ (r = 0 ∧ 0 < sh - 6) then
      printLoop size I r fuel (sh - 6) (dst ++ [b64.getD (sextet I sh) '\x00'])
    else .ok (sh - 6, dst ++ [b64.getD (sextet I sh) '\x00']) := by
  rw [printLoop, putChar, if_pos hroom, C.ok_bind]
  rfl

/-- The digit of six bits, and the bits behind it. -/
theorem Decodes.first (h : Decodes out_size dst d) (hi : d.i % 4 = 0) (b : UInt8) :
    Pending out_size d.dst b 2 (dst ++ [b64.getD (b.toNat / 4) '\x00']) (d.round out_size (b.toNat / 4)) := by
  have hb := b.toNat_lt
  have hv := round_v out_size d (b.toNat / 4)
  refine ⟨h.snoc (by omega), round_dst_first hi _, .inl rfl, ?_, ?_⟩
  · rw [round_i]
    omega
  · simp only [Nat.reduceSub, Nat.reducePow]
    omega

theorem sextet_eq {x k : Nat} (hx : I * 2 ^ 6 % 2 ^ 32 / 2 ^ k % 64 = x) : sextet I (k : Int) = x := by
  rw [sextet, Int.toNat_natCast, hx]

/-- The bits that are still to be printed, with the first ones of the next byte. -/
theorem Pending.print (h : Pending out_size done last s dst d) (hroom : (done.length : Int) < out_size)
    (hI : I % 2 ^ 16 = last.toNat * 2 ^ 8 + b.toNat) :
    Decodes out_size (dst ++ [b64.getD (sextet I (s + 8 : Nat)) '\x00']) (d.round out_size (sextet I (s + 8 : Nat))) ∧
      (d.round out_size (sextet I (s + 8 : Nat))).dst = done ++ [last] ∧
      (d.round out_size (sextet I (s + 8 : Nat))).i % 4 = (s / 2 + 1) % 4 ∧
      (s ≠ 6 → (d.round out_size (sextet I (s + 8 : Nat))).v % 2 ^ (6 - s) = (b.toNat / 2 ^ (s + 2) : Nat)) := by
  have hb := b.toNat_lt
  have hlast := last.toNat_lt
  have hphase := h.phase
  have hbits := h.bits
  have hx : sextet I (s + 8 : Nat) = I / 2 ^ (s + 2) % 64 := by
    refine sextet_eq ?_
    obtain rfl | rfl | rfl := h.shift
    · simp only [Nat.reduceAdd]
      omega
    · simp only [Nat.reduceAdd]
      omega
    · simp only [Nat.reduceAdd]
      omega
  rw [hx]
  have hi : d.i % 4 = s / 2 := hphase
  have hs : s / 2 ≠ 0 := by
    rcases h.shift with rfl | rfl | rfl <;> decide
  refine ⟨h.decodes.snoc (Nat.mod_lt _ (by decide)), ?_, ?_, ?_⟩
  · rw [← h.written] at hroom ⊢
    refine round_dst hi hs hroom ?_
    obtain rfl | rfl | rfl := h.shift
    · simp only [Nat.reduceSub, Nat.reduceAdd, Nat.reduceDiv, Nat.reduceMul] at hbits ⊢
      omega
    · simp only [Nat.reduceSub, Nat.reduceAdd, Nat.reduceDiv, Nat.reduceMul] at hbits ⊢
      omega
    · simp only [Nat.reduceSub, Nat.reduceAdd, Nat.reduceDiv, Nat.reduceMul] at hbits ⊢
      omega
  · rw [round_i]
    omega
  · intro h6
    have hv := round_v out_size d (I / 2 ^ (s + 2) % 64)
    obtain rfl | rfl | rfl := h.shift
    · simp only [Nat.reduceSub, Nat.reduceAdd] at hv ⊢
      omega
    · simp only [Nat.reduceSub, Nat.reduceAdd] at hv ⊢
      omega
    · exact absurd rfl h6

/-- What the inner loop does where `s` bits are left after a digit: it goes on only for the last byte. -/
theorem printLoop_left (hroom : dst.length < size) (hs : s = 2 ∨ s = 4 ∨ s = 6) :
    printLoop size I r (fuel + 1) ((s + 6 : Nat) : Int) dst =
      if r = 0 then printLoop size I 0 fuel s (dst ++ [b64.getD (sextet I (s + 6 : Nat)) '\x00'])
      else .ok (s, dst ++ [b64.getD (sextet I (s + 6 : Nat)) '\x00']) := by
  have hsub : ((s + 6 : Nat) : Int) - 6 = s := by omega
  rw [printLoop_succ hroom, hsub]
  by_cases hr : r = 0
  · rw [if_pos (.inr ⟨hr, by omega⟩), if_pos hr, hr]
  · rw [if_neg (by omega), if_neg hr]

/-- The bits that are left and the next byte, up to the last bits of that. -/
theorem Pending.next (h : Pending out_size done last s dst d) (hroom : (done.length : Int) < out_size)
    (hsize : dst.length + 2 ≤ size) (hI : I % 2 ^ 16 = last.toNat * 2 ^ 8 + b.toNat) (r : Nat) :
    ∃ s' dst' d' fuel, Pending out_size (done ++ [last]) b s' dst' d' ∧ 6 * dst'.length + s' = 6 * dst.length + s + 8 ∧
      printLoop size I r (s + 8) ((s + 8 : Nat) : Int) dst =
        if r = 0 then printLoop size I 0 (fuel + 1) s' dst' else .ok ((s' : Int), dst') := by
  obtain ⟨hdecodes, hdst, hi, hv⟩ := h.print hroom hI
  have hb := b.toNat_lt
  obtain rfl | rfl | rfl := h.shift
  · refine ⟨4, _, _, 8, ⟨hdecodes, hdst, .inr (.inl rfl), hi, hv (by decide)⟩, ?_, printLoop_left (by omega) (by omega)⟩
    rw [List.length_append, List.length_singleton]
    omega
  · refine ⟨6, _, _, 10, ⟨hdecodes, hdst, .inr (.inr rfl), hi, hv (by decide)⟩, ?_,
      printLoop_left (by omega) (by omega)⟩
    rw [List.length_append, List.length_singleton]
    omega
  · -- the digit is complete, and another one is printed
    have hfirst := hdecodes.first hi b
    have hx : sextet I (8 : Nat) = b.toNat / 4 := sextet_eq (by omega)
    rw [hdst] at hfirst
    refine ⟨2, _, _, 11, hfirst, ?_, ?_⟩
    · rw [List.length_append, List.length_append, List.length_singleton, List.length_singleton]
      omega
    · rw [printLoop_succ (by omega), if_pos (.inl (by decide)), ← hx]
      refine printLoop_left (s := 2) ?_ (.inl rfl)
      rw [List.length_append, List.length_singleton]
      omega

/-- The first byte. -/
theorem printLoop_start (hsize : 1 ≤ size) (hI : I % 2 ^ 8 = b.toNat) (r : Nat) :
    ∃ s' dst' d' fuel, Pending out_size [] b s' dst' d' ∧ 6 * dst'.length + s' = 8 ∧
      printLoop size I r 8 ((8 : Nat) : Int) [] =
        if r = 0 then printLoop size I 0 (fuel + 1) s' dst' else .ok ((s' : Int), dst') := by
  have hx : sextet I (8 : Nat) = b.toNat / 4 := sextet_eq (by have := b.toNat_lt; omega)
  refine ⟨2, _, _, 6, (@Decodes.nil out_size).first rfl b, rfl, ?_⟩
  rw [← hx]
  exact printLoop_left (s := 2) hsize (.inl rfl)

/-- The last bits. -/
theorem Pending.flush (h : Pending out_size done last s dst d) (hroom : (done.length : Int) < out_size)
    (hsize : dst.length < size) (hI : I % 2 ^ 8 = last.toNat) :
    ∃ sh dst' d', printLoop size I 0 (fuel + 1) s dst = .ok (sh, dst') ∧ Decodes out_size dst' d' ∧
      d'.dst = done ++ [last] ∧ dst'.length = dst.length + 1 := by
  have hlast := last.toNat_lt
  have hbits := h.bits
  have hx : sextet I s = I * 2 ^ (6 - s) % 64 := by
    refine sextet_eq ?_
    obtain rfl | rfl | rfl := h.shift
    · simp only [Nat.reduceSub]
      omega
    · simp only [Nat.reduceSub]
      omega
    · simp only [Nat.reduceSub]
      omega
  have hs : s / 2 ≠ 0 := by
    rcases h.shift with rfl | rfl | rfl <;> decide
  have hstop : ¬ (6 < (s : Int) - 6 ∨ (0 = 0 ∧ 0 < (s : Int) - 6)) := by
    rcases h.shift with rfl | rfl | rfl <;> decide
  rw [printLoop_succ hsize, if_neg hstop, hx]
  refine ⟨_, _, _, rfl, h.decodes.snoc (Nat.mod_lt _ (by decide)), ?_, ?_⟩
  · rw [← h.written] at hroom ⊢
    refine round_dst h.phase hs hroom ?_
    obtain rfl | rfl | rfl := h.shift
    · simp only [Nat.reduceSub, Nat.reduceDiv, Nat.reduceMul] at hbits ⊢
      omega
    · simp only [Nat.reduceSub, Nat.reduceDiv, Nat.reduceMul] at hbits ⊢
      omega
    · simp only [Nat.reduceSub, Nat.reduceDiv, Nat.reduceMul] at hbits ⊢
      omega
  · rw [List.length_append, List.length_singleton]

/-! ### All bytes -/

/-- The bytes behind `last`, whose digits have been printed into `P`'s result. -/
theorem Pending.encode (h : Pending out_size done last s dst d) (rest : Bytes) (hI : I % 2 ^ 8 = last.toNat)
    (hlen : 6 * dst.length + s = 8 * (done.length + 1))
    (hroom : ((done.length + 1 + rest.length : Nat) : Int) ≤ out_size)
    (hsize : BASE64_SIZE (done.length + 1 + rest.length) ≤ size) {P : C (Int × Text)}
    (hP : P = if rest.length = 0 then printLoop size I 0 (fuel + 1) s dst else .ok ((s : Int), dst)) :
    ∃ dst' d', (P >>= fun printed => encodeLoop size rest I printed.1 printed.2) = .ok dst' ∧ Decodes out_size dst' d' ∧
      d'.dst = done ++ last :: rest ∧ 6 * dst'.length ≤ 8 * (done.length + 1 + rest.length) + 5 := by
  have hs := h.shift
  unfold BASE64_SIZE at hsize
  induction rest generalizing done last s dst d I fuel P with
  | nil =>
    rw [List.length_nil] at hsize hroom
    obtain ⟨sh, dst', d', hprint, hdecodes, hdst, hlen'⟩ : ∃ sh dst' d',
        printLoop size I 0 (fuel + 1) s dst = .ok (sh, dst') ∧ Decodes out_size dst' d' ∧
          d'.dst = done ++ [last] ∧ dst'.length = dst.length + 1 :=
      h.flush (by omega) (by omega) hI
    rw [if_pos List.length_nil, hprint] at hP
    refine ⟨dst', d', ?_, hdecodes, hdst, ?_⟩
    · rw [hP]
      rfl
    · rw [List.length_nil]
      omega
  | cons b rest ih =>
    rw [List.length_cons] at hsize hroom
    rw [if_neg (by simp)] at hP
    have hb := b.toNat_lt
    have hI' : (I * 2 ^ 8 + b.toNat) % 2 ^ 32 % 2 ^ 16 = last.toNat * 2 ^ 8 + b.toNat := by omega
    obtain ⟨s', dst', d', fuel', hpending, hlen', hprint⟩ :=
      h.next (by omega) (by omega : dst.length + 2 ≤ size) hI' rest.length
    have happend : (done ++ [last]).length = done.length + 1 := by simp
    obtain ⟨dst'', d'', hok, hdecodes, hdst, hlen''⟩ := ih hpending (I := (I * 2 ^ 8 + b.toNat) % 2 ^ 32) (by omega)
      (by rw [happend]; omega) (by rw [happend]; omega) (by rw [happend]; omega) hprint hpending.shift
    refine ⟨dst'', d'', ?_, hdecodes, ?_, ?_⟩
    · rw [hP, C.ok_bind, encodeLoop]
      exact hok
    · rw [hdst, List.append_assoc]
      rfl
    · rw [happend] at hlen''
      rw [List.length_cons]
      omega

theorem encodeLoop_spec (hroom : (bs.length : Int) ≤ out_size) (hsize : BASE64_SIZE bs.length ≤ size) :
    ∃ dst d, encodeLoop size bs 0 0 [] = .ok dst ∧ Decodes out_size dst d ∧ d.dst = bs ∧
      6 * dst.length ≤ 8 * bs.length + 5 := by
  cases bs with
  | nil => exact ⟨[], _, rfl, .nil, rfl, Nat.zero_le _⟩
  | cons b rest =>
    rw [List.length_cons] at hroom hsize
    have hb := b.toNat_lt
    obtain ⟨s, dst, d, fuel, hpending, hlen, hprint⟩ := @printLoop_start out_size size b
      ((0 * 2 ^ 8 + b.toNat) % 2 ^ 32) (by unfold BASE64_SIZE at hsize; omega) (by omega) rest.length
    have hone : ([] : Bytes).length + 1 + rest.length = rest.length + 1 := Nat.add_comm _ _
    obtain ⟨dst', d', hok, hdecodes, hdst, hlen'⟩ := hpending.encode rest (by omega) hlen (by rw [hone]; exact hroom)
      (by rw [hone]; exact hsize) hprint
    rw [hone] at hlen'
    refine ⟨dst', d', ?_, hdecodes, hdst, hlen'⟩
    rw [encodeLoop]
    exact hok

theorem padLoop_spec (hroom : dst.length + todo ≤ size) :
    padLoop size todo dst = .ok (dst ++ List.replicate todo '=') := by
  induction todo generalizing dst with
  | zero => simp [padLoop]
  | succ todo ih =>
    rw [padLoop, putChar, if_pos (by omega), C.ok_bind, ih (by rw [List.length_append, List.length_singleton]; omega),
      List.append_assoc, List.replicate_succ]
    rfl

/-- What is printed is decoded to the bytes, in an array that they fit in. -/
theorem base64_encode_spec (hlen : bs.length < UINT_MAX / 4) (hsize : BASE64_SIZE bs.length ≤ size) :
    ∃ text, base64_encode size bs = .ok (some text) ∧ text.length + 1 ≤ BASE64_SIZE bs.length ∧
      bs.length ≤ text.length ∧
      ∀ out_size : Int, bs.length ≤ out_size → base64_decode text out_size = ((bs.length : Int), bs) := by
  obtain ⟨dst, d, hok, hdecodes, hd, hdst⟩ := encodeLoop_spec (le_refl (bs.length : Int)) hsize
  have hpad : dst.length + (4 - dst.length % 4) % 4 + 1 ≤ BASE64_SIZE bs.length := by
    unfold BASE64_SIZE
    omega
  refine ⟨dst ++ List.replicate ((4 - dst.length % 4) % 4) '=', ?_, ?_, ?_, fun out_size hout => ?_⟩
  · rw [base64_encode, if_neg (by omega), hok, C.ok_bind, padLoop_spec (by omega), C.ok_bind, putChar,
      if_pos (by rw [List.length_append, List.length_replicate]; omega)]
    rfl
  · rw [List.length_append, List.length_replicate]
    exact hpad
  · have hle := hdecodes.length_dst_le
    rw [hd] at hle
    rw [List.length_append]
    omega
  · obtain ⟨dst', d', hok', hdecodes', hd', -⟩ := encodeLoop_spec hout hsize
    cases hok.symm.trans hok'
    rw [base64_decode, hdecodes'.loop]
    cases (4 - dst.length % 4) % 4 with
    | zero =>
      rw [List.replicate_zero, decodeLoop, hd']
    | succ n => rw [List.replicate_succ, decodeLoop, if_pos (.inr rfl), hd']

/-- For every byte string that the encoder takes, in every array that has the room, and every array for the key. -/
theorem base64_round_trip (bs : Bytes) (hlen : bs.length < UINT_MAX / 4) (size : Nat)
    (hsize : BASE64_SIZE bs.length ≤ size) :
    ∃ text, base64_encode size bs = .ok (some text) ∧ text.length + 1 ≤ BASE64_SIZE bs.length ∧
      (∀ out_size : Int, bs.length ≤ out_size → base64_decode text out_size = ((bs.length : Int), bs)) ∧
      ∀ key : Bytes, 0 < bs.length → bs.length ≤ key.length →
        crypto_parse_key text key bs.length = .ok (bs.length, bs ++ key.drop bs.length) := by
  obtain ⟨text, hok, htext, hle, hdecode⟩ := base64_encode_spec hlen hsize
  refine ⟨text, hok, htext, hdecode, fun key hpos hkey => ?_⟩
  -- the size of the array for what is decoded is an `int`
  have hint : outLen text = BASE64_SIZE text.length := by
    unfold BASE64_SIZE at htext
    unfold outLen BASE64_SIZE
    unfold UINT_MAX at hlen
    rw [Int.bmod_eq_of_le]
    · omega
    · omega
  have hfits : bs.length ≤ BASE64_SIZE text.length := by
    unfold BASE64_SIZE
    omega
  have hsome : ¬ outLen text ≤ 0 := by
    rw [hint]
    unfold BASE64_SIZE
    omega
  have hout : (bs.length : Int) ≤ outLen text := by
    rw [hint]
    omega
  have hall : 0 < (bs.length : Int) ∧ (bs.length : Int) ≤ bs.length := ⟨by omega, le_rfl⟩
  have hwrite : writeArray key 0 bs = .ok (bs ++ key.drop bs.length) := by
    rw [Hkdf.writeArray_ok (by omega), List.take_zero, List.nil_append, Nat.zero_add]
  unfold crypto_parse_key
  rw [if_neg hsome, hdecode _ hout]
  simp only
  rw [if_pos hall, List.take_length, hwrite, C.ok_bind]
  rfl

theorem base64_round_trip_two : base64_encode 5 [0xfb, 0xff] = .ok (some "-_8=".toList) ∧
    base64_decode "-_8=".toList 2 = (2, [0xfb, 0xff]) ∧ ∃ text, base64_encode 5 [0xfb, 0xff] = .ok (some text) ∧
      base64_decode text 2 = (2, [0xfb, 0xff]) := by
  refine ⟨by decide +kernel, by decide +kernel, ?_⟩
  obtain ⟨text, hok, -, hdecode, -⟩ := base64_round_trip [0xfb, 0xff] (by decide) 5 (by decide)
  exact ⟨text, hok, hdecode 2 (by decide)⟩

/-- The encoder refuses a longer one. -/
theorem base64_encode_long : base64_encode (BASE64_SIZE (UINT_MAX / 4)) (List.replicate (UINT_MAX / 4) 0) =
    .ok none := by
  rw [base64_encode, if_pos]
  rw [List.length_replicate]
  exact .inl (Nat.le_refl _)

end OutlineServer.Base64
