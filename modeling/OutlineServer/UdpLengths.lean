import OutlineServer.AddrHeader
import OutlineServer.CryptoBounds
import OutlineServer.UdpRuns

/-!
# The lengths of a received datagram

`server_recv_cb` of `udprelay.c` takes the length of a datagram apart in two builds. `recvLengths` follows either of
them and lists the differences that it computes, as `size_t` values that wrap around. ss-local takes the three bytes of
the SOCKS prefix off before it has looked at the length.
-/

namespace OutlineServer.Udp

inductive UdpBuild
  | MODULE_LOCAL
  | MODULE_REMOTE
deriving DecidableEq

/-- A difference `whole - offset`. -/
structure Length where
  whole : Nat
  offset : Nat
deriving DecidableEq

/-- As `size_t` has it. -/
@[irreducible] def Length.value (l : Length) : Nat := (l.whole + (2 ^ 64 - l.offset)) % 2 ^ 64

/-- It is not negative, and at most the number of bytes received. -/
def Length.Proper (received : Nat) (l : Length) : Prop := l.offset ≤ l.whole ∧ l.whole - l.offset ≤ received

/-- `crypto_t` for a method. -/
def methodAll (L : CryptoLib) (method : AeadMethod ⊕ StreamMethod) (key : Bytes) : CryptoAll CryptoStatics where
  encrypt_all salt g plaintext capacity := encrypt_all L method key capacity g salt plaintext
  decrypt_all g ciphertext capacity := do
    let (ret, buf, g') ← (decryptor L method key capacity).decrypt_all g.toCryptoState ciphertext
    return (ret, buf, { g with toCryptoState := g' })

section
variable {G : Type} (K : CryptoAll G) (N : NetLib)

/-- `parse_udprelay_header(buf->data + offset, buf->len - offset, …)`. -/
def parseFrom (buf : Buffer) (offset : Nat) : C (Length × Option UdpHeader) := do
  let rest : Length := ⟨buf.len, offset⟩
  let header ← parse_udprelay_header N ⟨0, rest.value, buf.capacity - offset, fun i => buf.data (offset + i)⟩
  return (rest, header)

/-- ss-local takes the prefix off before it encrypts what is left. -/
def encryptRest (salt : Bytes) (g : G) (buf : Buffer) (offset : Nat) : C Length := do
  let rest : Length := ⟨buf.len, offset⟩
  let moved ← buf.get offset rest.value
  let buf ← buf.put 0 moved
  let _ ← K.encrypt_all salt g { buf with len := rest.value } buf_size
  return rest

/-- The differences that the callback computes for the datagram `bs`. `ctx` is whether ss-local has a context to send it
from. -/
def recvLengths (build : UdpBuild) (junk : Block) (salt : Bytes) (ctx : Bool) (g : G) (bs : Bytes) :
    C (List Length) := do
  let buf ← (balloc junk buf_size).put 0 bs
  let buf := { buf with len := bs.length }
  match build with
  | .MODULE_LOCAL =>
    let frag ← buf.get 2 1
    let (rest, header) ← parseFrom N buf 3
    if header = none ∨ frag ≠ [0] ∨ ctx = false then
      return [rest]
    let encrypted ← encryptRest K salt g buf 3
    return [rest, encrypted]
  | .MODULE_REMOTE =>
    let (err, buf, _) ← K.decrypt_all g buf buf_size
    if err ≠ .CRYPTO_OK then
      return []
    let (rest, header) ← parseFrom N buf 0
    match header with
    | none => return [rest]
    | some h => return [rest, ⟨buf.len, h.len⟩]

end

section
variable {L : CryptoLib} {method : AeadMethod ⊕ StreamMethod} {key salt : Bytes} {buf : Buffer} {capacity : Nat}
  {N : NetLib} {l : Length}

theorem Length.value_eq (h : l.offset ≤ l.whole) (hle : l.whole < 2 ^ 64) : l.value = l.whole - l.offset := by
  rw [Length.value]
  omega

/-! ### The header -/

/-- A header has at most 259 bytes, whatever length is claimed for the buffer. -/
theorem parse_udprelay_header_total (N : NetLib) (hcap : 259 ≤ buf.capacity) :
    ∃ h, parse_udprelay_header N buf = .ok h := by
  have hport : ∀ (offset : Nat) (host : Bytes) (dst : Bytes → Option SockAddr), offset + 2 ≤ 259 →
      ∃ h, udpHeaderPort buf offset host dst = .ok h := by
    intro offset host dst hle
    rw [udpHeaderPort, Buffer.get_ok (by omega)]
    exact ⟨_, rfl⟩
  have hname := (buf.data 1).toNat_lt
  have hsecond : buf.get 1 1 = .ok [buf.data 1] := Buffer.get_ok (by omega)
  rw [parse_udprelay_header, Buffer.get_ok (by omega), C.ok_bind]
  simp only
  split
  · split
    · rw [Buffer.get_ok (by omega), C.ok_bind]
      exact hport _ _ _ (by omega)
    · exact ⟨_, rfl⟩
  split
  · rw [hsecond, C.ok_bind, List.headD_cons]
    have hroom : 0 < MAX_HOSTNAME_LEN - (buf.data 1).toNat := by
      rw [MAX_HOSTNAME_LEN]
      omega
    split
    · rw [Buffer.get_ok (by omega), C.ok_bind, cstring_padded (.inr hroom), C.ok_bind]
      exact hport _ _ _ (by omega)
    · exact ⟨_, rfl⟩
  split
  · split
    · rw [Buffer.get_ok (by omega), C.ok_bind]
      exact hport _ _ _ (by omega)
    · exact ⟨_, rfl⟩
  · exact ⟨_, rfl⟩

/-- A header lies within what is left of the buffer. -/
theorem parseFrom_within (N : NetLib) {offset : Nat} (hle : offset ≤ buf.len) (hlen : buf.len ≤ buf.capacity)
    (hcap : 2 ≤ buf.capacity - offset) (hsize : buf.len < 2 ^ 64) :
    C.Within (parseFrom N buf offset) fun r => r.1 = ⟨buf.len, offset⟩ ∧ ∀ h ∈ r.2, h.len ≤ buf.len - offset := by
  have hvalue := Length.value_eq (l := ⟨buf.len, offset⟩) hle hsize
  rw [parseFrom, hvalue]
  simp only
  rw [parse_udprelay_header_eq N (by simp only; omega) hcap, C.ok_bind]
  refine ⟨rfl, ?_⟩
  intro h hh
  obtain ⟨a, ha, rfl⟩ := Option.map_eq_some_iff.1 hh
  have hle' := length_le_of_addrHeader ha
  rw [Buffer.length_bytes] at hle'
  have hudp : (udpDestination N a).len = a.len := by
    rw [udpDestination]
    split
    · rfl
    · rfl
  rw [hudp]
  exact hle'

/-! ### The cipher -/

theorem encryptRest_within (hL : L.Lengths) (hsalt : salt.length = salt_size method) {offset : Nat}
    (hle : offset ≤ buf.len) (hb : buf.Hands buf_size) (hsize : buf.len < 2 ^ 64) (g : CryptoStatics) :
    C.Within (encryptRest (methodAll L method key) salt g buf offset) fun l => l = ⟨buf.len, offset⟩ := by
  have hfits := hb.fits
  have hvalue := Length.value_eq (l := ⟨buf.len, offset⟩) hle hsize
  rw [encryptRest, hvalue]
  simp only
  rw [Buffer.get_ok (by omega), C.ok_bind, Buffer.put_ok (by rw [Block.length_read]; omega), C.ok_bind]
  refine (encrypt_all_within hL hsalt ?_ g).bind ?_
  · exact ⟨hb.room, by simp only; omega⟩
  · intro r _
    exact rfl

theorem methodAll_decrypt_within (hL : L.Lengths) (hb : buf.Hands capacity) (g : CryptoStatics) :
    C.Within ((methodAll L method key).decrypt_all g buf capacity) fun r => r.2.1.Hands capacity ∧
      r.2.1.len ≤ buf.len := by
  refine (decrypt_all_within hL hb g.toCryptoState).bind ?_
  rintro ⟨ret, buf', g'⟩ h
  exact h

/-! ### Both builds -/

/-- Without the three bytes of the prefix, the first difference wraps around. -/
theorem local_improper (N : NetLib) {bs : Bytes} (hlt : bs.length < 3) (K : CryptoAll CryptoStatics) (junk : Block)
    (ctx : Bool) (g : CryptoStatics) :
    ¬ C.Within (recvLengths K N .MODULE_LOCAL junk salt ctx g bs) fun ls => ∀ l ∈ ls, l.Proper bs.length := by
  have hsize : buf_size = 2794 := rfl
  have himproper : ¬ (⟨bs.length, 3⟩ : Length).Proper bs.length := fun h => Nat.not_lt.2 h.1 hlt
  obtain ⟨n, hvalue, hwrapped⟩ : ∃ n, (⟨bs.length, 3⟩ : Length).value = n ∧ buf_size < n := by
    refine ⟨_, rfl, ?_⟩
    simp only [Length.value]
    omega
  -- the move of almost 2^64 bytes
  have hmove : encryptRest K salt g ⟨0, bs.length, buf_size, junk.write 0 bs⟩ 3 = .error .bounds := by
    rw [encryptRest]
    simp only [hvalue]
    rw [Buffer.get, if_neg (by simp only; omega)]
    rfl
  rw [recvLengths, Buffer.put_ok (by simp only [balloc]; omega), C.ok_bind]
  simp only [balloc]
  rw [Buffer.get_ok (by simp only; omega), C.ok_bind, parseFrom]
  simp only [hvalue]
  obtain ⟨header, hheader⟩ := @parse_udprelay_header_total ⟨0, n, buf_size - 3, fun i => (junk.write 0 bs) (3 + i)⟩ N
    (by simp only; omega)
  rw [hheader, C.ok_bind, pure_bind]
  split
  · intro h
    exact himproper (h _ List.mem_cons_self)
  · rw [hmove]
    intro h
    cases h

theorem local_proper (hL : L.Lengths) (hsalt : salt.length = salt_size method) {bs : Bytes} (hle : 3 ≤ bs.length)
    (hbs : bs.length ≤ buf_size) (N : NetLib) (junk : Block) (ctx : Bool) (g : CryptoStatics) :
    C.Within (recvLengths (methodAll L method key) N .MODULE_LOCAL junk salt ctx g bs)
      fun ls => ∀ l ∈ ls, l.Proper bs.length := by
  have hsize : buf_size = 2794 := rfl
  have hproper : (⟨bs.length, 3⟩ : Length).Proper bs.length := ⟨hle, Nat.sub_le _ _⟩
  have hencrypt : C.Within (encryptRest (methodAll L method key) salt g ⟨0, bs.length, buf_size, junk.write 0 bs⟩ 3)
      fun l => l = ⟨bs.length, 3⟩ := by
    refine encryptRest_within hL hsalt ?_ ?_ ?_ g
    · exact hle
    · exact ⟨Nat.le_refl _, hbs⟩
    · simp only
      omega
  rw [recvLengths, Buffer.put_ok (by simp only [balloc]; omega), C.ok_bind]
  simp only [balloc]
  rw [Buffer.get_ok (by simp only; omega), C.ok_bind]
  refine (parseFrom_within N hle (by simp only; omega) (by simp only; omega) (by simp only; omega)).bind ?_
  rintro ⟨_, header⟩ ⟨rfl, -⟩
  simp only
  split
  · exact List.forall_mem_singleton.2 hproper
  · refine hencrypt.bind ?_
    rintro _ rfl
    exact List.forall_mem_cons.2 ⟨hproper, List.forall_mem_singleton.2 hproper⟩

theorem remote_proper (hL : L.Lengths) {bs : Bytes} (hbs : bs.length ≤ buf_size) (N : NetLib) (junk : Block)
    (salt : Bytes) (ctx : Bool) (g : CryptoStatics) :
    C.Within (recvLengths (methodAll L method key) N .MODULE_REMOTE junk salt ctx g bs)
      fun ls => ∀ l ∈ ls, l.Proper bs.length := by
  have hsize : buf_size = 2794 := rfl
  rw [recvLengths, Buffer.put_ok (by simp only [balloc]; omega), C.ok_bind]
  simp only [balloc]
  refine (methodAll_decrypt_within hL ⟨Nat.le_refl _, hbs⟩ g).bind ?_
  rintro ⟨ret, buf, g'⟩ ⟨⟨hroom, hfits⟩, hlen⟩
  simp only at hroom hfits hlen
  simp only
  split
  · exact List.forall_mem_nil _
  · refine (parseFrom_within N (Nat.zero_le _) hfits (by omega) (by omega)).bind ?_
    rintro ⟨_, header⟩ ⟨rfl, hheader⟩
    have hall : (⟨buf.len, 0⟩ : Length).Proper bs.length := ⟨Nat.zero_le _, hlen⟩
    cases header with
    | none => exact List.forall_mem_singleton.2 hall
    | some h =>
      refine List.forall_mem_cons.2 ⟨hall, List.forall_mem_singleton.2 ⟨hheader h rfl, ?_⟩⟩
      simp only
      omega

/-- The lengths are proper in both builds, if and only if ss-local receives the whole prefix. -/
theorem recvLengths_proper_iff (hL : L.Lengths) (hsalt : salt.length = salt_size method) {bs : Bytes}
    (hbs : bs.length ≤ buf_size) (N : NetLib) (build : UdpBuild) (junk : Block) (ctx : Bool) (g : CryptoStatics) :
    C.Within (recvLengths (methodAll L method key) N build junk salt ctx g bs)
      (fun ls => ∀ l ∈ ls, l.Proper bs.length) ↔ (build = .MODULE_LOCAL → 3 ≤ bs.length) := by
  cases build with
  | MODULE_LOCAL =>
    constructor
    · intro h _
      by_contra hlt
      exact local_improper N (Nat.not_le.1 hlt) _ junk ctx g h
    · intro hle
      exact local_proper hL hsalt (hle rfl) hbs N junk ctx g
  | MODULE_REMOTE => exact iff_of_true (remote_proper hL hbs N junk salt ctx g) nofun

theorem recvLengths_proper_iff_three :
    C.Within (recvLengths (methodAll xorLib (.inl .AES128GCM) (List.replicate 16 1)) openNet .MODULE_LOCAL (fun _ => 0)
        (List.replicate 16 2) true .start [0, 0, 0]) (fun ls => ∀ l ∈ ls, l.Proper 3) ↔
      (UdpBuild.MODULE_LOCAL = .MODULE_LOCAL → 3 ≤ [0, 0, 0].length) :=
  recvLengths_proper_iff xorLib_lengths (List.length_replicate (n := 16)) (by decide) openNet .MODULE_LOCAL
    (fun _ => 0) true .start

/-- What ss-local takes an empty datagram for. -/
theorem empty_datagram_wraps :
    recvLengths (methodAll xorLib (.inl .AES128GCM) (List.replicate 16 1)) openNet .MODULE_LOCAL (fun _ => 0)
        (List.replicate 16 2) true .start [] = .ok [⟨0, 3⟩] ∧
      (⟨0, 3⟩ : Length).value = 2 ^ 64 - 3 ∧
      ¬ C.Within (recvLengths (methodAll xorLib (.inl .AES128GCM) (List.replicate 16 1)) openNet .MODULE_LOCAL
        (fun _ => 0) (List.replicate 16 2) true .start []) fun ls => ∀ l ∈ ls, l.Proper ([] : Bytes).length := by
  have hrun : recvLengths (methodAll xorLib (.inl .AES128GCM) (List.replicate 16 1)) openNet .MODULE_LOCAL (fun _ => 0)
      (List.replicate 16 2) true .start [] = .ok [⟨0, 3⟩] := rfl
  refine ⟨hrun, by simp [Length.value], ?_⟩
  rw [hrun]
  intro h
  exact absurd (h ⟨0, 3⟩ List.mem_cons_self).1 (by decide)

end

end OutlineServer.Udp
