import OutlineServer.Acl
import OutlineServer.Udp

/-!
# The address header

`IsHeader` is the format that both relays take an address and a port in, in front of the payload: the low half of the
first byte is the type of the address. `addrHeader` finds such a header at the start of some bytes, and both parsers are
that function and what they make of an address or a name: `serverRequest_eq`, `parse_udprelay_header_eq`.
-/

namespace OutlineServer

inductive Destination
  | ip (ip : CorkIp)
  | name (name : Bytes)
deriving DecidableEq

structure AddrHeader where
  dst : Destination
  port : Bytes
  len : Nat
deriving DecidableEq

/-- ATYP, DST.ADDR and DST.PORT. -/
inductive IsHeader : Bytes → Destination → Bytes → Prop
  | ipv4 {atyp : UInt8} {addr port : Bytes} (ht : atyp.toNat % 16 = 1) (ha : addr.length = 4) (hp : port.length = 2) :
      IsHeader (atyp :: addr ++ port) (.ip (.v4 addr)) port
  | name {atyp n : UInt8} {name port : Bytes} (ht : atyp.toNat % 16 = 3) (hn : name.length = n.toNat)
      (hp : port.length = 2) : IsHeader (atyp :: n :: name ++ port) (.name name) port
  | ipv6 {atyp : UInt8} {addr port : Bytes} (ht : atyp.toNat % 16 = 4) (ha : addr.length = 16) (hp : port.length = 2) :
      IsHeader (atyp :: addr ++ port) (.ip (.v6 addr)) port

/-- A header whose port is at `offset`. -/
def AddrHeader.upTo (bs : Bytes) (dst : Destination) (offset : Nat) : Option AddrHeader :=
  if offset + 2 ≤ bs.length then some ⟨dst, (bs.drop offset).take 2, offset + 2⟩ else none

def addrHeader (bs : Bytes) : Option AddrHeader :=
  let atyp := (bs.getD 0 0).toNat % 16
  let name_len := (bs.getD 1 0).toNat
  if atyp = 1 then AddrHeader.upTo bs (.ip (.v4 ((bs.drop 1).take 4))) 5
  else if atyp = 3 then AddrHeader.upTo bs (.name ((bs.drop 2).take name_len)) (name_len + 2)
  else if atyp = 4 then AddrHeader.upTo bs (.ip (.v6 ((bs.drop 1).take 16))) 17
  else none

/-! ### The header at the start of some bytes -/

variable {bs header payload port : Bytes} {dst : Destination} {h : AddrHeader}

theorem AddrHeader.upTo_eq_some {offset : Nat} : AddrHeader.upTo bs dst offset = some h ↔
    offset + 2 ≤ bs.length ∧ h = ⟨dst, (bs.drop offset).take 2, offset + 2⟩ := by
  rw [upTo]
  split
  · simp [*, eq_comm]
  · simp [*]

theorem addrHeader_of_isHeader (hh : IsHeader header dst port) (payload : Bytes) :
    addrHeader (header ++ payload) = some ⟨dst, port, header.length⟩ := by
  cases hh with
  | @ipv4 atyp addr port ht ha hp =>
    simp [addrHeader, ht, AddrHeader.upTo_eq_some, ha, hp]
    omega
  | @name atyp n name port ht hn hp =>
    simp [addrHeader, ht, AddrHeader.upTo_eq_some, hn, hp]
  | @ipv6 atyp addr port ht ha hp =>
    simp [addrHeader, ht, AddrHeader.upTo_eq_some, ha, hp]
    omega

theorem take_add_two (bs : Bytes) (offset : Nat) :
    bs.take (offset + 2) = bs.take offset ++ (bs.drop offset).take 2 := List.take_add ..

/-- A header is found if there is one. -/
theorem addrHeader_eq_some : addrHeader bs = some h ↔
    ∃ header payload, bs = header ++ payload ∧ IsHeader header h.dst h.port ∧ h.len = header.length := by
  constructor
  · intro hf
    have hport : ∀ {offset : Nat}, offset + 2 ≤ bs.length → ((bs.drop offset).take 2).length = 2 := by
      intro offset hle
      rw [List.length_take, List.length_drop]
      omega
    refine ⟨bs.take h.len, bs.drop h.len, (List.take_append_drop _ _).symm, ?_⟩
    rw [addrHeader] at hf
    split at hf
    · obtain ⟨hle, rfl⟩ := AddrHeader.upTo_eq_some.1 hf
      have hpre : bs.take 5 = bs.getD 0 0 :: (bs.drop 1).take 4 := by
        cases bs with
        | nil => simp at hle
        | cons atyp rest => rfl
      rw [take_add_two, hpre]
      refine ⟨.ipv4 ‹_› ?_ (hport hle), ?_⟩
      · rw [List.length_take, List.length_drop]
        omega
      · simp
        omega
    split at hf
    · obtain ⟨hle, rfl⟩ := AddrHeader.upTo_eq_some.1 hf
      have hpre : bs.take ((bs.getD 1 0).toNat + 2) =
          bs.getD 0 0 :: bs.getD 1 0 :: (bs.drop 2).take (bs.getD 1 0).toNat := by
        match bs with
        | [] | [_] => simp at hle
        | atyp :: n :: rest => rfl
      have hname : ((bs.drop 2).take (bs.getD 1 0).toNat).length = (bs.getD 1 0).toNat := by
        rw [List.length_take, List.length_drop]
        omega
      rw [take_add_two, hpre]
      refine ⟨.name ‹_› hname (hport hle), ?_⟩
      simp only [List.length_append, List.length_cons, hname, hport hle]
    split at hf
    · obtain ⟨hle, rfl⟩ := AddrHeader.upTo_eq_some.1 hf
      have hpre : bs.take 17 = bs.getD 0 0 :: (bs.drop 1).take 16 := by
        cases bs with
        | nil => simp at hle
        | cons atyp rest => rfl
      rw [take_add_two, hpre]
      refine ⟨.ipv6 ‹_› ?_ (hport hle), ?_⟩
      · rw [List.length_take, List.length_drop]
        omega
      · simp
        omega
    · cases hf
  · rintro ⟨header, payload, rfl, hh, hlen⟩
    obtain ⟨dst, port, len⟩ := h
    subst hlen
    exact addrHeader_of_isHeader hh payload

theorem length_le_of_addrHeader (h' : addrHeader bs = some h) : h.len ≤ bs.length := by
  obtain ⟨header, payload, rfl, -, hlen⟩ := addrHeader_eq_some.1 h'
  rw [hlen, List.length_append]
  exact Nat.le_add_right _ _

/-! ### Both parsers -/

section
variable {buf : Buffer} {N : NetLib}

theorem Buffer.get_bytes {offset n : Nat} (hcap : buf.len ≤ buf.capacity) (h : offset + n ≤ buf.len) :
    buf.get offset n = .ok ((buf.bytes.drop offset).take n) := by
  rw [Buffer.get_ok (by omega), Buffer.bytes, Block.drop_read _ _ _ _ (by omega), Block.take_read _ _ _ _ (by omega),
    Nat.zero_add]

theorem Buffer.getD_bytes {i : Nat} (h : i < buf.len) : buf.bytes.getD i 0 = buf.data i := by
  simp [Buffer.bytes, Block.read, h]

/-- A C string ends at its first NUL, if there is one in its array. -/
theorem cstring_eq (s : Bytes) : cstring s = if 0 ∈ s then .ok (s.takeWhile (· ≠ 0)) else .error .bounds := by
  rw [cstring]
  split
  · rename_i hnone
    rw [List.findIdx?_eq_none_iff] at hnone
    rw [if_neg fun h0 => by simpa using hnone 0 h0]
  · rename_i k hk
    obtain ⟨hlt, h0, hbefore⟩ := List.findIdx?_eq_some_iff_getElem.1 hk
    have hmem : (0 : UInt8) ∈ s := by
      rw [← of_decide_eq_true h0]
      exact List.getElem_mem hlt
    rw [if_pos hmem]
    congr 1
    have hsplit : s = s.take k ++ s[k] :: s.drop (k + 1) := by
      rw [← List.drop_eq_getElem_cons hlt, List.take_append_drop]
    have hpre : ∀ b ∈ s.take k, decide (b ≠ 0) = true := by
      intro b hb
      obtain ⟨i, hi, rfl⟩ := List.mem_take_iff_getElem.1 hb
      simpa using hbefore i (by omega)
    conv_rhs => rw [hsplit]
    rw [List.takeWhile_append_of_pos hpre, List.takeWhile_cons_of_neg (by simpa using h0), List.append_nil]

theorem takeWhile_append_zeros (name : Bytes) (k : Nat) :
    (name ++ List.replicate k 0).takeWhile (· ≠ 0) = name.takeWhile (· ≠ 0) := by
  rw [List.takeWhile_append]
  split
  · rename_i hlen
    rw [(List.takeWhile_prefix _).eq_of_length hlen, List.takeWhile_replicate]
    simp
  · rfl

/-- A name is a C string if it has a NUL in it or behind it. -/
theorem cstring_padded {name : Bytes} {k : Nat} (h : 0 ∈ name ∨ 0 < k) :
    cstring (name ++ List.replicate k 0) = .ok (name.takeWhile (· ≠ 0)) := by
  have hmem : (0 : UInt8) ∈ name ++ List.replicate k 0 := by
    rcases h with h | h
    · exact List.mem_append_left _ h
    · exact List.mem_append_right _ (List.mem_replicate.2 ⟨by omega, rfl⟩)
  rw [cstring_eq, if_pos hmem, takeWhile_append_zeros]

/-- What `server_recv_cb` makes of a header. -/
def serverDestination (N : NetLib) (h : AddrHeader) : C Request :=
  match h.dst with
  | .ip ip => return .connect ⟨ip, h.port⟩ h.len
  | .name name => do
    let host := name ++ List.replicate (255 - name.length) 0
    if ← N.blocked host then
      return .blocked
    let s ← cstring host
    match N.cork_ip_init s with
    | some ip => return .connect ⟨N.literal ip.family s, h.port⟩ h.len
    | none =>
      if ← validate_hostname host name.length then
        return .query host h.port h.len
      else
        return .stop

theorem requestPort_eq (hcap : buf.len ≤ buf.capacity) {offset : Nat} (hle : offset + 2 ≤ buf.len)
    (request : Bytes → Nat → Request) :
    requestPort buf offset request = .ok (request ((buf.bytes.drop offset).take 2) (offset + 2)) := by
  rw [requestPort, Buffer.get_bytes hcap hle, C.ok_bind, if_neg (by omega)]
  rfl

theorem serverRequest_eq (N : NetLib) (hcap : buf.len ≤ buf.capacity) :
    serverRequest N buf =
      match addrHeader buf.bytes with
      | some h => serverDestination N h
      | none => .ok .stop := by
  by_cases h0 : buf.len = 0
  · have hnone : addrHeader buf.bytes = none := by
      have hnil : buf.bytes = [] := List.length_eq_zero_iff.1 ((Buffer.length_bytes buf).trans h0)
      rw [hnil]
      rfl
    rw [hnone]
    simp [serverRequest, requestName, h0]
    rfl
  have hatyp : buf.bytes.getD 0 0 = buf.data 0 := Buffer.getD_bytes (by omega)
  simp only [serverRequest, addrHeader, hatyp, AddrHeader.upTo, Buffer.length_bytes]
  split
  · split
    · rw [Buffer.get_bytes hcap (by omega), C.ok_bind, requestPort_eq hcap (by omega)]
      rfl
    · rfl
  split
  · simp only [requestName]
    by_cases h1 : buf.len = 1
    · rw [if_pos (by omega), if_neg (by omega)]
      rfl
    rw [Buffer.getD_bytes (by omega)]
    split
    · rw [if_neg (by omega)]
      rfl
    · rw [if_pos (by omega), Buffer.get_bytes hcap (by omega), C.ok_bind]
      have hname : ((buf.bytes.drop 2).take (buf.data 1).toNat).length = (buf.data 1).toNat := by
        rw [List.length_take, List.length_drop, Buffer.length_bytes]
        omega
      simp only [serverDestination, hname, requestPort_eq hcap (show (buf.data 1).toNat + 2 + 2 ≤ buf.len by omega)]
      rfl
  split
  · split
    · rw [Buffer.get_bytes hcap (by omega), C.ok_bind, requestPort_eq hcap (by omega)]
      rfl
    · rfl
  · rfl

namespace Udp

/-- What `parse_udprelay_header` makes of a header. -/
def udpDestination (N : NetLib) (h : AddrHeader) : UdpHeader :=
  match h.dst with
  | .ip ip => ⟨h.len, N.inet_ntop ip, h.port, some ⟨ip, h.port⟩⟩
  | .name name =>
    ⟨h.len, name ++ List.replicate (MAX_HOSTNAME_LEN - name.length) 0, h.port,
      (hostLiteral N (name.takeWhile (· ≠ 0))).map fun ip => ⟨ip, h.port⟩⟩

theorem udpHeaderPort_eq (hcap : buf.len ≤ buf.capacity) {offset : Nat} (hle : offset + 2 ≤ buf.len) (host : Bytes)
    (dst : Bytes → Option SockAddr) :
    udpHeaderPort buf offset host dst =
      .ok (some ⟨offset + 2, host, (buf.bytes.drop offset).take 2, dst ((buf.bytes.drop offset).take 2)⟩) := by
  rw [udpHeaderPort, Buffer.get_bytes hcap hle, C.ok_bind]
  rfl

theorem parse_udprelay_header_eq (N : NetLib) (hcap : buf.len ≤ buf.capacity) (htwo : 2 ≤ buf.capacity) :
    parse_udprelay_header N buf = .ok ((addrHeader buf.bytes).map (udpDestination N)) := by
  have hfirst : buf.get 0 1 = .ok [buf.data 0] := Buffer.get_ok (by omega)
  have hsecond : buf.get 1 1 = .ok [buf.data 1] := Buffer.get_ok (by omega)
  simp only [parse_udprelay_header, hfirst, hsecond, C.ok_bind]
  rw [List.headD_cons, List.headD_cons]
  by_cases h0 : buf.len = 0
  · have hnone : addrHeader buf.bytes = none := by
      have hnil : buf.bytes = [] := List.length_eq_zero_iff.1 ((Buffer.length_bytes buf).trans h0)
      rw [hnil]
      rfl
    rw [hnone]
    simp [h0]
    rfl
  have hatyp : buf.bytes.getD 0 0 = buf.data 0 := Buffer.getD_bytes (by omega)
  simp only [addrHeader, hatyp, AddrHeader.upTo, Buffer.length_bytes]
  by_cases ht1 : (buf.data 0).toNat % 16 = 1
  · rw [if_pos ht1, if_pos ht1]
    split
    · rw [Buffer.get_bytes hcap (by omega), C.ok_bind, udpHeaderPort_eq hcap (by omega)]
      rfl
    · rfl
  rw [if_neg ht1, if_neg ht1]
  by_cases ht3 : (buf.data 0).toNat % 16 = 3
  · rw [if_pos ht3, if_pos ht3]
    by_cases h1 : buf.len = 1
    · rw [if_neg (by omega), if_neg (by omega)]
      rfl
    rw [Buffer.getD_bytes (by omega)]
    by_cases hle : (buf.data 1).toNat + 4 ≤ buf.len
    · have hlt := UInt8.toNat_lt (buf.data 1)
      have hroom : 0 < MAX_HOSTNAME_LEN - (buf.data 1).toNat := by
        rw [MAX_HOSTNAME_LEN]
        omega
      rw [if_pos hle, if_pos (by omega), Buffer.get_bytes hcap (by omega), C.ok_bind, cstring_padded (.inr hroom),
        C.ok_bind, udpHeaderPort_eq hcap (by omega)]
      have hname : ((buf.bytes.drop 2).take (buf.data 1).toNat).length = (buf.data 1).toNat := by
        rw [List.length_take, List.length_drop, Buffer.length_bytes]
        omega
      simp only [udpDestination, hname, Option.map_some]
    · rw [if_neg hle, if_neg (by omega)]
      rfl
  rw [if_neg ht3, if_neg ht3]
  by_cases ht4 : (buf.data 0).toNat % 16 = 4
  · rw [if_pos ht4, if_pos ht4]
    split
    · rw [Buffer.get_bytes hcap (by omega), C.ok_bind, udpHeaderPort_eq hcap (by omega)]
      rfl
    · rfl
  rw [if_neg ht4, if_neg ht4]
  rfl

/-! ### A header that is built is read back -/

theorem construct_isHeader {addr : SockAddr} (hip : addr.ip.Sized) (hport : addr.port.length = 2) :
    IsHeader (construct_udprelay_header addr) (.ip addr.ip) addr.port := by
  obtain ⟨ip, port⟩ := addr
  cases ip with
  | v4 a => exact .ipv4 rfl hip hport
  | v6 a => exact .ipv6 rfl hip hport

/-- The payload starts where the header ends. -/
theorem parse_construct (N : NetLib) {addr : SockAddr} (hip : addr.ip.Sized) (hport : addr.port.length = 2)
    (payload : Bytes) (hcap : buf.len ≤ buf.capacity)
    (hbytes : buf.bytes = construct_udprelay_header addr ++ payload) :
    ∃ h, parse_udprelay_header N buf = .ok (some h) ∧ h.dst = some addr ∧ h.port = addr.port ∧
      h.len = (construct_udprelay_header addr).length ∧ buf.bytes.drop h.len = payload := by
  have hheader := construct_isHeader hip hport
  have htwo : 2 ≤ buf.capacity := by
    have hlen := Buffer.length_bytes buf
    rw [hbytes, List.length_append] at hlen
    have hpos : 2 ≤ (construct_udprelay_header addr).length := by
      rw [construct_udprelay_header]
      split <;> simp [hport]
    omega
  refine ⟨udpDestination N ⟨.ip addr.ip, addr.port, (construct_udprelay_header addr).length⟩, ?_, rfl, rfl, rfl, ?_⟩
  · rw [parse_udprelay_header_eq N hcap htwo, hbytes, addrHeader_of_isHeader hheader payload]
    rfl
  · change buf.bytes.drop (construct_udprelay_header addr).length = payload
    rw [hbytes, List.drop_left]

/-- An answer of ::1, port 53, with the payload `A`. -/
theorem parse_construct_loopback :
    ∃ h, parse_udprelay_header ⟨fun _ => none, fun _ => [], fun _ _ => none, none⟩
          ⟨0, 20, 32, fun i => (construct_udprelay_header ⟨.v6 (List.replicate 15 0 ++ [1]), [0, 53]⟩ ++
            [65]).getD i 0⟩ =
        .ok (some h) ∧
      h.dst = some ⟨.v6 (List.replicate 15 0 ++ [1]), [0, 53]⟩ ∧ h.port = [0, 53] ∧ h.len = 19 ∧
      (Block.read (fun i => (construct_udprelay_header ⟨.v6 (List.replicate 15 0 ++ [1]), [0, 53]⟩ ++ [65]).getD i 0) 0
        20).drop h.len = [65] :=
  parse_construct _ (by simp [CorkIp.Sized]) rfl [65] (by decide) (by decide)

end Udp

end

end OutlineServer
