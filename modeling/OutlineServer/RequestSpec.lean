import Mathlib.Data.List.TakeWhile
import OutlineServer.AddrHeader
import OutlineServer.HostName

/-!
# What is a request

`Requests` says which requests a header stands for, and with what. `server_recv_cb` accepts the headers that stand for
one, except where a name leaves no room for the NUL in the array of 255 bytes, has a NUL in it, or is taken for an
address by libcork and not by `inet_pton` (`NameOk`, `parses_request_iff`). `parse_udprelay_header` agrees with it
unless a name is an IPv6 literal (`parsers_agree_iff`).
-/

namespace OutlineServer

/-- What the code relies on: libcork's parser takes all that `inet_pton` takes. -/
structure NetLib.Strings (N : NetLib) : Prop where
  family : ∀ f s a, N.inet_pton f s = some a → ∃ ip, N.cork_ip_init s = some ip ∧ ip.family = f

/-- The array `host` of `server_recv_cb`. -/
def requestHost (name : Bytes) : Bytes := name ++ List.replicate (255 - name.length) 0

variable {N : NetLib} {buf : Buffer} {name s : Bytes} {h : AddrHeader} {q : Request}

/-! ### The name in the array -/

/-- There is a NUL in the array `host`. -/
def Terminated (name : Bytes) : Prop := 0 ∈ name ∨ name.length ≤ 254

theorem cstring_requestHost (hterm : Terminated name) : cstring (requestHost name) = .ok (name.takeWhile (· ≠ 0)) :=
  cstring_padded (hterm.imp_right fun hle => by omega)

/-- A name of 255 bytes without a NUL fills the array. -/
theorem cstring_requestHost_full (hlen : name.length ≤ 255) (hterm : ¬ Terminated name) :
    cstring (requestHost name) = .error .bounds := by
  obtain ⟨hnul, hlt⟩ := not_or.1 hterm
  have hfull : 255 - name.length = 0 := by omega
  rw [requestHost, hfull, List.replicate_zero, List.append_nil, cstring_eq, if_neg hnul]

theorem takeWhile_nul_iff : name.takeWhile (· ≠ 0) = name ↔ 0 ∉ name := by
  rw [List.takeWhile_eq_self_iff]
  constructor
  · intro h hnul
    simpa using h 0 hnul
  · intro hnul b hb
    simpa using fun hb0 : b = 0 => hnul (hb0 ▸ hb)

theorem NetLib.blocked_eq (hs : cstring name = .ok s) : N.blocked name = .ok (N.blocks s) := by
  rw [blocked, hs]
  split
  · rename_i hnone
    rw [blocks, Option.isNone_iff_eq_none.1 hnone]
    rfl
  · rfl

/-! ### The two parsers -/

/-- The same header, destination and port. -/
def Request.Agrees (hdr : Udp.UdpHeader) : Request → Prop
  | .connect addr offset => hdr.len = offset ∧ hdr.port = addr.port ∧ hdr.dst = some addr
  | .query host port offset =>
    hdr.len = offset ∧ hdr.port = port ∧ hdr.dst = none ∧ hdr.host.takeWhile (· ≠ 0) = host.takeWhile (· ≠ 0)
  | .stop | .blocked => False

/-- `parse_udprelay_header` accepts what the server's parser accepts, and rejects what this one rejects whatever it
finds in the name. -/
structure ParsersAgree (N : NetLib) (buf : Buffer) : Prop where
  accepted : ∀ q, serverRequest N buf = .ok q → q.offset?.isSome →
    ∃ hdr, Udp.parse_udprelay_header N buf = .ok (some hdr) ∧ q.Agrees hdr
  rejected : (∀ N', serverRequest N' buf = .ok .stop) → Udp.parse_udprelay_header N buf = .ok none

/-- The header has an IPv6 literal other than `::` as a name, and no ACL blocks it. -/
def Ipv6Name (N : NetLib) (bs : Bytes) : Prop :=
  ∃ h name s addr, addrHeader bs = some h ∧ h.dst = .name name ∧ cstring (requestHost name) = .ok s ∧
    N.blocks s = false ∧ N.cork_ip_init s = some (.v6 addr) ∧ N.literal .AF_INET6 s ≠ .v6 (List.replicate 16 0)

theorem hostLiteral_eq (hN : N.Strings) (s : Bytes) :
    Udp.hostLiteral N s =
      match N.cork_ip_init s with
      | some (.v4 _) => some (N.literal .AF_INET s)
      | some (.v6 _) => some (.v6 (List.replicate 16 0))
      | none => none := by
  rw [Udp.hostLiteral]
  cases hc : N.cork_ip_init s with
  | none => rfl
  | some ip =>
    cases ip with
    | v4 a => rfl
    | v6 a =>
      cases hp : N.inet_pton .AF_INET s with
      | none => rfl
      | some addr =>
        obtain ⟨ip, hip, hfam⟩ := hN.family _ _ _ hp
        rw [hc] at hip
        cases hip
        cases hfam

/-- What becomes of a name. -/
theorem serverDestination_name (hdst : h.dst = .name name) (hs : cstring (requestHost name) = .ok s) :
    serverDestination N h =
      if N.blocks s then .ok .blocked
      else
        match N.cork_ip_init s with
        | some ip => .ok (.connect ⟨N.literal ip.family s, h.port⟩ h.len)
        | none => do
          if ← validate_hostname (requestHost name) name.length then
            return .query (requestHost name) h.port h.len
          else
            return .stop := by
  rw [serverDestination, hdst]
  simp only
  rw [← requestHost, NetLib.blocked_eq hs, C.ok_bind, hs, C.ok_bind]
  rfl

/-- A name that fills the array is read beyond it. -/
theorem serverDestination_full (hdst : h.dst = .name name) (hs : cstring (requestHost name) = .error .bounds) :
    serverDestination N h = .error .bounds := by
  rw [serverDestination, hdst]
  simp only
  rw [← requestHost, NetLib.blocked, hs]
  split
  · rfl
  · rfl

/-- A name that is an address. -/
theorem serverDestination_literal (hdst : h.dst = .name name) (hs : cstring (requestHost name) = .ok s)
    (hacl : N.blocks s = false) {ip : CorkIp} (hcork : N.cork_ip_init s = some ip) :
    serverDestination N h = .ok (.connect ⟨N.literal ip.family s, h.port⟩ h.len) := by
  rw [serverDestination_name hdst hs, hacl, hcork]
  rfl

theorem udpDestination_name (hN : N.Strings) (hdst : h.dst = .name name) :
    (Udp.udpDestination N h).len = h.len ∧ (Udp.udpDestination N h).port = h.port ∧
      (Udp.udpDestination N h).host.takeWhile (· ≠ 0) = (requestHost name).takeWhile (· ≠ 0) ∧
      (Udp.udpDestination N h).dst = (match N.cork_ip_init (name.takeWhile (· ≠ 0)) with
        | some (.v4 _) => some (N.literal .AF_INET (name.takeWhile (· ≠ 0)))
        | some (.v6 _) => some (.v6 (List.replicate 16 0))
        | none => none).map fun ip => ⟨ip, h.port⟩ := by
  simp only [Udp.udpDestination, hdst, hostLiteral_eq hN]
  refine ⟨trivial, trivial, ?_, trivial⟩
  rw [takeWhile_append_zeros, requestHost, takeWhile_append_zeros]

/-- A request that the server carries out is the same one over UDP. -/
theorem udpDestination_agrees (hN : N.Strings) (hf : addrHeader buf.bytes = some h) (hnot : ¬ Ipv6Name N buf.bytes)
    (hlen : ∀ name, h.dst = .name name → name.length ≤ 255) (hq : serverDestination N h = .ok q)
    (hacc : q.offset?.isSome) : q.Agrees (Udp.udpDestination N h) := by
  cases hdst : h.dst with
  | ip ip =>
    rw [serverDestination, hdst] at hq
    cases hq
    simp [Request.Agrees, Udp.udpDestination, hdst]
  | name name =>
    obtain ⟨hlen', hport, hhost, haddr⟩ := udpDestination_name hN hdst
    by_cases hterm : Terminated name
    · have hs := cstring_requestHost hterm
      rw [serverDestination_name hdst hs] at hq
      split at hq
      · cases hq
        cases hacc
      rename_i hacl
      cases hc : N.cork_ip_init (name.takeWhile (· ≠ 0)) with
      | some ip =>
        rw [hc] at hq haddr
        cases hq
        refine ⟨hlen', hport, haddr.trans ?_⟩
        cases ip with
        | v4 a => rfl
        | v6 a =>
          have hzero : N.literal .AF_INET6 (name.takeWhile (· ≠ 0)) = .v6 (List.replicate 16 0) :=
            not_not.1 fun hne => hnot ⟨h, name, _, a, hf, hdst, hs, Bool.eq_false_of_not_eq_true hacl, hc, hne⟩
          simp only [CorkIp.family, hzero, Option.map_some]
      | none =>
        rw [hc] at hq haddr
        obtain ⟨valid, -, hq⟩ := C.bind_eq_ok hq
        cases valid with
        | true =>
          cases hq
          exact ⟨hlen', hport, haddr, hhost⟩
        | false =>
          cases hq
          cases hacc
    · rw [serverDestination_full hdst (cstring_requestHost_full (hlen name hdst) hterm)] at hq
      cases hq

/-- A name of a header has at most 255 bytes. -/
theorem length_name_le (hf : addrHeader buf.bytes = some h) (hdst : h.dst = .name name) : name.length ≤ 255 := by
  obtain ⟨header, payload, -, hheader, -⟩ := addrHeader_eq_some.1 hf
  rw [hdst] at hheader
  cases hheader with
  | name _ hn _ =>
    rw [hn]
    exact Nat.le_of_lt_succ (UInt8.toNat_lt _)

/-- The headers that the server rejects whatever the name is are those that are not complete. -/
theorem rejected_iff (hcap : buf.len ≤ buf.capacity) :
    (∀ N', serverRequest N' buf = .ok .stop) ↔ addrHeader buf.bytes = none := by
  constructor
  · intro h
    cases hf : addrHeader buf.bytes with
    | none => rfl
    | some hdr =>
      -- a library for which every name is an address
      have hall := h ⟨fun _ => some (.v4 []), fun _ => [], fun _ _ => none, none⟩
      rw [serverRequest_eq _ hcap, hf] at hall
      simp only [serverDestination] at hall
      split at hall
      · cases hall
      · obtain ⟨blocked, -, hall⟩ := C.bind_eq_ok hall
        split at hall
        · cases hall
        · obtain ⟨s, -, hall⟩ := C.bind_eq_ok hall
          cases hall
  · intro hf N'
    rw [serverRequest_eq _ hcap, hf]

theorem parsers_agree_iff (hN : N.Strings) (hcap : buf.len ≤ buf.capacity) (htwo : 2 ≤ buf.capacity) :
    ParsersAgree N buf ↔ ¬ Ipv6Name N buf.bytes := by
  have hserver := serverRequest_eq N hcap
  have hudp := Udp.parse_udprelay_header_eq N hcap htwo
  constructor
  · rintro hagree ⟨h, name, s, addr, hf, hdst, hs, hacl, hcork, hne⟩
    rw [hf] at hserver hudp
    obtain ⟨hdr, hparse, -, -, hdraddr⟩ :=
      hagree.accepted _ (hserver.trans (serverDestination_literal hdst hs hacl hcork)) rfl
    rw [hudp, Option.map_some] at hparse
    cases hparse
    have hterm : Terminated name := by
      by_contra hterm
      rw [cstring_requestHost_full (length_name_le hf hdst) hterm] at hs
      cases hs
    rw [cstring_requestHost hterm] at hs
    cases hs
    rw [(udpDestination_name hN hdst).2.2.2, hcork] at hdraddr
    exact hne (SockAddr.mk.inj (Option.some.inj hdraddr)).1.symm
  · intro hnot
    refine ⟨fun q hq hacc => ?_, fun hall => ?_⟩
    · cases hf : addrHeader buf.bytes with
      | none =>
        rw [hserver, hf] at hq
        cases hq
        cases hacc
      | some h =>
        rw [hserver, hf] at hq
        rw [hf] at hudp
        exact ⟨Udp.udpDestination N h, hudp,
          udpDestination_agrees hN hf hnot (fun _ => length_name_le hf) hq hacc⟩
    · rw [hudp, (rejected_iff hcap).1 hall]
      rfl

/-- The library on the address `::1` and names that are no addresses. -/
def loopbackNet : NetLib where
  cork_ip_init s := if s = [58, 58, 49] then some (.v6 (List.replicate 15 0 ++ [1])) else none
  inet_ntop _ := [58, 58, 49]
  inet_pton f s := if f = .AF_INET6 ∧ s = [58, 58, 49] then some (List.replicate 15 0 ++ [1]) else none
  acl := none

theorem loopbackNet_strings : loopbackNet.Strings where
  family f s a h := by
    simp only [loopbackNet] at h ⊢
    split at h
    · rename_i hs
      exact ⟨_, if_pos hs.2, hs.1.symm⟩
    · cases h

/-- A buffer with the bytes of a request. -/
def requestBuffer (bs : Bytes) : Buffer := ⟨0, bs.length, SOCKET_BUF_SIZE, fun i => bs.getD i 0⟩

theorem parsers_agree_iff_loopback :
    ParsersAgree loopbackNet (requestBuffer [3, 3, 58, 58, 49, 0, 80, 65]) ↔
      ¬ Ipv6Name loopbackNet (requestBuffer [3, 3, 58, 58, 49, 0, 80, 65]).bytes :=
  parsers_agree_iff loopbackNet_strings (by decide) (by decide)

/-- Of the name `::1` the UDP relay makes the address `::`. -/
theorem parsers_disagree : ¬ ParsersAgree loopbackNet (requestBuffer [3, 3, 58, 58, 49, 0, 80, 65]) := by
  intro hagree
  have hserver : serverRequest loopbackNet (requestBuffer [3, 3, 58, 58, 49, 0, 80, 65]) =
      .ok (.connect ⟨.v6 (List.replicate 15 0 ++ [1]), [0, 80]⟩ 7) := by
    decide +kernel
  obtain ⟨hdr, hparse, -, -, hdst⟩ := hagree.accepted _ hserver rfl
  have hudp : Udp.parse_udprelay_header loopbackNet (requestBuffer [3, 3, 58, 58, 49, 0, 80, 65]) =
      .ok (some ⟨7, [58, 58, 49] ++ List.replicate 253 0, [0, 80], some ⟨.v6 (List.replicate 16 0), [0, 80]⟩⟩) := by
    decide +kernel
  rw [hudp] at hparse
  cases hparse
  cases hdst

/-! ### Requests -/

/-- The request that a destination and a port stand for, behind a header of `offset` bytes: a name is an IP literal or a
host name. -/
inductive Requests (N : NetLib) (port : Bytes) (offset : Nat) : Destination → Request → Prop
  | ip (ip : CorkIp) : Requests N port offset (.ip ip) (.connect ⟨ip, port⟩ offset)
  | literal {name addr : Bytes} {f : Family} (hacl : N.blocks name = false) (hnul : 0 ∉ name)
      (haddr : N.inet_pton f name = some addr) :
      Requests N port offset (.name name) (.connect ⟨.ofBytes f addr, port⟩ offset)
  | name {name : Bytes} (hacl : N.blocks name = false) (hlit : ∀ f, N.inet_pton f name = none)
      (hvalid : ValidHostname name) : Requests N port offset (.name name) (.query (requestHost name) port offset)

/-- A header is accepted if it stands for a request, and then as this one, with the payload behind it and the name in
`host` up to its NUL. -/
structure ParsesRequest (N : NetLib) (buf : Buffer) : Prop where
  defined : ∃ q, serverRequest N buf = .ok q
  sound : ∀ q offset, serverRequest N buf = .ok q → q.offset? = some offset → ∃ header dst port,
    buf.bytes = header ++ ({ buf with idx := offset, len := buf.len - offset } : Buffer).pending ∧
      header.length = offset ∧ IsHeader header dst port ∧ Requests N port offset dst q ∧
      ∀ name, dst = .name name → cstring (requestHost name) = .ok name
  complete : ∀ header dst port payload q, buf.bytes = header ++ payload → IsHeader header dst port →
    Requests N port header.length dst q → serverRequest N buf = .ok q

/-- The same for the header that has been found. -/
structure ParsesHeader (N : NetLib) (h : AddrHeader) : Prop where
  defined : ∃ q, serverDestination N h = .ok q
  sound : ∀ q, serverDestination N h = .ok q → q.offset?.isSome → Requests N h.port h.len h.dst q ∧
    ∀ name, h.dst = .name name → cstring (requestHost name) = .ok name
  complete : ∀ q, Requests N h.port h.len h.dst q → serverDestination N h = .ok q

/-- It is parsed so if the code answers with `q`, which is the only request that the header can stand for. -/
theorem ParsesHeader.intro (hq : serverDestination N h = .ok q)
    (hsound : q.offset?.isSome → Requests N h.port h.len h.dst q ∧
      ∀ name, h.dst = .name name → cstring (requestHost name) = .ok name)
    (hunique : ∀ q', Requests N h.port h.len h.dst q' → q' = q) : ParsesHeader N h where
  defined := ⟨q, hq⟩
  sound q' hq' hacc := by
    rw [hq] at hq'
    cases hq'
    exact hsound hacc
  complete q' hreq := by
    rw [hunique q' hreq]
    exact hq

theorem Requests.blocks_eq {port : Bytes} {offset : Nat} (hreq : Requests N port offset (.name name) q) :
    N.blocks name = false := by
  cases hreq <;> assumption

/-- The name of a request has no NUL in it. -/
theorem Requests.not_mem_nul {port : Bytes} {offset : Nat} (hreq : Requests N port offset (.name name) q) :
    0 ∉ name := by
  cases hreq with
  | literal _ hnul _ => exact hnul
  | name _ _ hvalid => exact hvalid.labels.not_mem_nul

theorem Requests.of_name {port : Bytes} {offset : Nat} (hreq : Requests N port offset (.name name) q) :
    (∃ f addr, N.inet_pton f name = some addr ∧ q = .connect ⟨.ofBytes f addr, port⟩ offset) ∨
      (∀ f, N.inet_pton f name = none) ∧ ValidHostname name ∧ q = .query (requestHost name) port offset := by
  cases hreq with
  | literal _ _ haddr => exact .inl ⟨_, _, haddr, rfl⟩
  | name _ hlit hvalid => exact .inr ⟨hlit, hvalid, rfl⟩

theorem serverDestination_offset {offset : Nat} (hq : serverDestination N h = .ok q) (ho : q.offset? = some offset) :
    offset = h.len := by
  rw [serverDestination] at hq
  split at hq
  · cases hq
    cases ho
    rfl
  · obtain ⟨blocked, -, hq⟩ := C.bind_eq_ok hq
    split at hq
    · cases hq
      cases ho
    obtain ⟨s, -, hq⟩ := C.bind_eq_ok hq
    split at hq
    · cases hq
      cases ho
      rfl
    · obtain ⟨valid, -, hq⟩ := C.bind_eq_ok hq
      split at hq <;> cases hq <;> cases ho
      rfl

theorem parses_request_iff_header (hcap : buf.len ≤ buf.capacity) :
    ParsesRequest N buf ↔ ∀ h, addrHeader buf.bytes = some h → ParsesHeader N h := by
  have hserver := serverRequest_eq N hcap
  constructor
  · intro hp h hf
    obtain ⟨header, payload, hbytes, hheader, hlen⟩ := addrHeader_eq_some.1 hf
    rw [hf] at hserver
    refine ⟨?_, fun q hq hacc => ?_, fun q hq => ?_⟩
    · obtain ⟨q, hq⟩ := hp.defined
      exact ⟨q, hserver.symm.trans hq⟩
    · obtain ⟨offset, ho⟩ := Option.isSome_iff_exists.1 hacc
      obtain ⟨header', dst, port, hbytes', hlen', hheader', hreq, hhost⟩ := hp.sound q offset (hserver.trans hq) ho
      rw [hbytes', addrHeader_of_isHeader hheader'] at hf
      cases hf
      rw [hlen']
      exact ⟨hreq, hhost⟩
    · exact hserver.symm.trans (hp.complete header _ _ payload q hbytes hheader (hlen ▸ hq))
  · intro hp
    refine ⟨?_, fun q offset hq ho => ?_, fun header dst port payload q hbytes hheader hq => ?_⟩
    · cases hf : addrHeader buf.bytes with
      | none =>
        rw [hserver, hf]
        exact ⟨_, rfl⟩
      | some h =>
        rw [hserver, hf]
        exact (hp h hf).defined
    · cases hf : addrHeader buf.bytes with
      | none =>
        rw [hserver, hf] at hq
        cases hq
        cases ho
      | some h =>
        rw [hserver, hf] at hq
        obtain rfl := serverDestination_offset hq ho
        obtain ⟨hreq, hhost⟩ := (hp h hf).sound q hq (by rw [ho]; rfl)
        obtain ⟨header, payload, hbytes, hheader, hlen⟩ := addrHeader_eq_some.1 hf
        refine ⟨header, h.dst, h.port, ?_, hlen.symm, hheader, hreq, hhost⟩
        have hle : h.len ≤ buf.len := by
          rw [← Buffer.length_bytes]
          exact length_le_of_addrHeader hf
        have hpending : ({ buf with idx := h.len, len := buf.len - h.len } : Buffer).pending =
          buf.bytes.drop h.len := by
          rw [Buffer.bytes, Block.drop_read _ _ _ _ hle, Nat.zero_add]
          rfl
        rw [hpending, hbytes, hlen, List.drop_left]
    · have hf : addrHeader buf.bytes = some ⟨dst, port, header.length⟩ := by
        rw [hbytes]
        exact addrHeader_of_isHeader hheader payload
      rw [hserver, hf]
      exact (hp _ hf).complete q hq

/-! ### When a name is parsed -/

/-- There is a NUL in `host`, and what libcork takes for an address before it is the whole name, which `inet_pton` takes
as well. -/
structure NameOk (N : NetLib) (name : Bytes) : Prop where
  terminated : Terminated name
  address : N.blocks (name.takeWhile (· ≠ 0)) = false → ∀ ip, N.cork_ip_init (name.takeWhile (· ≠ 0)) = some ip →
    0 ∉ name ∧ ∃ addr, N.inet_pton ip.family name = some addr

theorem requestHost_eq (hlen : name.length ≤ 254) :
    requestHost name = name ++ 0 :: List.replicate (254 - name.length) 0 := by
  have hsub : 255 - name.length = (254 - name.length) + 1 := by omega
  rw [requestHost, hsub, List.replicate_succ]

theorem NetLib.Strings.eq_of_pton (hN : N.Strings) {f : Family} {addr : Bytes} {ip : CorkIp}
    (haddr : N.inet_pton f name = some addr) (hcork : N.cork_ip_init name = some ip) : ip.family = f := by
  obtain ⟨ip', hcork', hfam⟩ := hN.family _ _ _ haddr
  rw [hcork] at hcork'
  cases hcork'
  exact hfam

/-- A name that libcork takes for an address. -/
theorem parses_header_literal_iff (hN : N.Strings) (hdst : h.dst = .name name) (hterm : Terminated name)
    (hacl : N.blocks (name.takeWhile (· ≠ 0)) = false) {ip : CorkIp}
    (hcork : N.cork_ip_init (name.takeWhile (· ≠ 0)) = some ip) :
    ParsesHeader N h ↔ 0 ∉ name ∧ ∃ addr, N.inet_pton ip.family name = some addr := by
  have hs := cstring_requestHost hterm
  have hq := serverDestination_literal hdst hs hacl hcork
  constructor
  · intro hp
    obtain ⟨hreq, hhost⟩ := hp.sound _ hq rfl
    have hself := Except.ok.inj (hs.symm.trans (hhost name hdst))
    rw [hdst] at hreq
    rw [hself] at hcork
    refine ⟨takeWhile_nul_iff.1 hself, ?_⟩
    obtain ⟨f, addr, haddr, -⟩ | ⟨-, -, hquery⟩ := hreq.of_name
    · exact ⟨addr, hN.eq_of_pton haddr hcork ▸ haddr⟩
    · cases hquery
  · rintro ⟨hnul, addr, haddr⟩
    rw [takeWhile_nul_iff.2 hnul] at hs hacl hcork hq
    have hlit : N.literal ip.family name = .ofBytes ip.family addr := by
      rw [NetLib.literal, haddr, Option.getD_some]
    rw [hlit] at hq
    refine .intro hq (fun _ => ?_) fun q' hreq => ?_
    · rw [hdst]
      refine ⟨.literal hacl hnul haddr, ?_⟩
      rintro _ ⟨⟩
      exact hs
    · rw [hdst] at hreq
      obtain ⟨f, addr', haddr', rfl⟩ | ⟨hlit, -, -⟩ := hreq.of_name
      · obtain rfl := hN.eq_of_pton haddr' hcork
        rw [haddr] at haddr'
        cases haddr'
        rfl
      · rw [hlit] at haddr
        cases haddr

/-- A name that is no address, with a NUL behind it or in it. -/
theorem parses_header_hostname (hN : N.Strings) (hdst : h.dst = .name name) (hlen : name.length ≤ 255)
    (hterm : Terminated name) (hacl : N.blocks (name.takeWhile (· ≠ 0)) = false)
    (hcork : N.cork_ip_init (name.takeWhile (· ≠ 0)) = none) : ParsesHeader N h := by
  have hs := cstring_requestHost hterm
  have hq := serverDestination_name (N := N) hdst hs
  rw [hacl, hcork, if_neg Bool.false_ne_true] at hq
  by_cases hnul : 0 ∈ name
  · -- no label has a NUL in it
    simp only [requestHost, validate_hostname_nul _ hnul, C.ok_bind] at hq
    refine .intro hq (fun hacc => ?_) fun q' hreq => ?_
    · cases hacc
    · rw [hdst] at hreq
      exact absurd hnul hreq.not_mem_nul
  have hle : name.length ≤ 254 := hterm.resolve_left hnul
  rw [takeWhile_nul_iff.2 hnul] at hs hacl hcork
  have hlit : ∀ f, N.inet_pton f name = none := by
    intro f
    cases haddr : N.inet_pton f name with
    | none => rfl
    | some addr =>
      obtain ⟨ip, hip, -⟩ := hN.family _ _ _ haddr
      rw [hcork] at hip
      cases hip
  obtain ⟨valid, hvalid, hiff⟩ := validate_hostname_eq hlen hnul (List.replicate (254 - name.length) 0)
  rw [← requestHost_eq hle] at hvalid
  rw [hvalid] at hq
  cases valid with
  | false =>
    refine .intro hq (fun hacc => ?_) fun q' hreq => ?_
    · cases hacc
    · rw [hdst] at hreq
      obtain ⟨f, addr, haddr, -⟩ | ⟨-, hv, -⟩ := hreq.of_name
      · rw [hlit] at haddr
        cases haddr
      · exact absurd (hiff.2 hv) Bool.false_ne_true
  | true =>
    refine .intro hq (fun _ => ?_) fun q' hreq => ?_
    · rw [hdst]
      refine ⟨.name hacl hlit (hiff.1 rfl), ?_⟩
      rintro _ ⟨⟩
      exact hs
    · rw [hdst] at hreq
      obtain ⟨f, addr, haddr, -⟩ | ⟨-, -, rfl⟩ := hreq.of_name
      · rw [hlit] at haddr
        cases haddr
      · rfl

/-- A name that the ACL blocks. -/
theorem parses_header_blocked (hdst : h.dst = .name name) (hterm : Terminated name)
    (hacl : N.blocks (name.takeWhile (· ≠ 0)) = true) : ParsesHeader N h := by
  have hq := serverDestination_name (N := N) hdst (cstring_requestHost hterm)
  rw [hacl, if_pos rfl] at hq
  refine .intro hq (fun hacc => ?_) fun q' hreq => ?_
  · cases hacc
  · rw [hdst] at hreq
    rw [takeWhile_nul_iff.2 hreq.not_mem_nul, hreq.blocks_eq] at hacl
    cases hacl

theorem parses_header_name_iff (hN : N.Strings) (hdst : h.dst = .name name) (hlen : name.length ≤ 255) :
    ParsesHeader N h ↔ NameOk N name := by
  by_cases hterm : Terminated name
  · cases hacl : N.blocks (name.takeWhile (· ≠ 0)) with
    | true =>
      refine iff_of_true (parses_header_blocked hdst hterm hacl) ⟨hterm, fun hopen => ?_⟩
      rw [hacl] at hopen
      cases hopen
    | false =>
      cases hcork : N.cork_ip_init (name.takeWhile (· ≠ 0)) with
      | some ip =>
        rw [parses_header_literal_iff hN hdst hterm hacl hcork]
        refine ⟨fun hok => ⟨hterm, fun _ ip' hip => ?_⟩, fun hok => hok.address hacl ip hcork⟩
        rw [hcork] at hip
        cases hip
        exact hok
      | none =>
        refine iff_of_true (parses_header_hostname hN hdst hlen hterm hacl hcork) ⟨hterm, fun _ ip hip => ?_⟩
        rw [hcork] at hip
        cases hip
  · refine iff_of_false (fun hp => ?_) fun hok => hterm hok.terminated
    obtain ⟨q, hq⟩ := hp.defined
    rw [serverDestination_full hdst (cstring_requestHost_full hlen hterm)] at hq
    cases hq

theorem parses_header_ip {ip : CorkIp} (hdst : h.dst = .ip ip) : ParsesHeader N h := by
  have hq : serverDestination N h = .ok (.connect ⟨ip, h.port⟩ h.len) := by
    rw [serverDestination, hdst]
    rfl
  refine .intro hq (fun _ => ?_) fun q' hreq => ?_
  · rw [hdst]
    exact ⟨.ip ip, fun name hname => by cases hname⟩
  · rw [hdst] at hreq
    cases hreq
    rfl

/-- A buffer is parsed as it should be unless its header has a name that is not. -/
theorem parses_request_iff (hN : N.Strings) (hcap : buf.len ≤ buf.capacity) :
    ParsesRequest N buf ↔ ∀ h name, addrHeader buf.bytes = some h → h.dst = .name name → NameOk N name := by
  rw [parses_request_iff_header hcap]
  constructor
  · intro hp h name hf hdst
    exact (parses_header_name_iff hN hdst (length_name_le hf hdst)).1 (hp h hf)
  · intro hname h hf
    cases hdst : h.dst with
    | ip ip => exact parses_header_ip hdst
    | name name => exact (parses_header_name_iff hN hdst (length_name_le hf hdst)).2 (hname h name hf hdst)

theorem parses_request_iff_loopback :
    ParsesRequest loopbackNet (requestBuffer [3, 3, 58, 58, 49, 0, 80, 65]) ↔
      ∀ h name, addrHeader (requestBuffer [3, 3, 58, 58, 49, 0, 80, 65]).bytes = some h → h.dst = .name name →
        NameOk loopbackNet name :=
  parses_request_iff loopbackNet_strings (by decide)

/-- A host name of 255 bytes: four labels of 63. -/
def longName : Bytes :=
  List.replicate 63 97 ++ 0x2e :: List.replicate 63 97 ++ 0x2e :: List.replicate 63 97 ++ 0x2e :: List.replicate 63 97

/-- `cork_ip_init` runs past the end of `host`. -/
theorem longName_unparsed : ¬ ParsesRequest loopbackNet (requestBuffer (3 :: 255 :: longName ++ [0, 80])) := by
  intro hp
  obtain ⟨q, hq⟩ := hp.defined
  have hserver : serverRequest loopbackNet (requestBuffer (3 :: 255 :: longName ++ [0, 80])) = .error .bounds := by
    decide +kernel
  rw [hserver] at hq
  cases hq

end OutlineServer
