import OutlineServer.UdpOwnership

/-!
# The families of the UDP relay's sockets

A context for an address is cached under the family of the address, which is that of its socket (`Families`). A context
for host names is cached under `AF_UNSPEC`, with a socket of the family of the first answer, and is used for every later
one: `Crosses` is an answer of the other family.
-/

namespace OutlineServer.Udp

open Mem

variable {G : Type} {K : CryptoAll G} {N : NetLib} {resolv_mode : ResolvMode} {w : World G} {r r' : Resolver (World G)}
  {io : NetIo} {c : Nat} {rem : RemoteCtx} {q : QueryCtx} {addr : SockAddr} {af : Option Family} {src_addr : SockAddr}
  {e : Event}

/-! ### Answers of the other family -/

/-- The context that an answer goes out from, recorded or cached, has a socket of the other family. -/
def resolvCrosses (w : World G) (src_addr : SockAddr) (recorded : Option Nat) : Option SockAddr → Bool
  | none => false
  | some addr =>
    (recorded <|> (w.conn_cache.find (hash_key none src_addr)).map CacheEntry.data).any fun c =>
      (w.remotes.get c).any (·.fd ≠ addr.ip.family)

/-- The answers to a datagram's host name come at once. -/
def headerCrosses (resolv_mode : ResolvMode) (now4 now6 : Option Answer) (w : World G) (src_addr : SockAddr)
    (h : UdpHeader) : Bool :=
  match h.dst, now4, now6 with
  | none, some he4, some he6 =>
    resolvCrosses w src_addr none (resolv_mode.choose (.both h.port w.queries.next he4 he6))
  | _, _, _ => false

/-- The event has an answer sent from a context of the other family. -/
def Crosses (K : CryptoAll G) (N : NetLib) (resolv_mode : ResolvMode) (r : Resolver (World G)) : Event → Bool
  | .serverRecv junk _ now4 now6 src_addr packet =>
    match packet.map (recvHeader K N junk r.app.g) with
    | some (.ok (_, some (_, h))) => headerCrosses resolv_mode now4 now6 r.app src_addr h
    | _ => false
  | .remoteRecv .. | .remoteTimeout _ => false
  | .answer q f he _ =>
    match r.lookups.get q with
    | some lookup =>
      all_requests_are_null (lookup.answered f he) && (r.app.queries.get lookup.data).any fun query =>
        resolvCrosses r.app query.src_addr query.remote_ctx (resolv_mode.choose (lookup.answered f he))
    | none => false

/-! ### What holds of the contexts -/

structure Families (w : World G) : Prop where
  fd : ∀ c rem f, w.remotes.get c = some rem → rem.af = some f → rem.fd = f
  sent : ∀ p ∈ w.sent, p.1 = p.2.ip.family

namespace Families

theorem same {w' : World G} (h : Families w) (hremotes : w'.remotes = w.remotes) (hsent : w'.sent = w.sent) :
    Families w' := by
  obtain ⟨hfd, hs⟩ := h
  rw [← hremotes] at hfd
  rw [← hsent] at hs
  exact ⟨hfd, hs⟩

theorem with_cache (h : Families w) (conn_cache : Cache Key Nat) : Families { w with conn_cache } := ⟨h.fd, h.sent⟩

theorem put (h : Families w) (hrem : w.remotes.get c = some rem) {rem' : RemoteCtx}
    (haf : ∀ f, rem'.af = some f → rem'.fd = f) : Families { w with remotes := w.remotes.put c rem' } where
  fd d rem₁ f hd := by
    rw [Heap.get_put hrem] at hd
    split at hd
    · cases hd
      exact haf f
    · exact h.fd d rem₁ f hd
  sent := h.sent

/-- The family and the socket stay as they are. -/
theorem update (h : Families w) (hrem : w.remotes.get c = some rem) {rem' : RemoteCtx} (haf : rem'.af = rem.af)
    (hfd : rem'.fd = rem.fd) : Families { w with remotes := w.remotes.put c rem' } := by
  refine h.put hrem ?_
  rw [haf, hfd]
  intro f hf
  exact h.fd c rem f hrem hf

theorem free (h : Families w) (c : Nat) : Families { w with remotes := w.remotes.free c } where
  fd d rem f hd := by
    rw [Heap.get_free] at hd
    split at hd
    · cases hd
    · exact h.fd d rem f hd
  sent := h.sent

theorem new_remote (h : Families w) (fd : Family) (src_addr : SockAddr) (dst_addr : Option SockAddr) :
    Families (new_remote w fd src_addr dst_addr) where
  fd d rem f hd := by
    rw [Udp.new_remote, Heap.get_alloc] at hd
    split at hd
    · cases hd
      intro heq
      cases heq
    · exact h.fd d rem f hd
  sent := h.sent

theorem push (h : Families w) {fd : Family} (hfd : fd = addr.ip.family) :
    Families { w with sent := (fd, addr) :: w.sent } where
  fd := h.fd
  sent := List.forall_mem_cons.2 ⟨hfd, h.sent⟩

end Families

/-! ### Callbacks -/

theorem free_cb_families (h : Families w) (data : Option Nat) : (free_cb w data).Yields Families := by
  cases data with
  | none => exact Yields.pure h
  | some c => exact Yields.deref_bind fun _ _ => Yields.pure (h.free c)

theorem insertRemote_families (h : Families w) (io : NetIo) (c : Nat) : (insertRemote w io c).Yields Families := by
  refine Yields.deref_bind fun rem _ => ?_
  generalize cache_insert io.now w.conn_cache (hash_key rem.af rem.src_addr) c = inserted
  obtain ⟨evicted, conn_cache⟩ := inserted
  refine (free_cb_families (h.with_cache conn_cache) evicted).bind fun w' hw' => ?_
  exact Yields.deref_bind fun rem hrem => Yields.pure (hw'.update hrem rfl rfl)

theorem sendRemote_hit_families (h : Families w) (hrem : w.remotes.get c = some rem) (hfd : rem.fd = addr.ip.family)
    (io : NetIo) (af : Option Family) : (sendRemote w io c addr true af).Yields Families := by
  rw [sendRemote, hrem, deref_some, ok_bind]
  exact Yields.pure (h.push hfd)

/-- A new context has a socket of the family of its first destination. -/
theorem sendRemote_new_families (h : Families w) (haf : ∀ f, af = some f → addr.ip.family = f) (src_addr : SockAddr)
    (dst_addr : Option SockAddr) (io : NetIo) :
    (sendRemote (new_remote w addr.ip.family src_addr dst_addr) io w.remotes.next addr false af).Yields Families := by
  have hget : (new_remote w addr.ip.family src_addr dst_addr).remotes.get w.remotes.next =
      some { io := false, watcher := false, af := none, fd := addr.ip.family, src_addr, dst_addr } := by
    simp [new_remote, Heap.get_alloc]
  have hsent := (h.new_remote addr.ip.family src_addr dst_addr).push (rfl : addr.ip.family = addr.ip.family)
  rw [sendRemote, hget, deref_some, ok_bind]
  simp only [Bool.false_eq_true, ↓reduceIte]
  split
  · refine insertRemote_families ?_ io _
    exact hsent.put hget haf
  · rw [close_and_free_remote]
    exact Yields.deref_bind fun _ _ => Yields.pure (hsent.free _)

/-- What `lookupRemote` finds is the cached context, with its key. -/
theorem lookupRemote_families (hok : w.Ok) (h : Families w) (io : NetIo) (af : Option Family) (src_addr : SockAddr) :
    (lookupRemote io w af src_addr).Yields fun (w', remote_ctx) => Families w' ∧
      ∀ c, remote_ctx = some c → (w.conn_cache.find (hash_key af src_addr)).map CacheEntry.data = some c ∧
        ∃ rem rem', w.remotes.get c = some rem ∧ w'.remotes.get c = some rem' ∧ rem.af = af ∧ rem'.fd = rem.fd := by
  rw [lookupRemote]
  cases hf : w.conn_cache.find (hash_key af src_addr) with
  | none =>
    simp only [cache_lookup_miss hf]
    exact Yields.pure ⟨h, fun c hc => by cases hc⟩
  | some tmp =>
    obtain ⟨rem, hrem, hkey⟩ := hok.found hf
    have hfst := cache_lookup_fst io.now w.conn_cache (hash_key af src_addr)
    rw [hf, Option.map_some] at hfst
    simp only [hfst, hrem, deref_some, ok_bind]
    split
    · refine Yields.pure ⟨(h.with_cache (cache_lookup io.now w.conn_cache (hash_key af src_addr)).2).update hrem ?_ ?_,
        ?_⟩
      · rfl
      · rfl
      rintro c ⟨⟩
      exact ⟨rfl, rem, _, hrem, (Heap.get_put hrem _ _).trans (if_pos rfl), (Prod.mk.inj hkey).1.symm, rfl⟩
    · exact Yields.pure ⟨h.with_cache _, fun c hc => by cases hc⟩

/-- An answer that goes out from a recorded or cached context needs one of its family. -/
theorem resolvClient_families (h : Families w) (io : NetIo) (addr : Option SockAddr) (d : Nat)
    (hcross : ∀ q, w.queries.get d = some q → resolvCrosses w q.src_addr q.remote_ctx addr = false) :
    ((resolvClient (G := G)).client_cb io addr d w >>= (resolvClient (G := G)).free_cb d).Yields Families := by
  refine Yields.bind (P := Families) ?_ fun w' hw' => Yields.deref_bind fun _ _ => Yields.pure (hw'.same rfl rfl)
  refine Yields.deref_bind fun q hq => ?_
  have hcross := hcross q hq
  cases addr with
  | none => exact Yields.pure h
  | some addr =>
    have hsend : ∀ (conn_cache : Cache Key Nat) (c : Nat),
        (q.remote_ctx <|> (w.conn_cache.find (hash_key none q.src_addr)).map CacheEntry.data) = some c →
        (do
          let rem ← deref (w.remotes.get c)
          sendRemote { w with conn_cache, remotes := w.remotes.put c { rem with dst_addr := some addr } } io c addr true
            rem.af).Yields Families := by
      intro conn_cache c hc
      refine Yields.deref_bind fun rem hrem => ?_
      have hfd : rem.fd = addr.ip.family := by
        simpa [resolvCrosses, hc, hrem] using hcross
      refine (@sendRemote_hit_families _ _ _ ({ rem with dst_addr := some addr })) ?_ ?_ hfd io rem.af
      · exact (h.with_cache conn_cache).update hrem rfl rfl
      · exact (Heap.get_put hrem _ c).trans (if_pos rfl)
    cases hrc : q.remote_ctx with
    | some c => exact hsend w.conn_cache c (by rw [hrc]; rfl)
    | none =>
      cases hf : w.conn_cache.find (hash_key none q.src_addr) with
      | some tmp =>
        have hfst := cache_lookup_fst io.now w.conn_cache (hash_key none q.src_addr)
        rw [hf, Option.map_some] at hfst
        simp only [hfst]
        exact hsend _ tmp.data (by rw [hrc, hf]; rfl)
      | none =>
        simp only [cache_lookup_miss hf]
        split
        · exact (@sendRemote_new_families _ _ _ none) h (fun _ => nofun) q.src_addr (some addr) io
        · exact Yields.pure h

theorem serverRecvHeader_families (hok : r.app.Ok) (h : Families r.app) (io : NetIo) (now4 now6 : Option Answer)
    (src_addr : SockAddr) (buf : Buffer) (hdr : UdpHeader)
    (hcross : headerCrosses resolv_mode now4 now6 r.app src_addr hdr = false) :
    (serverRecvHeader resolv_mode io now4 now6 r src_addr buf hdr).Yields fun r' => Families r'.app := by
  refine ((lookupRemote_families hok h io _ src_addr).and (lookupRemote_safe hok io _ src_addr).yields).bind ?_
  rintro ⟨w, remote_ctx⟩ ⟨⟨hw, hfound⟩, hgives, -, hmiss⟩
  cases hdst : hdr.dst with
  | some dst =>
    rw [hdst] at hfound
    cases remote_ctx with
    | some c =>
      obtain ⟨-, rem, rem', hrem, hrem', haf, hfd⟩ := hfound c rfl
      refine (sendRemote_hit_families hw hrem' ?_ io _).bind fun w' hw' => Yields.pure hw'
      rw [hfd]
      exact h.fd c rem _ hrem haf
    | none =>
      dsimp only
      split
      · refine (sendRemote_new_families hw ?_ src_addr (some dst) io).bind fun w' hw' => Yields.pure hw'
        rintro f ⟨⟩
        rfl
      · exact Yields.pure hw
  | none =>
    rw [hdst] at hfound hmiss
    refine Yields.lift_bind fun payload _ => Yields.lift_bind fun addr_header _ => ?_
    refine resolv_start_yields (Q := Families) io hdr.port now4 now6 ?_ fun _ => hw.same rfl rfl
    rintro he4 he6 rfl rfl
    refine resolvClient_families ?_ io _ _ ?_
    · exact hw.same rfl rfl
    intro q hq
    simp only [Heap.get_alloc, ↓reduceIte, Option.some.injEq] at hq
    subst hq
    simp only [headerCrosses, hdst] at hcross
    -- the context found is recorded, so that the answer goes out from it
    cases remote_ctx with
    | some c =>
      obtain ⟨hf, rem, rem', hrem, hrem', -, hfd⟩ := hfound c rfl
      rw [hgives.queries]
      generalize resolv_mode.choose _ = chosen at hcross ⊢
      cases chosen with
      | none => rfl
      | some addr =>
        simp only [resolvCrosses, Option.map_none] at hf hcross ⊢
        simpa [hf, hrem, hrem', hfd] using hcross
    | none =>
      obtain ⟨rfl, hf⟩ := hmiss rfl
      exact hcross

theorem remote_recv_cb_families (h : Families w) (K : CryptoAll G) (junk : Block) (salt : Bytes) (c : Nat)
    (src_addr : SockAddr) (packet : Option Bytes) (sent : Bool) :
    (remote_recv_cb K junk salt w c src_addr packet sent).Yields Families := by
  refine Yields.deref_bind fun rem hrem => ?_
  cases packet with
  | none => exact Yields.pure h
  | some bs =>
    refine Yields.lift_bind fun buf _ => Yields.lift_bind fun buf' _ => Yields.lift_bind fun res _ => ?_
    obtain ⟨err, buf'', g⟩ := res
    dsimp only
    split
    · exact Yields.pure (h.same rfl rfl)
    split
    · exact Yields.pure (Families.update (w := { w with g }) (h.same rfl rfl) hrem rfl rfl)
    · exact Yields.pure (h.same rfl rfl)

theorem fire_families (hok : r.app.Ok) (h : Families r.app) (hcross : Crosses K N resolv_mode r e = false) :
    (fire K N resolv_mode r e).Yields fun r' => Families r'.app := by
  cases e with
  | serverRecv junk io now4 now6 src_addr packet =>
    simp only [fire, server_recv_cb]
    cases packet with
    | none => exact Yields.pure h
    | some bs =>
      refine Yields.lift_bind fun res hres => ?_
      simp only [Crosses, Option.map_some, hres] at hcross
      obtain ⟨g, received⟩ := res
      cases received with
      | none => exact Yields.pure (h.same rfl rfl)
      | some p =>
        refine serverRecvHeader_families (r := { r with app.g := g }) ?_ ?_ io now4 now6 src_addr p.1 p.2 hcross
        · exact hok.same rfl rfl
        · exact h.same rfl rfl
  | remoteRecv junk salt remote_ctx src_addr packet sent =>
    exact (remote_recv_cb_families h K junk salt remote_ctx src_addr packet sent).bind fun w hw => Yields.pure hw
  | remoteTimeout remote_ctx =>
    refine Yields.bind (P := Families) ?_ fun w hw => Yields.pure hw
    refine Yields.deref_bind fun rem _ => ?_
    generalize cache_remove r.app.conn_cache (hash_key rem.af rem.src_addr) = removed
    exact free_cb_families (h.with_cache removed.2) removed.1
  | answer q f he io =>
    refine Resolver.answer_yields (Q := Families) io he ?_ fun _ _ _ => h
    intro lookup hq hnull
    refine resolvClient_families h io _ _ ?_
    intro query hquery
    simpa [Crosses, hq, hnull, hquery] using hcross

/-! ### Runs -/

/-- In a run in which no answer goes out from a context of the other family, every `sendto` on the socket of a context
is to a destination of its family. -/
theorem families_agree (K : CryptoAll G) (N : NetLib) (resolv_mode : ResolvMode) {r : Resolver (World G)}
    (h : ((loop K N resolv_mode).guarded fun r e => Crosses K N resolv_mode r e = false).Reach r) :
    ∀ p ∈ r.app.sent, p.1 = p.2.ip.family := by
  have hinv : r.app.Ok ∧ Families r.app := by
    refine h.invariant (I := fun r => r.app.Ok ∧ Families r.app) ?_ ?_
    · rintro r ⟨g, rfl⟩
      refine ⟨initial_ok g, ?_, nofun⟩
      intro c rem f hc
      simp [initial] at hc
    · rintro r e r' - ⟨hok, hfam⟩ ⟨hcross, he, hfire⟩
      exact ⟨fire_ok hok he r' hfire, fire_families hok hfam hcross r' hfire⟩
  exact hinv.2.sent

/-- A client that asks for a host name with an IPv4 address and sends to an address. -/
theorem families_agree_two :
    ∃ r : Resolver (World CryptoStatics), r.app.sent.length = 2 ∧ ∀ p ∈ r.app.sent, p.1 = p.2.ip.family := by
  have hrun : (tagLoop (fun r e => !Crosses tagAll openNet .MODE_IPV4_FIRST r e) (tagRecorded ++ [tagLiteral 4])).map
      (fun r => r.app.sent.length) = some 2 := by
    decide +kernel
  obtain ⟨r, hr, hlen⟩ := Option.map_eq_some_iff.1 hrun
  refine ⟨r, hlen, families_agree tagAll openNet .MODE_IPV4_FIRST ?_⟩
  refine (Lts.Run.of_foldlM (fun r e r' h => ?_) hr).reach (.init ⟨_, rfl⟩)
  obtain ⟨hok, hfire⟩ := Lts.of_tryStep h
  obtain ⟨he, hg⟩ := Bool.and_eq_true_iff.1 hok
  exact ⟨by simpa using hg, he, hfire⟩

/-- The name has an IPv6 address, and no other. -/
def tagAnswer6 (q : Nat) (f : Family) : Event :=
  .answer q f (if f = .AF_INET6 then some [List.replicate 15 0 ++ [1]] else none) ⟨0, true, true⟩

/-- The second name of the client has an IPv6 address, which the IPv4 socket of the first one is used for. -/
theorem families_disagree :
    ∃ r, (loop tagAll openNet .MODE_IPV4_FIRST).Reach r ∧ ¬ ∀ p ∈ r.app.sent, p.1 = p.2.ip.family := by
  have hrun : (tagLoop (fun _ _ => true) (tagRecorded ++ [tagAnswer6 1 .AF_INET, tagAnswer6 1 .AF_INET6])).map
      (fun r => r.app.sent.all fun p => decide (p.1 = p.2.ip.family)) = some false := by
    decide +kernel
  obtain ⟨r, hr, hfacts⟩ := Option.map_eq_some_iff.1 hrun
  refine ⟨r, (Lts.Run.of_foldlM (fun r e r' h => ?_) hr).reach (.init ⟨_, rfl⟩), ?_⟩
  · obtain ⟨hok, hfire⟩ := Lts.of_tryStep h
    exact ⟨(Bool.and_eq_true_iff.1 hok).1, hfire⟩
  · intro hall
    rw [List.all_eq_true.2 fun p hp => decide_eq_true (hall p hp)] at hfacts
    cases hfacts

end OutlineServer.Udp
