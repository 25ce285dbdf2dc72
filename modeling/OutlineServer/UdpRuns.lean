import OutlineServer.RelayRuns
import OutlineServer.StreamRuns
import OutlineServer.UdpSpec

/-!
# Pending lookups of the UDP relay

A `query_ctx` records the cached context of its client, if there is one, and `resolv_cb` uses it whatever has happened
since. As long as no event takes a recorded context out of the cache, every one that a pending query has recorded is
live (`Inv`), and no callback runs into freed memory.
-/

namespace OutlineServer.Udp

open Mem

variable {G : Type} {K : CryptoAll G} {N : NetLib} {resolv_mode : ResolvMode} {w w' : World G} {io : NetIo}
  {r : Resolver (World G)} {c d : Nat} {q : QueryCtx} {lost : Option Nat} {D : Nat → Prop} {src_addr : SockAddr}
  {now4 now6 : Option Answer} {e : Event} {S : Prop}

/-! ### What leaves the cache -/

/-- A pending query has recorded the context. -/
def Recorded (w : World G) (c : Nat) : Bool := w.queries.any fun q => q.remote_ctx = some c

/-- The answer to a query opens a context and puts it into the cache. -/
def resolvOpens (io : NetIo) (w : World G) (q : QueryCtx) (addr : Option SockAddr) : Bool :=
  addr.isSome && q.remote_ctx.isNone && (w.conn_cache.find (hash_key none q.src_addr)).isNone && io.socket && io.sendto

/-- A datagram does, or the answers that come at once. -/
def headerOpens (resolv_mode : ResolvMode) (io : NetIo) (now4 now6 : Option Answer) (w : World G)
    (src_addr : SockAddr) (h : UdpHeader) : Bool :=
  match h.dst, now4, now6 with
  | some dst, _, _ =>
    (w.conn_cache.find (hash_key (some dst.ip.family) src_addr)).isNone && io.socket && io.sendto
  | none, some he4, some he6 =>
    resolvOpens io w { src_addr, buf := [], addr_header := [], remote_ctx := none }
      (resolv_mode.choose (.both h.port w.queries.next he4 he6))
  | none, _, _ => false

/-- The context that an event takes out of the cache: its timer expires, or it is the oldest of a full cache. -/
def takes (K : CryptoAll G) (N : NetLib) (resolv_mode : ResolvMode) (r : Resolver (World G)) : Event → Option Nat
  | .serverRecv junk io now4 now6 src_addr packet =>
    match packet.map (recvHeader K N junk r.app.g) with
    | some (.ok (_, some (_, h))) =>
      if headerOpens resolv_mode io now4 now6 r.app src_addr h then r.app.conn_cache.victim else none
    | _ => none
  | .remoteRecv _ _ _ _ _ _ => none
  | .remoteTimeout remote_ctx => some remote_ctx
  | .answer q f he io =>
    match r.lookups.get q with
    | some lookup =>
      if all_requests_are_null (lookup.answered f he) then
        match r.app.queries.get lookup.data with
        | some query =>
          if resolvOpens io r.app query (resolv_mode.choose (lookup.answered f he)) then
            r.app.conn_cache.victim
          else
            none
        | none => none
      else
        none
    | none => none

/-- The event takes a context that a pending query has recorded. -/
def TakesRecorded (K : CryptoAll G) (N : NetLib) (resolv_mode : ResolvMode) (r : Resolver (World G)) (e : Event) :
    Bool :=
  (takes K N resolv_mode r e).any (Recorded r.app)

/-! ### What the queries keep -/

/-- `D` is the data of the pending lookups: each is a live query, and, if `S` holds, the context that it has recorded is
live. -/
structure Inv (S : Prop) (D : Nat → Prop) (w : World G) : Prop where
  ok : w.Ok
  live : ∀ d, (w.queries.get d).isSome ↔ D d
  recorded : S → ∀ d q c, w.queries.get d = some q → q.remote_ctx = some c → Live w c

theorem recorded_eq_true : Recorded w c = true ↔ ∃ d q, w.queries.get d = some q ∧ q.remote_ctx = some c := by
  simp [Recorded, Heap.any_iff]

namespace Inv

theorem gives (h : Inv True D w) (hw : Gives lost w w') (hlost : S → ∀ c, lost = some c → Recorded w c = false) :
    Inv S D w' where
  ok := hw.ok
  live := by
    rw [hw.queries]
    exact h.live
  recorded hS d q c hd hq := by
    rw [hw.queries] at hd
    refine hw.live c (h.recorded trivial d q c hd hq) fun heq => ?_
    have hrec := recorded_eq_true.2 ⟨d, q, hd, hq⟩
    rw [hlost hS c heq.symm] at hrec
    cases hrec

theorem alloc (h : Inv S D w) (hq : ∀ c, q.remote_ctx = some c → Live w c) :
    Inv S (fun e => D e ∨ e = w.queries.next) { w with queries := w.queries.alloc q } where
  ok := ⟨h.ok.cap, h.ok.cached⟩
  live d := by
    rw [Heap.get_alloc, ← h.live]
    split <;> simp [*]
  recorded hS d q' c hd hc := by
    rw [Heap.get_alloc] at hd
    split at hd
    · cases hd
      exact hq c hc
    · exact h.recorded hS d q' c hd hc

theorem weaken (h : Inv True D w) : Inv S D w := ⟨h.ok, h.live, fun _ => h.recorded trivial⟩

end Inv

theorem resolv_free_cb_safe (h : Inv S D w) (hd : D d) : (resolv_free_cb d w).Safe (Inv S fun e => D e ∧ e ≠ d) := by
  obtain ⟨q, hq⟩ := Option.isSome_iff_exists.1 ((h.live d).2 hd)
  refine Safe.deref_bind hq (Safe.pure ⟨⟨h.ok.cap, h.ok.cached⟩, fun e => ?_, fun hS e q' c he hc => ?_⟩)
  · rw [Heap.get_free, ← h.live]
    split <;> simp [*]
  · rw [Heap.get_free] at he
    split at he
    · cases he
    · exact h.recorded hS e q' c he hc

/-- The context recorded, or one that is cached by now, or a new one. -/
theorem resolv_cb_safe (h : w.Ok) (hq : w.queries.get d = some q) (hrec : ∀ c, q.remote_ctx = some c → Live w c)
    (io : NetIo) (addr : Option SockAddr) :
    (resolv_cb io addr d w).Safe (Gives (if resolvOpens io w q addr then w.conn_cache.victim else none) w) := by
  refine Safe.deref_bind hq ?_
  cases addr with
  | none => exact Safe.pure (.refl h)
  | some addr =>
    -- `dst_addr` is set, and the datagram goes out on the socket of the context
    have hsend : ∀ (w₁ : World G) (c : Nat), Gives none w w₁ → Live w₁ c →
        (do
          let rem ← deref (w₁.remotes.get c)
          sendRemote { w₁ with remotes := w₁.remotes.put c { rem with dst_addr := some addr } } io c addr true
            rem.af).Safe (Gives none w) := by
      rintro w₁ c hw ⟨rem, hrem⟩
      have hput := @World.Ok.put _ _ _ _ hw.ok hrem { rem with dst_addr := some addr } rfl
      refine Safe.deref_bind hrem ?_
      refine (sendRemote_hit hput.ok ((Heap.get_put hrem _ c).trans (if_pos rfl)) io addr rem.af).mono ?_
      exact fun w' hw' => (hw.trans hput).trans hw'
    cases hrc : q.remote_ctx with
    | some c =>
      simp only [resolvOpens, hrc, Option.isNone_some, Bool.and_false, Bool.false_and, Bool.false_eq_true, ↓reduceIte]
      exact hsend w c (.refl h) (hrec c hrc)
    | none =>
      cases hf : w.conn_cache.find (hash_key none q.src_addr) with
      | some tmp =>
        obtain ⟨rem, hrem, -⟩ := h.found hf
        have hfst := cache_lookup_fst io.now w.conn_cache (hash_key none q.src_addr)
        rw [hf, Option.map_some] at hfst
        simp only [resolvOpens, hf, Option.isNone_some, Bool.and_false, Bool.false_and, Bool.false_eq_true,
          ↓reduceIte, hfst]
        exact hsend _ tmp.data (h.lookup io.now _) ⟨rem, hrem⟩
      | none =>
        simp only [cache_lookup_miss hf, resolvOpens, hrc, hf, Option.isSome_some, Option.isNone_none,
          Bool.true_and]
        split
        · have hsocket : io.socket = true := ‹_›
          refine (sendRemote_new h hf addr.ip.family (some addr) io addr).mono fun w' hw' => ?_
          simpa only [hsocket, Bool.true_and] using hw'
        · have hsocket : io.socket = false := Bool.eq_false_iff.2 ‹_›
          simp only [hsocket, Bool.false_and, Bool.false_eq_true, ↓reduceIte]
          exact Safe.pure (.refl h)

/-- A lookup is answered, and its query is freed. -/
theorem resolvClient_keeps (h : Inv True D w) (hd : D d) (io : NetIo) (addr : Option SockAddr)
    (hlost : S → ∀ q c, w.queries.get d = some q → resolvOpens io w q addr = true → w.conn_cache.victim = some c →
      Recorded w c = false) :
    (resolvClient (G := G)).Keeps (Inv S) io addr d D w := by
  obtain ⟨q, hq⟩ := Option.isSome_iff_exists.1 ((h.live d).2 hd)
  refine Safe.bind (resolv_cb_safe h.ok hq (fun c hc => h.recorded trivial d q c hq hc) io addr) fun w' hw' => ?_
  refine resolv_free_cb_safe (h.gives hw' fun hS c hc => ?_) hd
  split at hc
  · exact hlost hS q c hq ‹_› hc
  · cases hc

/-! ### Events -/

/-- The entry of the context leaves the cache, and the context is freed. -/
theorem remote_timeout_cb_eq (h : w.Ok) (hrem : w.remotes.get c = some rem) :
    ∃ conn_cache, remote_timeout_cb w c = .ok { w with conn_cache, remotes := w.remotes.free c } ∧
      conn_cache.max_entries = w.conn_cache.max_entries ∧
      w.conn_cache.pairs.Perm ((hash_key rem.af rem.src_addr, c) :: conn_cache.pairs) := by
  have hmem := (h.cached.mem (hash_key rem.af rem.src_addr) c).2 ⟨Option.some_ne_none c, rem, hrem, rfl⟩
  cases hf : w.conn_cache.find (hash_key rem.af rem.src_addr) with
  | none => exact absurd hmem (Cache.not_mem_of_find hf c)
  | some tmp =>
    have hdata : tmp.data = c := by
      have heq := List.inj_on_of_nodup_map h.cached.nodup (Cache.mem_of_find hf) hmem rfl
      cases heq
      rfl
    have hperm := Cache.pairs_del hf
    rw [hdata] at hperm
    refine ⟨{ w.conn_cache with entries := w.conn_cache.del (hash_key rem.af rem.src_addr) }, ?_, rfl, hperm⟩
    rw [remote_timeout_cb, hrem, deref_some, ok_bind, cache_remove_eq hf, hdata]
    simp only [free_cb, close_and_free_remote, hrem, deref_some, ok_bind]
    rfl

theorem remote_timeout_cb_safe (h : w.Ok) (hc : Live w c) : (remote_timeout_cb w c).Safe (Gives (some c) w) := by
  obtain ⟨rem, hrem⟩ := hc
  obtain ⟨conn_cache, hcb, hmax, hperm⟩ := remote_timeout_cb_eq h hrem
  rw [hcb]
  refine Safe.pure ⟨⟨hmax.trans h.cap, (h.cached.perm hperm.symm).remove⟩, rfl, fun d hd hne => ?_⟩
  exact hd.free fun heq => hne (by rw [heq])

theorem remote_recv_cb_safe (h : w.Ok) (hc : Live w c) (K : CryptoAll G) (junk : Block) (salt : Bytes)
    (src_addr : SockAddr) (packet : Option Bytes) (sent : Bool) :
    (remote_recv_cb K junk salt w c src_addr packet sent).Safe (Gives none w) := by
  obtain ⟨rem, hrem⟩ := hc
  refine Safe.deref_bind hrem ?_
  cases packet with
  | none => exact Safe.pure (.refl h)
  | some bs =>
    refine Safe.lift_bind fun buf _ => Safe.lift_bind fun buf' _ => Safe.lift_bind fun res _ => ?_
    obtain ⟨err, buf'', g⟩ := res
    have hg : Gives none w { w with g } := ⟨⟨h.cap, h.cached⟩, rfl, fun _ hd _ => hd⟩
    dsimp only
    split
    · exact Safe.pure hg
    · split
      · exact Safe.pure (hg.trans (hg.ok.put hrem rfl))
      · exact Safe.pure hg

theorem setApp (h : r.Inv (Inv True) r.asked) (hw : Gives lost r.app w)
    (hlost : S → ∀ c, lost = some c → Recorded r.app c = false) :
    ({ r with app := w } : Resolver (World G)).Inv (Inv S) r.asked := h.set_app (h.app.gives hw hlost)

theorem lookupRemote_safe (h : w.Ok) (io : NetIo) (af : Option Family) (src_addr : SockAddr) :
    (lookupRemote io w af src_addr).Safe fun (w', remote_ctx) => Gives none w w' ∧
      (∀ c, remote_ctx = some c → Live w' c) ∧
      (remote_ctx = none → w' = w ∧ w.conn_cache.find (hash_key af src_addr) = none) := by
  rw [lookupRemote]
  cases hf : w.conn_cache.find (hash_key af src_addr) with
  | none =>
    simp only [cache_lookup_miss hf]
    exact Safe.pure ⟨.refl h, by simp, fun _ => ⟨rfl, trivial⟩⟩
  | some tmp =>
    obtain ⟨rem, hrem, hkey⟩ := h.found hf
    have hsrc : rem.src_addr = src_addr := (Prod.mk.inj hkey).2.symm
    have hfst := cache_lookup_fst io.now w.conn_cache (hash_key af src_addr)
    have hlook := h.lookup io.now (hash_key af src_addr)
    rw [hf, Option.map_some] at hfst
    simp only [hfst]
    refine Safe.deref_bind hrem ?_
    rw [if_pos hsrc]
    refine Safe.pure ⟨hlook.trans (hlook.ok.put hrem rfl), ?_, by simp⟩
    rintro c ⟨⟩
    exact Live.put (w := { w with conn_cache := _ }) ⟨rem, hrem⟩ hrem _

/-- A datagram whose header is in order. -/
theorem serverRecvHeader_safe (h : r.Inv (Inv True) r.asked) (io : NetIo) (now4 now6 : Option Answer)
    (src_addr : SockAddr) (buf : Buffer) (hdr : UdpHeader)
    (hlost : S → headerOpens resolv_mode io now4 now6 r.app src_addr hdr = true → ∀ c,
      r.app.conn_cache.victim = some c → Recorded r.app c = false) :
    (serverRecvHeader resolv_mode io now4 now6 r src_addr buf hdr).Safe fun r' => r'.Inv (Inv S) r'.asked := by
  refine Safe.bind (lookupRemote_safe h.app.ok io _ src_addr) ?_
  rintro ⟨w, remote_ctx⟩ ⟨hw, hlive, hmiss⟩
  cases hdst : hdr.dst with
  | some dst =>
    cases remote_ctx with
    | some c =>
      obtain ⟨rem, hrem⟩ := hlive c rfl
      refine Safe.bind (sendRemote_hit hw.ok hrem io dst _) fun w' hw' => Safe.pure ?_
      exact setApp (r := r) (w := w') h (hw.trans hw') (by simp)
    | none =>
      obtain ⟨rfl, hf⟩ := hmiss rfl
      rw [hdst, Option.map_some] at hf
      dsimp only
      split
      · have hsocket : io.socket = true := ‹_›
        refine Safe.bind (sendRemote_new h.app.ok hf _ _ io dst) fun w' hw' => Safe.pure ?_
        refine setApp (r := r) (w := w') h hw' fun hS c hc => ?_
        split at hc
        · have hsendto : io.sendto = true := ‹_›
          exact hlost hS (by simp [headerOpens, hdst, hf, hsocket, hsendto]) c hc
        · cases hc
      · exact Safe.pure (setApp (r := r) (w := r.app) h hw (by simp))
  | none =>
    refine Safe.lift_bind fun payload _ => Safe.lift_bind fun addr_header _ => ?_
    have hd : ¬ r.Owns w.queries.next := by
      rw [← h.app.live, hw.queries, Heap.get_next]
      exact Bool.noConfusion
    have hinv : Inv True r.Owns w := h.app.gives hw (by simp)
    refine resolv_start_safe (h.set_app h.app.weaken) hd
      (hinv.alloc hlive).weaken io hdr.port now4 now6 fun he4 he6 h4 h6 => ?_
    refine resolvClient_keeps (hinv.alloc hlive) (.inr rfl) io _ fun hS q c hq hopens hv => ?_
    rw [Heap.get_alloc, if_pos rfl] at hq
    cases hq
    -- the query that is answered has no context recorded
    have hnone : remote_ctx = none := by
      simp only [resolvOpens, Bool.and_eq_true, Option.isNone_iff_eq_none] at hopens
      exact hopens.1.1.1.2
    obtain ⟨rfl, hf⟩ := hmiss hnone
    subst hnone
    have hrec := hlost hS (by
      simp only [headerOpens, hdst, h4, h6]
      exact hopens) c hv
    refine Bool.eq_false_iff.2 fun htrue => ?_
    obtain ⟨d, q, hq, hc⟩ := recorded_eq_true.1 htrue
    rw [Heap.get_alloc] at hq
    split at hq
    · cases hq
      cases hc
    · rw [recorded_eq_true.2 ⟨d, q, hq, hc⟩] at hrec
      cases hrec

/-- Every event; the recorded contexts stay live if it leaves them in the cache. -/
theorem fire_safe (h : r.Inv (Inv True) r.asked) (he : enabled r e = true) :
    (fire K N resolv_mode r e).Safe fun r' => r'.Inv (Inv (TakesRecorded K N resolv_mode r e = false)) r'.asked := by
  have hlost : TakesRecorded K N resolv_mode r e = false → ∀ c, takes K N resolv_mode r e = some c →
      Recorded r.app c = false := by
    intro hg c hc
    rw [TakesRecorded, hc] at hg
    exact hg
  generalize (TakesRecorded K N resolv_mode r e = false) = S at hlost ⊢
  have hskip : r.Inv (Inv S) r.asked := h.set_app h.app.weaken
  cases e with
  | serverRecv junk io now4 now6 src_addr packet =>
    simp only [fire, server_recv_cb]
    cases packet with
    | none => exact Safe.pure hskip
    | some bs =>
      refine Safe.lift_bind fun res hres => ?_
      simp only [takes, Option.map_some, hres] at hlost
      obtain ⟨g, received⟩ := res
      have hinv : ({ r with app.g := g } : Resolver (World G)).Inv (Inv True) r.asked :=
        h.set_app ⟨⟨h.app.ok.cap, h.app.ok.cached⟩, h.app.live, h.app.recorded⟩
      cases received with
      | none => exact Safe.pure (hinv.set_app hinv.app.weaken)
      | some p =>
        refine serverRecvHeader_safe hinv io now4 now6 src_addr p.1 p.2 fun hS hopens c hc => hlost hS c ?_
        exact (if_pos hopens).trans hc
  | remoteRecv junk salt remote_ctx src_addr packet sent =>
    rw [enabled, Bool.and_eq_true] at he
    obtain ⟨rem, hrem, -⟩ := (Option.any_eq_true _ _).1 he.1
    refine Safe.bind (remote_recv_cb_safe h.app.ok ⟨rem, hrem⟩ K junk salt src_addr packet sent) fun w hw => ?_
    exact setApp (r := r) (w := w) h hw (by simp)
  | remoteTimeout remote_ctx =>
    obtain ⟨rem, hrem, -⟩ := (Option.any_eq_true _ _).1 he
    refine Safe.bind (remote_timeout_cb_safe h.app.ok ⟨rem, hrem⟩) fun w hw => ?_
    exact setApp (r := r) (w := w) h hw hlost
  | answer q f he' io =>
    refine r.answer_safe hskip (List.contains_iff_mem.1 he) io he' fun lookup hq hnull => ?_
    refine resolvClient_keeps h.app ⟨q, lookup, hq, rfl⟩ io _ fun hS query c hquery hopens hv => hlost hS c ?_
    simp only [takes, hq, hnull, ↓reduceIte, hquery, hopens, hv]

theorem initial_inv (g : G) : (initial g : Resolver (World G)).Inv (Inv True) [] where
  nodup := List.nodup_nil
  pending q f := by simp [initial]
  waits q query h := by cases h
  unique q q' query query' h := by cases h
  app := by
    refine ⟨⟨rfl, ⟨List.nodup_nil, fun k c => ?_⟩⟩, fun d => ?_, fun _ d q c h => ?_⟩
    · simp [initial, cache_create, Cache.pairs]
    · simp [initial, Resolver.Owns]
    · cases h

/-! ### A client that asks for a host name twice -/

def aeadAll (L : CryptoLib) (cipher : Cipher AeadMethod) : CryptoAll CryptoStatics where
  encrypt_all salt g plaintext := aead_encrypt_all L g salt plaintext cipher
  decrypt_all g ciphertext capacity := do
    let (ret, buf, g') ← aead_decrypt_all L g.toCryptoState ciphertext cipher capacity
    return (ret, buf, { g with toCryptoState := g' })

/-- With the key of `tagConn`. -/
def tagAll : CryptoAll CryptoStatics := aeadAll xorLib (aead_key_init .AES128GCM (List.replicate 16 1))

def tagLoop (ok : Resolver (World CryptoStatics) → Event → Bool) (es : List Event) :
    Option (Resolver (World CryptoStatics)) :=
  es.foldlM (Lts.tryStep (fun r e => enabled r e && ok r e) (fire tagAll openNet .MODE_IPV4_FIRST)) (initial .start)

/-- A datagram from 10.0.0.1:4000, for `a:80`. -/
def tagDatagram (salt : UInt8) : Event :=
  .serverRecv (fun _ => 0) ⟨0, true, true⟩ none none ⟨.v4 [10, 0, 0, 1], [15, 160]⟩
    (some (List.replicate 16 salt ++ [3, 1, 97, 0, 80, 65] ++ List.replicate 16 0))

def tagAnswer (q : Nat) (f : Family) : Event :=
  .answer q f (if f = .AF_INET then some [[127, 0, 0, 1]] else none) ⟨0, true, true⟩

/-- The first lookup has opened the context that the second one has recorded. -/
def tagRecorded : List Event := [tagDatagram 2, tagAnswer 0 .AF_INET, tagAnswer 0 .AF_INET6, tagDatagram 3]

/-! ### Answers -/

/-- As long as no event takes a context out of the cache that a pending query has recorded, the recorded ones are live,
and no callback runs into freed memory. -/
theorem recorded_live (K : CryptoAll G) (N : NetLib) (resolv_mode : ResolvMode) {r : Resolver (World G)}
    (h : ((loop K N resolv_mode).guarded fun r e => TakesRecorded K N resolv_mode r e = false).Reach r) :
    (∀ d q c, r.Owns d → r.app.queries.get d = some q → q.remote_ctx = some c → Live r.app c) ∧
      ∀ e, enabled r e = true → fire K N resolv_mode r e ≠ .error .freed := by
  have hinv : r.Inv (Inv True) r.asked := by
    refine h.invariant (I := fun r => r.Inv (Inv True) r.asked) ?_ ?_
    · rintro r ⟨g, rfl⟩
      exact initial_inv g
    · rintro r e r' - hinv ⟨hg, he, hfire⟩
      have hsafe := (fire_safe hinv he).of_ok hfire
      rwa [hg, eq_self] at hsafe
  refine ⟨fun d q c _ hq hc => hinv.app.recorded trivial d q c hq hc, fun e he => ?_⟩
  exact (fire_safe hinv he).ne_freed

theorem recorded_live_tagLoop :
    ∃ r : Resolver (World CryptoStatics), (r.app.queries.get 1).map QueryCtx.remote_ctx = some (some 0) ∧
      (∀ d q c, r.Owns d → r.app.queries.get d = some q → q.remote_ctx = some c → Live r.app c) ∧
      ∀ e, enabled r e = true → fire tagAll openNet .MODE_IPV4_FIRST r e ≠ .error .freed := by
  have hrun : (tagLoop (fun r e => !TakesRecorded tagAll openNet .MODE_IPV4_FIRST r e) tagRecorded).map
      (fun r => (r.app.queries.get 1).map QueryCtx.remote_ctx) = some (some (some 0)) := by
    decide +kernel
  obtain ⟨r, hr, hfacts⟩ := Option.map_eq_some_iff.1 hrun
  refine ⟨r, hfacts, recorded_live tagAll openNet .MODE_IPV4_FIRST ?_⟩
  refine (Lts.Run.of_foldlM (fun r e r' h => ?_) hr).reach (.init ⟨_, rfl⟩)
  obtain ⟨hok, hfire⟩ := Lts.of_tryStep h
  obtain ⟨he, hg⟩ := Bool.and_eq_true_iff.1 hok
  exact ⟨by simpa using hg, he, hfire⟩

/-- The context that the second lookup has recorded times out, and the second answer follows the pointer. -/
theorem recorded_freed :
    ∃ r, (loop tagAll openNet .MODE_IPV4_FIRST).Reach r ∧
      (r.app.queries.get 1).map QueryCtx.remote_ctx = some (some 0) ∧ ¬ Live r.app 0 ∧
      enabled r (tagAnswer 1 .AF_INET6) = true ∧
      fire tagAll openNet .MODE_IPV4_FIRST r (tagAnswer 1 .AF_INET6) = .error .freed := by
  have hrun : (tagLoop (fun _ _ => true) (tagRecorded ++ [.remoteTimeout 0, tagAnswer 1 .AF_INET])).map (fun r =>
      ((r.app.queries.get 1).map QueryCtx.remote_ctx, r.app.remotes.get 0, enabled r (tagAnswer 1 .AF_INET6),
        (fire tagAll openNet .MODE_IPV4_FIRST r (tagAnswer 1 .AF_INET6)).map fun _ => ())) =
      some (some (some 0), none, true, .error .freed) := by
    decide +kernel
  obtain ⟨r, hr, hfacts⟩ := Option.map_eq_some_iff.1 hrun
  simp only [Prod.mk.injEq] at hfacts
  obtain ⟨hquery, hgone, he, hfire⟩ := hfacts
  refine ⟨r, (Lts.Run.of_foldlM (fun r e r' h => ?_) hr).reach (.init ⟨_, rfl⟩), hquery, ?_, he, ?_⟩
  · obtain ⟨hok, hfire⟩ := Lts.of_tryStep h
    exact ⟨(Bool.and_eq_true_iff.1 hok).1, hfire⟩
  · rintro ⟨rem, hrem⟩
    rw [hgone] at hrem
    cases hrem
  · cases hr' : fire tagAll openNet .MODE_IPV4_FIRST r (tagAnswer 1 .AF_INET6) with
    | error e =>
      rw [hr'] at hfire
      exact congrArg Except.error (Except.error.inj hfire)
    | ok _ =>
      rw [hr'] at hfire
      cases hfire

end OutlineServer.Udp
