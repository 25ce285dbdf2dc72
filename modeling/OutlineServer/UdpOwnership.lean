import OutlineServer.UdpRuns

/-!
# Who holds the contexts of the UDP relay

In every state that the event loop reaches, the live contexts are those of the cache, each under the key of its own
family and source. This needs nothing of the pending lookups: a callback that follows a freed pointer returns no state.
-/

namespace OutlineServer.Udp

open Mem

variable {G : Type} {K : CryptoAll G} {N : NetLib} {resolv_mode : ResolvMode} {w : World G} {r r' : Resolver (World G)}
  {c : Nat} {rem : RemoteCtx} {e : Event}

theorem World.Ok.same {w' : World G} (h : w.Ok) (hcache : w'.conn_cache = w.conn_cache)
    (hremotes : w'.remotes = w.remotes) : w'.Ok := by
  obtain ⟨hcap, hcached⟩ := h
  rw [← hcache] at hcap hcached
  rw [← hremotes] at hcached
  exact ⟨hcap, hcached⟩

/-- The context that a query has recorded is live, or the callback does not return. -/
theorem resolv_cb_ok (h : w.Ok) (io : NetIo) (addr : Option SockAddr) (d : Nat) :
    (resolv_cb io addr d w).Yields World.Ok := by
  cases hq : w.queries.get d with
  | none =>
    rw [resolv_cb, hq]
    exact Yields.error
  | some q =>
    by_cases hrec : ∀ c, q.remote_ctx = some c → Live w c
    · exact (resolv_cb_safe h hq hrec io addr).yields.mono fun w' hw' => hw'.ok
    · push Not at hrec
      obtain ⟨c, hc, hdead⟩ := hrec
      have hnone : w.remotes.get c = none := by
        by_contra hne
        exact hdead (Option.ne_none_iff_exists'.1 hne)
      rw [resolv_cb, hq, deref_some, ok_bind]
      cases addr with
      | none => exact Yields.pure h
      | some addr =>
        simp only [hc, hnone]
        exact Yields.error

theorem resolvClient_ok (h : w.Ok) (io : NetIo) (addr : Option SockAddr) (d : Nat) :
    ((resolvClient (G := G)).client_cb io addr d w >>= (resolvClient (G := G)).free_cb d).Yields World.Ok := by
  refine (resolv_cb_ok h io addr d).bind fun w' hw' => ?_
  exact Yields.deref_bind fun _ _ => Yields.pure (hw'.same rfl rfl)

theorem serverRecvHeader_ok (h : r.app.Ok) (io : NetIo) (now4 now6 : Option Answer) (src_addr : SockAddr) (buf : Buffer)
    (hdr : UdpHeader) :
    (serverRecvHeader resolv_mode io now4 now6 r src_addr buf hdr).Yields fun r' => r'.app.Ok := by
  refine (lookupRemote_safe h io _ src_addr).yields.bind ?_
  rintro ⟨w, remote_ctx⟩ ⟨hw, hlive, hmiss⟩
  cases hdst : hdr.dst with
  | some dst =>
    cases remote_ctx with
    | some c =>
      obtain ⟨rem, hrem⟩ := hlive c rfl
      exact (sendRemote_hit hw.ok hrem io dst _).yields.bind fun w' hw' => Yields.pure hw'.ok
    | none =>
      obtain ⟨rfl, hf⟩ := hmiss rfl
      rw [hdst, Option.map_some] at hf
      dsimp only
      split
      · exact (sendRemote_new h hf _ _ io dst).yields.bind fun w' hw' => Yields.pure hw'.ok
      · exact Yields.pure h
  | none =>
    refine Yields.lift_bind fun payload _ => Yields.lift_bind fun addr_header _ => ?_
    refine resolv_start_yields (Q := World.Ok) io hdr.port now4 now6 ?_ ?_
    · intro he4 he6 _ _
      refine resolvClient_ok ?_ io _ _
      exact hw.ok.same rfl rfl
    · intro _
      exact hw.ok.same rfl rfl

/-- Every event that returns. -/
theorem fire_ok (h : r.app.Ok) (he : enabled r e = true) : (fire K N resolv_mode r e).Yields fun r' => r'.app.Ok := by
  cases e with
  | serverRecv junk io now4 now6 src_addr packet =>
    simp only [fire, server_recv_cb]
    cases packet with
    | none => exact Yields.pure h
    | some bs =>
      refine Yields.lift_bind fun res _ => ?_
      obtain ⟨g, received⟩ := res
      have hg : World.Ok { r.app with g } := h.same rfl rfl
      cases received with
      | none => exact Yields.pure hg
      | some p => exact serverRecvHeader_ok (r := { r with app.g := g }) hg io now4 now6 src_addr p.1 p.2
  | remoteRecv junk salt remote_ctx src_addr packet sent =>
    rw [enabled, Bool.and_eq_true] at he
    obtain ⟨rem, hrem, -⟩ := (Option.any_eq_true _ _).1 he.1
    refine (remote_recv_cb_safe h ⟨rem, hrem⟩ K junk salt src_addr packet sent).yields.bind ?_
    exact fun w hw => Yields.pure hw.ok
  | remoteTimeout remote_ctx =>
    obtain ⟨rem, hrem, -⟩ := (Option.any_eq_true _ _).1 he
    exact (remote_timeout_cb_safe h ⟨rem, hrem⟩).yields.bind fun w hw => Yields.pure hw.ok
  | answer q f he' io =>
    refine Resolver.answer_yields (Q := World.Ok) io he' ?_ ?_
    · intro lookup _ _
      exact resolvClient_ok h io _ _
    · intro _ _ _
      exact h

theorem initial_ok (g : G) : (initial g : Resolver (World G)).app.Ok := (initial_inv g).app.ok

theorem ok_of_reach (h : (loop K N resolv_mode).Reach r) : r.app.Ok := by
  refine h.invariant (I := fun r => r.app.Ok) ?_ ?_
  · rintro r ⟨g, rfl⟩
    exact initial_ok g
  · rintro r e r' - hok ⟨he, hfire⟩
    exact fire_ok hok he r' hfire

/-- A live context is held by one entry. -/
theorem World.Ok.count (h : w.Ok) (hrem : w.remotes.get c = some rem) :
    (w.conn_cache.pairs.map Prod.snd).count c = 1 := by
  have hmem := (h.cached.mem (hash_key rem.af rem.src_addr) c).2 ⟨Option.some_ne_none c, rem, hrem, rfl⟩
  -- entries of one context have its key, and no two entries have one key
  have hnodup : (w.conn_cache.pairs.map Prod.snd).Nodup := by
    refine List.Nodup.map_on ?_ (List.Nodup.of_map Prod.fst h.cached.nodup)
    rintro ⟨k, d⟩ hk ⟨k', d'⟩ hk' rfl
    obtain ⟨-, rem₁, h₁, rfl⟩ := (h.cached.mem k d).1 hk
    obtain ⟨-, rem₂, h₂, rfl⟩ := (h.cached.mem k' d).1 hk'
    rw [h₁] at h₂
    cases h₂
    rfl
  exact List.count_eq_one_of_mem hnodup (List.mem_map.2 ⟨_, hmem, rfl⟩)

/-- In every reachable state, the cache has one entry for each context that has a watcher, under the key of its family
and source and of nobody else, and its timer takes that entry out. -/
theorem cache_owns (K : CryptoAll G) (N : NetLib) (resolv_mode : ResolvMode) {r : Resolver (World G)}
    (h : (loop K N resolv_mode).Reach r) :
    (r.app.conn_cache.pairs.map Prod.fst).Nodup ∧
      (∀ k c, (k, c) ∈ r.app.conn_cache.pairs →
        ∃ rem, r.app.remotes.get c = some rem ∧ k = hash_key rem.af rem.src_addr) ∧
      (∀ c rem, r.app.remotes.get c = some rem → rem.io = true ∨ rem.watcher = true →
        (r.app.conn_cache.pairs.map Prod.snd).count c = 1) ∧
      ∀ c rem, r.app.remotes.get c = some rem → rem.watcher = true →
        ∃ r', fire K N resolv_mode r (.remoteTimeout c) = .ok r' ∧
          r.app.conn_cache.pairs.Perm ((hash_key rem.af rem.src_addr, c) :: r'.app.conn_cache.pairs) := by
  have hok := ok_of_reach h
  refine ⟨hok.cached.nodup, fun k c hk => ((hok.cached.mem k c).1 hk).2, ?_, ?_⟩
  · intro c rem hrem _
    exact hok.count hrem
  · intro c rem hrem _
    obtain ⟨conn_cache, hcb, -, hperm⟩ := remote_timeout_cb_eq hok hrem
    refine ⟨{ r with app := { r.app with conn_cache, remotes := r.app.remotes.free c } }, ?_, hperm⟩
    rw [fire, hcb]
    rfl

/-- A datagram from 10.0.0.1:4000, for 127.0.0.1:80. -/
def tagLiteral (salt : UInt8) : Event :=
  .serverRecv (fun _ => 0) ⟨0, true, true⟩ none none ⟨.v4 [10, 0, 0, 1], [15, 160]⟩
    (some (List.replicate 16 salt ++ [1, 127, 0, 0, 1, 0, 80, 65] ++ List.replicate 16 0))

/-- A client with a context for host names and one for addresses. -/
theorem cache_owns_two :
    ∃ r : Resolver (World CryptoStatics), r.app.conn_cache.pairs.length = 2 ∧
      (r.app.conn_cache.pairs.map Prod.fst).Nodup ∧
      (∀ k c, (k, c) ∈ r.app.conn_cache.pairs →
        ∃ rem, r.app.remotes.get c = some rem ∧ k = hash_key rem.af rem.src_addr) ∧
      (∀ c rem, r.app.remotes.get c = some rem → rem.io = true ∨ rem.watcher = true →
        (r.app.conn_cache.pairs.map Prod.snd).count c = 1) ∧
      ∀ c rem, r.app.remotes.get c = some rem → rem.watcher = true →
        ∃ r', fire tagAll openNet .MODE_IPV4_FIRST r (.remoteTimeout c) = .ok r' ∧
          r.app.conn_cache.pairs.Perm ((hash_key rem.af rem.src_addr, c) :: r'.app.conn_cache.pairs) := by
  have hrun : (tagLoop (fun _ _ => true) (tagRecorded ++ [tagLiteral 4])).map
      (fun r => r.app.conn_cache.pairs.length) = some 2 := by
    decide +kernel
  obtain ⟨r, hr, hlen⟩ := Option.map_eq_some_iff.1 hrun
  refine ⟨r, hlen, cache_owns tagAll openNet .MODE_IPV4_FIRST ?_⟩
  refine (Lts.Run.of_foldlM (fun r e r' h => ?_) hr).reach (.init ⟨_, rfl⟩)
  obtain ⟨hok, hfire⟩ := Lts.of_tryStep h
  exact ⟨(Bool.and_eq_true_iff.1 hok).1, hfire⟩

end OutlineServer.Udp
