import OutlineServer.TcpLinks

/-!
# What each callback keeps

One triple for each callback of `Tcp.lean`: from `Inv own D` it follows live pointers only and ends in `Inv own D`.
`resolv_cb` leaves the `server_t` with both a `remote_t` and its query, until `resolv_free_cb` has run after it; `Mid`
is what holds in between. The one callback that needs a condition to keep every `remote_t` with its `server_t` is
`server_recv_cb`: a client in `STAGE_STOP` must not be closed while it has a `remote_t`.
-/

namespace OutlineServer.Tcp
open Mem

variable {Ctx G : Type} {w w' : World Ctx G} {server remote query : Nat} {s s' : Server Ctx} {rem : Remote}
  {own : Prop} {D : Nat → Prop} {K : CryptoT Ctx G} {N : NetLib} {resolv_mode : ResolvMode}

/-! ### Connecting -/

/-- `w'` is `w` after a connection has been made for `server`, or has failed and `server` has been closed. -/
structure Connected (w : World Ctx G) (server : Nat) (s : Server Ctx) (w' : World Ctx G) : Prop where
  links : w'.Links
  others : ∀ x, x ≠ server → w'.servers.get x = w.servers.get x
  self : w'.servers.get server = none ∨
    ∃ remote buf, w'.servers.get server = some { s with remote := some remote, buf }
  kept : Kept w w'
  remotes : ∀ x rem, w'.remotes.get x = some rem → w.remotes.get x = some rem ∨ rem.server = some server

theorem new_remote_get (w : World Ctx G) (junk : Block) (x : Nat) :
    (new_remote w junk).remotes.get x =
      if x = w.remotes.next then some ⟨balloc junk SOCKET_BUF_SIZE, false, false, false, none⟩
      else w.remotes.get x := Heap.get_alloc _ _ _

theorem World.Links.new_remote (h : w.Links) (junk : Block) : (new_remote w junk).Links :=
  ⟨h.remote.alloc_right rfl, h.query⟩

/-- `connect_to_remote` gives `NULL` or a new `remote_t` that points nowhere; fast open may take from `server->buf`. -/
theorem connect_to_remote_safe (h : w.Links) (hs : w.servers.get server = some s) (addr : SockAddr) (junk : Block)
    (t : Connect) :
    (connect_to_remote N addr w server junk t).Safe fun p => p.1.Links ∧
      (∃ buf, ∀ x, p.1.servers.get x = if x = server then some { s with buf } else w.servers.get x) ∧
      Kept w p.1 ∧ (∀ x, p.2 ≠ some x → p.1.remotes.get x = w.remotes.get x) ∧
      ∀ remote, p.2 = some remote → ∃ rem, p.1.remotes.get remote = some rem ∧ rem.server = none := by
  have hkept : Kept w w := ⟨fun _ => rfl, rfl, rfl⟩
  have htried : ({ w with connects := addr :: w.connects } : World Ctx G).Links := ⟨h.remote, h.query⟩
  have hself : ∃ buf, ∀ x, w.servers.get x = if x = server then some { s with buf } else w.servers.get x := by
    refine ⟨s.buf, fun x => ?_⟩
    split
    · subst x
      exact hs
    · rfl
  unfold connect_to_remote
  split
  · exact Safe.pure ⟨h, hself, hkept, fun _ _ => rfl, fun _ hp => by cases hp⟩
  cases t with
  | noSocket => exact Safe.pure ⟨h, hself, hkept, fun _ _ => rfl, fun _ hp => by cases hp⟩
  | fails =>
    have hnew := (new_remote_get { w with connects := addr :: w.connects } junk w.remotes.next).trans (if_pos rfl)
    refine (free_remote_safe (htried.new_remote junk) hnew).bind ?_
    rintro w' ⟨hl, hremotes, hkept', hservers⟩
    have hnewk : Kept w (new_remote { w with connects := addr :: w.connects } junk) := ⟨fun _ => rfl, rfl, rfl⟩
    refine Safe.pure ⟨hl, ?_, hnewk.trans hkept', fun x _ => ?_, fun _ hp => by cases hp⟩
    · obtain ⟨buf, hbuf⟩ := hself
      refine ⟨buf, fun x => ?_⟩
      rcases hservers x with ⟨hx, -⟩ | ⟨-, hget⟩
      · cases hx
      · exact hget.trans (hbuf x)
    · show w'.remotes.get x = w.remotes.get x
      rw [hremotes, Heap.get_free, new_remote_get]
      split
      · subst x
        exact (Heap.get_next _).symm
      · rfl
  | started =>
    refine Safe.pure ⟨htried.new_remote junk, hself, ⟨fun _ => rfl, rfl, rfl⟩, fun x hx => ?_, ?_⟩
    · exact (new_remote_get w junk x).trans (if_neg fun heq => hx (congrArg some heq.symm))
    · rintro remote hp
      cases hp
      exact ⟨_, (new_remote_get w junk _).trans (if_pos rfl), rfl⟩
  | fastOpen n =>
    refine Safe.deref_bind hs (Safe.lift_bind fun _ _ => Safe.pure ⟨?_, ⟨_, fun x => Heap.get_put hs _ x⟩,
      ⟨fun _ => rfl, rfl, rfl⟩, ?_, ?_⟩)
    · have hput : ∀ buf, ({ w with
          servers := w.servers.put server { s with buf }, connects := addr :: w.connects } : World Ctx G).Links :=
        fun buf => htried.put_server hs rfl rfl
      exact (hput _).new_remote junk
    · intro x hx
      exact (new_remote_get _ junk x).trans (if_neg fun heq => hx (congrArg some heq.symm))
    · rintro remote hp
      cases hp
      exact ⟨_, (new_remote_get _ junk _).trans (if_pos rfl), rfl⟩

/-- `server` and a `remote_t` that point nowhere are made to point to each other. -/
theorem attachRemote_safe (h : w.Links) (hs : w.servers.get server = some s) (hnone : s.remote = none)
    (hr : w.remotes.get remote = some rem) (hrnone : rem.server = none) :
    (attachRemote w server (some remote)).Safe fun w' => w'.Links ∧
      (∃ buf, ∀ x, w'.servers.get x =
        if x = server then some { s with remote := some remote, buf } else w.servers.get x) ∧
      Kept w w' ∧
      ∃ rem', rem'.server = some server ∧ ∀ x, w'.remotes.get x = if x =
        remote then some rem' else w.remotes.get x := by
  have htie : ∀ (buf : Buffer) (rem' : Remote), rem'.server = some server →
      ({ w with
        servers := w.servers.put server { s with remote := some remote, buf }
        remotes := w.remotes.put remote rem' } : World Ctx G).Links :=
    fun buf rem' hrem' => ⟨h.remote.tie hs hnone hr hrnone rfl hrem', h.query.put_left hs rfl⟩
  refine Safe.deref_bind hs (Safe.deref_bind hr ?_)
  split
  · refine Safe.lift_bind fun payload _ => Safe.lift_bind fun rbuf _ => Safe.pure ?_
    exact ⟨htie _ _ rfl, ⟨_, Heap.get_put hs _⟩, ⟨fun _ => rfl, rfl, rfl⟩, _, rfl, Heap.get_put hr _⟩
  · exact Safe.pure ⟨htie s.buf _ rfl, ⟨_, Heap.get_put hs _⟩, ⟨fun _ => rfl, rfl, rfl⟩, _, rfl, Heap.get_put hr _⟩

theorem connect_attach_safe (h : w.Links) (hs : w.servers.get server = some s) (hnone : s.remote = none)
    (addr : SockAddr) (junk : Block) (t : Connect) :
    (do
      let (w, remote) ← connect_to_remote N addr w server junk t
      attachRemote w server remote).Safe (Connected w server s) := by
  refine (connect_to_remote_safe h hs addr junk t).bind ?_
  rintro ⟨w₁, remote⟩ ⟨hl, ⟨buf, hservers⟩, hkept, hothers, hnew⟩
  have hs₁ : w₁.servers.get server = some { s with buf } := (hservers server).trans (if_pos rfl)
  cases remote with
  | none =>
    refine (close_and_free_server_safe hl hs₁).mono ?_
    rintro w' ⟨hl', hservers', hkept', hremotes'⟩
    refine ⟨hl', fun x hx => ?_, .inl ?_, hkept.trans hkept', fun x rem hx => ?_⟩
    · rw [hservers', if_neg hx]
      exact (hservers x).trans (if_neg hx)
    · rw [hservers', if_pos rfl]
    · rcases hremotes' x rem hx with hx | hx
      · exact .inl ((hothers x (by simp)).symm.trans hx)
      · exact absurd (hnone.symm.trans hx) (by simp)
  | some remote =>
    obtain ⟨rem, hr, hrnone⟩ := hnew remote rfl
    refine (attachRemote_safe hl hs₁ hnone hr hrnone).mono ?_
    rintro w' ⟨hl', ⟨buf', hservers'⟩, hkept', rem', hrem', hremotes'⟩
    refine ⟨hl', fun x hx => ?_, .inr ⟨remote, buf', ?_⟩, hkept.trans hkept', fun x rem hx => ?_⟩
    · rw [hservers', if_neg hx]
      exact (hservers x).trans (if_neg hx)
    · rw [hservers', if_pos rfl]
    · rw [hremotes'] at hx
      split at hx
      · cases hx
        exact .inr hrem'
      · refine .inl ((hothers x ?_).symm.trans hx)
        intro heq
        exact ‹¬x = remote› (Option.some.inj heq).symm

theorem Connected.owned (hc : Connected w server s w')
    (h : own → ∀ remote rem, w.remotes.get remote = some rem → rem.server ≠ none) :
    own → ∀ remote rem, w'.remotes.get remote = some rem → rem.server ≠ none := by
  intro ho x rem hx
  rcases hc.remotes x rem hx with hx | hx
  · exact h ho x rem hx
  · rw [hx]
    exact Option.some_ne_none _

/-! ### Lookups -/

/-- Between `resolv_cb` and `resolv_free_cb`: the `server_t` that still points to `query` is as it
will be without it. -/
structure Mid (own : Prop) (D : Nat → Prop) (query : Nat) (w : World Ctx G) : Prop where
  links : w.Links
  ok : ∀ server s, w.servers.get server = some s → s.query ≠ some query → s.Ok
  served : ∀ server s, w.servers.get server = some s → s.query = some query → { s with query := none }.Ok
  queries : w.Queries D
  owned : own → ∀ remote rem, w.remotes.get remote = some rem → rem.server ≠ none

theorem Server.Ok.forget (h : s.Ok) : { s with query := none }.Ok where
  stream := h.stream
  header := h.header
  resolve := h.resolve
  query hq := absurd rfl hq

theorem Inv.mid (h : Inv own D w) (query : Nat) : Mid own D query w where
  links := h.links
  ok x s hx _ := h.ok x s hx
  served x s hx _ := (h.ok x s hx).forget
  queries := h.queries
  owned := h.owned

theorem World.Queries.free (h : w.Queries D) {q : Query} (hq : w.queries.get query = some q) :
    ({ w with queries := w.queries.free query, freed := query :: w.freed } : World Ctx G).Queries
      fun e => D e ∧ e ≠ query where
  live x := by
    rw [Heap.get_free, ← h.live]
    split <;> simp [*]
  freed x := by
    have hx := h.freed x
    simp only [List.count_cons, Heap.next_free, Heap.get_free]
    by_cases hxq : x = query
    · subst hxq
      have hlt := Heap.lt_next_of_get hq
      simp_all
    · simp [hxq, Ne.symm hxq, hx]

theorem resolv_free_cb_safe (h : Mid own D query w) (hD : D query) :
    (resolv_free_cb query w).Safe (Inv own fun e => D e ∧ e ≠ query) := by
  obtain ⟨q, hq⟩ := Option.isSome_iff_exists.1 ((h.queries.live query).2 hD)
  have hfreed := h.queries.free hq
  refine Safe.deref_bind hq ?_
  cases hserver : q.server with
  | none =>
    refine Safe.pure ⟨⟨h.links.remote, h.links.query.free_right hq hserver⟩, fun x s hx => ?_,
      ⟨hfreed.live, hfreed.freed⟩, h.owned⟩
    refine h.ok x s hx fun hsq => ?_
    obtain ⟨q', hq', hx'⟩ := h.links.query.target hx hsq
    rw [hq] at hq'
    cases hq'
    rw [hserver] at hx'
    cases hx'
  | some server =>
    obtain ⟨s, hs, hsq⟩ := h.links.query.symm.target hq hserver
    refine Safe.deref_bind hs (Safe.pure ⟨⟨h.links.remote.put_left hs rfl, ?_⟩, fun x s' hx => ?_,
      ⟨hfreed.live, hfreed.freed⟩, h.owned⟩)
    · exact h.links.query.cut ⟨s, hs, hsq⟩ (fun _ _ => Heap.points_put_none hs rfl) fun _ _ => Heap.points_free
    · simp only [Heap.get_put hs] at hx
      split at hx
      · cases hx
        exact h.served server s hs hsq
      · refine h.ok x s' hx fun hsq' => ?_
        obtain ⟨q', hq', hx'⟩ := h.links.query.target hx hsq'
        rw [hq] at hq'
        cases hq'
        exact ‹¬x = server› (Option.some.inj (hx'.symm.trans hserver))

theorem resolv_cb_safe (h : Inv own D w) (hD : D query) (x : Block × Connect) (addr : Option SockAddr) :
    (resolv_cb N x addr query w).Safe (Mid own D query) := by
  obtain ⟨q, hq⟩ := Option.isSome_iff_exists.1 ((h.queries.live query).2 hD)
  refine Safe.deref_bind hq ?_
  cases hserver : q.server with
  | none => exact Safe.pure (h.mid query)
  | some server =>
    obtain ⟨s, hs, hsq⟩ := h.links.query.symm.target hq hserver
    obtain ⟨hstage, hnone⟩ := (h.ok server s hs).query (by simp [hsq])
    refine Safe.deref_bind hs ?_
    cases addr with
    | none =>
      refine (close_and_free_server_inv h.links hs (fun x s _ hx => h.ok x s hx) h.queries ?_).mono fun w' h' =>
        h'.mid query
      exact fun ho => ⟨hnone, h.owned ho⟩
    | some addr =>
      refine (connect_attach_safe h.links hs hnone addr x.1 x.2).mono ?_
      intro w' hc
      refine ⟨hc.links, fun x s' hx hne => ?_, fun x s' hx hsq' => ?_, h.queries.kept hc.kept, hc.owned h.owned⟩
      · by_cases hxs : x = server
        · subst hxs
          rcases hc.self with hgone | ⟨remote, buf, hgot⟩
          · rw [hgone] at hx
            cases hx
          · rw [hgot] at hx
            cases hx
            exact absurd hsq hne
        · exact h.ok x s' (hc.others x hxs ▸ hx)
      · by_cases hxs : x = server
        · subst hxs
          rcases hc.self with hgone | ⟨remote, buf, hgot⟩
          · rw [hgone] at hx
            cases hx
          · rw [hgot] at hx
            cases hx
            refine ⟨fun _ => Option.some_ne_none _, fun hst => ?_, fun _ => (h.ok x s hs).resolve hstage,
              fun hq => absurd rfl hq⟩
            exact absurd (hstage.symm.trans hst) (by decide)
        · exact (h.ok x s' (hc.others x hxs ▸ hx)).forget

theorem resolvClient_contract (N : NetLib) (own : Prop) :
    ((@resolvClient Ctx G) N).Contract (Inv own) := by
  intro x addr query D w h hD
  exact (resolv_cb_safe h hD x addr).bind fun w' h' => resolv_free_cb_safe h' hD

/-! ### The client's socket -/

variable {r : Resolver (World Ctx G)}

theorem new_server_inv (h : Inv own D w) (junk : Block) (e_ctx d_ctx : Ctx) :
    Inv own D (new_server w junk e_ctx d_ctx) where
  links := ⟨h.links.remote.alloc_left rfl, h.links.query.alloc_left rfl⟩
  ok x s hx := by
    simp only [new_server, Heap.get_alloc] at hx
    split at hx
    · cases hx
      refine ⟨fun hst => ?_, fun _ _ => rfl, fun hst => ?_, fun hq => absurd rfl hq⟩ <;> cases hst
    · exact h.ok x s hx
  queries := h.queries.kept ⟨fun _ => rfl, rfl, rfl⟩
  owned := h.owned

theorem serverRecvStream_safe (h : Inv own D w) (hs : w.servers.get server = some s) (hrecv : s.recv_io = true)
    (hsr : s.remote = some remote) (hr : w.remotes.get remote = some rem) (buf : Buffer)
    (d_ctx : Ctx) (ret : CryptoRet) (send : Send) :
    (serverRecvStream w server { s with d_ctx } remote { rem with buf } ret send).Safe (Inv own D) := by
  have hok := h.ok server s hs
  have hclose : (closeBoth w (some remote) server).Safe (Inv own D) := by
    rw [← hsr]
    exact closeBoth_inv h hs
  have hput : ∀ (s' : Server Ctx) (rem' : Remote), s'.remote = s.remote → s'.query = s.query → s'.Ok →
      rem'.server = rem.server →
      Inv own D { w with servers := w.servers.put server s', remotes := w.remotes.put remote rem' } :=
    fun s' rem' h₁ h₂ h₃ h₄ => h.put_both hs hr h₁ h₂ h₃ h₄
  cases ret with
  | CRYPTO_ERROR =>
    exact Safe.pure (hput _ _ rfl rfl ((hok.stop hrecv).congr rfl (.inl rfl) rfl rfl) rfl)
  | CRYPTO_NEED_MORE => exact Safe.pure (hput _ _ rfl rfl (hok.congr rfl (.inl rfl) rfl rfl) rfl)
  | CRYPTO_OK =>
    cases send with
    | error => exact hclose
    | again => exact Safe.pure (hput _ _ rfl rfl (hok.congr rfl (.inr rfl) rfl rfl) rfl)
    | sent n =>
      refine Safe.lift_bind fun _ _ => ?_
      split
      · exact Safe.pure (hput _ _ rfl rfl (hok.congr rfl (.inr rfl) rfl rfl) rfl)
      · exact Safe.pure (hput _ _ rfl rfl (hok.congr rfl (.inl rfl) rfl rfl) rfl)

/-- A new lookup: the `server_t` and its `query_t` point to each other. -/
theorem Inv.start_query (h : Inv own D w) (hs : w.servers.get server = some s) (hr : s.remote = none)
    (hq : s.query = none) (hr' : s'.remote = none) (hq' : s'.query = some w.queries.next) (hstage : s'.stage = .RESOLVE)
    (hrecv : s'.recv_io = false) (host : Bytes) :
    Inv own (fun e => D e ∨ e = w.queries.next) { w with
      servers := w.servers.put server s'
      queries := w.queries.alloc { server := some server, hostname := host } } where
  links := ⟨h.links.remote.put_left hs (hr'.trans hr.symm), h.links.query.tie_alloc hs hq hq' rfl⟩
  ok x srv hx := by
    rw [Heap.get_put hs] at hx
    split at hx
    · cases hx
      refine ⟨fun hst => ?_, fun hst => ?_, fun _ => hrecv, fun _ => ⟨hstage, hr'⟩⟩
      · rw [hstage] at hst
        cases hst
      · rw [hstage] at hst
        cases hst
    · exact h.ok x srv hx
  queries := by
    refine ⟨fun x => ?_, fun x => ?_⟩
    · rw [Heap.get_alloc, ← h.queries.live]
      split <;> simp [*]
    · have hx := h.queries.freed x
      rw [Heap.get_alloc, Heap.next_alloc]
      split
      · simp_all
      · rw [hx]
        exact if_congr (and_congr_left fun _ => by omega) rfl rfl
  owned := h.owned

/-- A connection made at once, without a query. -/
theorem connect_inv (h : Inv own D w) (hs : w.servers.get server = some s) (hr : s.remote = none)
    (hq : s.query = none) (hrecv : s.recv_io = false) (addr : SockAddr) (junk : Block) (t : Connect) :
    (do
      let (w, remote) ← connect_to_remote N addr w server junk t
      attachRemote w server remote).Safe (Inv own D) := by
  refine (connect_attach_safe h.links hs hr addr junk t).mono ?_
  intro w' hc
  refine ⟨hc.links, fun x s' hx => ?_, h.queries.kept hc.kept, hc.owned h.owned⟩
  · by_cases hxs : x = server
    · subst hxs
      rcases hc.self with hgone | ⟨remote, buf, hgot⟩
      · rw [hgone] at hx
        cases hx
      · rw [hgot] at hx
        cases hx
        refine ⟨fun _ => Option.some_ne_none _, fun _ hrecv' => ?_, fun _ => hrecv, fun hq' => absurd hq hq'⟩
        exact absurd (hrecv.symm.trans hrecv') (by decide)
    · exact h.ok x s' (hc.others x hxs ▸ hx)

/-- In `STAGE_INIT`. -/
theorem serverRecvInit_safe (h : r.Inv (Inv own) r.asked) (hs : r.app.servers.get server = some s)
    (hstage : s.stage = .INIT) (hrecv : s.recv_io = true) (x : Block × Connect) (now4 now6 : Option Answer)
    (buf : Buffer) (d_ctx : Ctx) (ret : CryptoRet) :
    (serverRecvInit N resolv_mode x now4 now6 r server { s with buf, d_ctx } ret).Safe
      fun r' => r'.Inv (Inv own) r'.asked := by
  have happ := h.app
  have hok := happ.ok server s hs
  have hnone : s.remote = none := hok.header hstage hrecv
  have hquery : s.query = none := by
    by_contra hq
    exact absurd (hstage.symm.trans (hok.query hq).1) (by decide)
  have hput : ∀ s' : Server Ctx, s'.remote = s.remote → s'.query = s.query → s'.Ok →
      ({ r with app.servers := r.app.servers.put server s' } : Resolver (World Ctx G)).Inv (Inv own) r.asked :=
    fun s' h₁ h₂ h₃ => h.set_app (happ.put_server hs h₁ h₂ h₃)
  have hset : ∀ {x : Mem Fault (World Ctx G)}, x.Safe (Inv own r.Owns) →
      (do return { r with app := ← x } : Mem Fault (Resolver (World Ctx G))).Safe fun r' => r'.Inv (Inv own) r'.asked :=
    fun hx => hx.bind fun app happ => Safe.pure (h.set_app happ)
  have hstop : ({ s with buf, d_ctx } : Server Ctx).stop_server.Ok := (hok.stop hrecv).congr rfl (.inl rfl) rfl rfl
  cases ret with
  | CRYPTO_ERROR => exact Safe.pure (hput _ rfl rfl hstop)
  | CRYPTO_NEED_MORE => exact Safe.pure (hput _ rfl rfl (hok.congr rfl (.inl rfl) rfl rfl))
  | CRYPTO_OK =>
    refine Safe.lift_bind fun request _ => ?_
    cases request with
    | stop => exact Safe.pure (hput _ rfl rfl hstop)
    | blocked => exact hset (closeServer_inv happ hs fun _ => hnone)
    | connect addr offset =>
      have hnew : Server.Ok { s with
          buf := { buf with len := buf.len - offset, idx := offset }, d_ctx, recv_io := false } :=
        hok.congr rfl (.inr rfl) rfl rfl
      have hinv := happ.put_server hs (by rfl) (by rfl) hnew
      have hconn :=
        hset (connect_inv (N := N) hinv ((Heap.get_put hs _ server).trans (if_pos rfl)) hnone hquery rfl addr x.1 x.2)
      rw [bind_assoc] at hconn
      exact hconn
    | query host port offset =>
      have hD : ¬ r.Owns r.app.queries.next := by
        rw [← happ.queries.live, Heap.get_next]
        exact Bool.noConfusion
      refine (resolvClient_contract N own).start_safe h hD ?_ x port now4 now6
      refine happ.start_query hs hnone hquery ?_ rfl rfl rfl host
      exact hnone

theorem server_recv_cb_safe (h : r.Inv (Inv own) r.asked) (hs : r.app.servers.get server = some s)
    (hrecv : s.recv_io = true) (x : Block × Connect) (now4 now6 : Option Answer) (recv : Recv) (send : Send)
    (hclose : own → recv = .eof ∨ recv = .error → s.stage = .STOP → s.remote = none) :
    (server_recv_cb K N resolv_mode x now4 now6 recv send r server).Safe fun r' => r'.Inv (Inv own) r'.asked := by
  have happ := h.app
  have hok := happ.ok server s hs
  have hset : ∀ {x : Mem Fault (World Ctx G)}, x.Safe (Inv own r.Owns) →
      (do return { r with app := ← x } : Mem Fault (Resolver (World Ctx G))).Safe fun r' => r'.Inv (Inv own) r'.asked :=
    fun hx => hx.bind fun app happ => Safe.pure (h.set_app happ)
  refine Safe.deref_bind hs ?_
  split
  · have hstage : s.stage = .STREAM := ‹_›
    obtain ⟨remote, hsr⟩ := Option.ne_none_iff_exists'.1 (hok.stream hstage)
    obtain ⟨rem, hr, -⟩ := happ.links.remote.target hs hsr
    refine Safe.deref_bind hsr (Safe.deref_bind hr ?_)
    have hboth : (closeBoth r.app (some remote) server).Safe (Inv own r.Owns) := by
      rw [← hsr]
      exact closeBoth_inv happ hs
    cases recv with
    | again => exact Safe.pure h
    | eof => exact hset hboth
    | error => exact hset hboth
    | data bs =>
      refine Safe.lift_bind fun buf _ => Safe.lift_bind fun p _ => ?_
      obtain ⟨ret, buf, d_ctx, g⟩ := p
      exact hset (serverRecvStream_safe (happ.set_g g) hs hrecv hsr hr buf d_ctx ret send)
  · have hstage : ¬ s.stage = .STREAM := ‹_›
    have hone : own → recv = .eof ∨ recv = .error → s.remote = none := by
      intro ho he
      cases hst : s.stage with
      | INIT => exact hok.header hst hrecv
      | RESOLVE => exact absurd ((hok.resolve hst).symm.trans hrecv) (by decide)
      | STREAM => exact absurd hst hstage
      | STOP => exact hclose ho he hst
    cases recv with
    | again => exact Safe.pure h
    | eof => exact hset (closeServer_inv happ hs fun ho => hone ho (.inl rfl))
    | error => exact hset (closeServer_inv happ hs fun ho => hone ho (.inr rfl))
    | data bs =>
      refine Safe.lift_bind fun buf _ => ?_
      split
      · exact Safe.pure (h.set_app (happ.put_server hs rfl rfl (hok.congr rfl (.inl rfl) rfl rfl)))
      refine Safe.lift_bind fun p _ => ?_
      obtain ⟨ret, buf, d_ctx, g⟩ := p
      dsimp only
      have hinit : s.stage = .INIT := by
        cases hst : s.stage with
        | INIT => rfl
        | RESOLVE => exact absurd ((hok.resolve hst).symm.trans hrecv) (by decide)
        | STREAM => exact absurd hst hstage
        | STOP => exact absurd hst ‹_›
      rw [if_neg fun hret => hret.2 hinit]
      exact serverRecvInit_safe (r := { r with app.g := g }) (h.set_app (happ.set_g g)) hs hinit hrecv x now4 now6 buf
        d_ctx ret

theorem server_send_cb_safe (h : Inv own D w) (hs : w.servers.get server = some s) (send : Send) :
    (server_send_cb w server send).Safe (Inv own D) := by
  have hok := h.ok server s hs
  refine Safe.deref_bind hs ?_
  cases hsr : s.remote with
  | none => exact closeServer_inv h hs fun _ => hsr
  | some remote =>
    obtain ⟨rem, hr, -⟩ := h.links.remote.target hs hsr
    have hboth : (closeBoth w (some remote) server).Safe (Inv own D) := by
      rw [← hsr]
      exact closeBoth_inv h hs
    dsimp only
    split
    · exact hboth
    cases send with
    | error => exact hboth
    | again => exact Safe.pure h
    | sent n =>
      refine Safe.lift_bind fun _ _ => ?_
      split
      · exact Safe.pure (h.put_server hs hsr.symm rfl (hok.congr rfl (.inl rfl) hsr.symm rfl))
      · refine Safe.deref_bind hr (Safe.pure ?_)
        exact h.put_both hs hr hsr.symm rfl (hok.congr rfl (.inl rfl) hsr.symm rfl) rfl

theorem server_timeout_cb_safe (h : Inv own D w) (hs : w.servers.get server = some s) :
    (server_timeout_cb w server).Safe (Inv own D) := Safe.deref_bind hs (closeBoth_inv h hs)

/-! ### The destination's socket -/

theorem remote_recv_cb_safe (h : Inv own D w) (hr : w.remotes.get remote = some rem) (recv : Recv) (send : Send) :
    (remote_recv_cb K w remote recv send).Safe (Inv own D) := by
  refine Safe.deref_bind hr ?_
  cases hrs : rem.server with
  | none => exact close_orphan_inv h hr hrs
  | some server =>
    obtain ⟨s, hs, hsr⟩ := h.links.remote.symm.target hr hrs
    have hok := h.ok server s hs
    have hboth : ∀ g : G, (closeBoth { w with g } (some remote) server).Safe (Inv own D) := by
      intro g
      rw [← hsr]
      exact closeBoth_inv (h.set_g g) hs
    refine Safe.deref_bind hs ?_
    cases recv with
    | again => exact Safe.pure h
    | eof => exact hboth w.g
    | error => exact hboth w.g
    | data bs =>
      refine Safe.lift_bind fun buf _ => ?_
      split
      · exact Safe.pure (h.put_server hs rfl rfl (hok.congr rfl (.inl rfl) rfl rfl))
      refine Safe.lift_bind fun p _ => ?_
      obtain ⟨ret, buf, e_ctx, g⟩ := p
      dsimp only
      split
      · exact hboth g
      cases send with
      | error => exact hboth g
      | again => exact Safe.pure ((h.set_g g).put_both hs hr rfl rfl (hok.congr rfl (.inl rfl) rfl rfl) hrs.symm)
      | sent n =>
        refine Safe.lift_bind fun _ _ => ?_
        split
        · exact Safe.pure ((h.set_g g).put_both hs hr rfl rfl (hok.congr rfl (.inl rfl) rfl rfl) hrs.symm)
        · exact Safe.pure ((h.set_g g).put_server hs rfl rfl (hok.congr rfl (.inl rfl) rfl rfl))

theorem remoteSendData_safe (h : Inv own D w) (hr : w.remotes.get remote = some rem)
    (hs : w.servers.get server = some s) (hsr : s.remote = some remote) {rem' : Remote}
    (hrem' : rem'.server = rem.server) (send : Send) :
    (remoteSendData w remote rem' server s send).Safe (Inv own D) := by
  have hok := h.ok server s hs
  have hboth : (closeBoth w (some remote) server).Safe (Inv own D) := by
    rw [← hsr]
    exact closeBoth_inv h hs
  simp only [remoteSendData]
  split
  · exact hboth
  cases send with
  | error => exact hboth
  | again => exact Safe.pure (h.put_remote hr hrem')
  | sent n =>
    refine Safe.lift_bind fun _ _ => ?_
    split
    · exact Safe.pure (h.put_remote hr hrem')
    split
    · have hstage : s.stage = .STREAM := ‹_›
      exact Safe.pure (h.put_both hs hr rfl rfl (hok.streaming hsr hstage rfl rfl) hrem')
    · exact Safe.pure (h.put_both hs hr rfl rfl (hok.streaming hsr rfl rfl rfl) hrem')

theorem remote_send_cb_safe (h : Inv own D w) (hr : w.remotes.get remote = some rem) (connected : Bool) (send : Send) :
    (remote_send_cb w remote connected send).Safe (Inv own D) := by
  refine Safe.deref_bind hr ?_
  cases hrs : rem.server with
  | none => exact close_orphan_inv h hr hrs
  | some server =>
    obtain ⟨s, hs, hsr⟩ := h.links.remote.symm.target hr hrs
    have hok := h.ok server s hs
    refine Safe.deref_bind hs ?_
    split
    · exact remoteSendData_safe h hr hs hsr rfl send
    split
    · dsimp only
      split
      · exact Safe.pure (h.put_both hs hr rfl rfl (hok.streaming hsr rfl rfl rfl) hrs.symm)
      · exact remoteSendData_safe h hr hs hsr hrs.symm send
    · rw [← hsr]
      exact closeBoth_inv h hs

end OutlineServer.Tcp
