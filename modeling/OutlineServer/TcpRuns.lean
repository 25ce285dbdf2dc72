import OutlineServer.RelayRuns
import OutlineServer.TcpCallbacks

/-!
# Lifetimes on the event loop

In every run the pointers to a `query_t` and from it are live, and it is freed once, with the last answer of its lookup
(`query_lifetime`). A `remote_t` keeps its `server_t` up to the first client that is closed in `STAGE_STOP`
while it has a `remote_t` (`teardown`): there `server_recv_cb` closes the `server_t` alone.
-/

namespace OutlineServer.Tcp
open Mem

variable {Ctx G : Type} {K : CryptoT Ctx G} {N : NetLib} {resolv_mode : ResolvMode} {own : Prop}
  {r r' : Resolver (World Ctx G)} {e : Event Ctx}

/-- The client is closed in `STAGE_STOP` while its `server_t` has a `remote_t`. -/
def ClosesStopped (r : Resolver (World Ctx G)) : Event Ctx → Bool
  | .serverRecv server recv _ _ _ _ =>
    (r.app.servers.get server).any fun s => s.stage = .STOP && s.remote.isSome &&
      match recv with
      | .eof | .error => true
      | .data _ | .again => false
  | _ => false

theorem fire_safe (h : r.Inv (Inv own) r.asked) (he : enabled r e = true) (hc : own → ClosesStopped r e = false) :
    (fire K N resolv_mode r e).Safe fun r' => r'.Inv (Inv own) r'.asked := by
  have hset : ∀ {x : Mem Fault (World Ctx G)}, x.Safe (Inv own r.Owns) →
      (do return { r with app := ← x } : Mem Fault (Resolver (World Ctx G))).Safe fun r' => r'.Inv (Inv own) r'.asked :=
    fun hx => hx.bind fun app happ => Safe.pure (h.set_app happ)
  cases e with
  | accept junk e_ctx d_ctx => exact Safe.pure (h.set_app (new_server_inv h.app junk e_ctx d_ctx))
  | serverRecv server recv send x now4 now6 =>
    obtain ⟨s, hs, hrecv⟩ := (Option.any_eq_true _ _).1 he
    rw [Bool.and_eq_true] at hrecv
    refine server_recv_cb_safe h hs hrecv.1 x now4 now6 recv send fun ho he hstage => ?_
    have hclose := hc ho
    simp only [ClosesStopped, hs, Option.any_some, hstage, decide_true, Bool.true_and] at hclose
    rcases he with rfl | rfl <;> simpa using hclose
  | serverSend server send =>
    obtain ⟨s, hs, -⟩ := (Option.any_eq_true _ _).1 he
    exact hset (server_send_cb_safe h.app hs send)
  | serverTimeout server =>
    obtain ⟨s, hs⟩ := Option.isSome_iff_exists.1 he
    exact hset (server_timeout_cb_safe h.app hs)
  | remoteRecv remote recv send =>
    obtain ⟨rem, hr, -⟩ := (Option.any_eq_true _ _).1 he
    exact hset (remote_recv_cb_safe h.app hr recv send)
  | remoteSend remote connected send =>
    obtain ⟨rem, hr, -⟩ := (Option.any_eq_true _ _).1 he
    exact hset (remote_send_cb_safe h.app hr connected send)
  | answer q f he' x =>
    exact (resolvClient_contract N own).answer_safe h (List.contains_iff_mem.1 he) x he'

theorem initial_inv (own : Prop) (g : G) : (initial g : Resolver (World Ctx G)).Inv (Inv own) [] where
  nodup := List.nodup_nil
  pending q f := by simp [initial]
  waits q query hq := by simp [initial] at hq
  unique q q' query query' hq := by simp [initial] at hq
  app := {
    links := ⟨fun a b => by simp [initial, Heap.Points], fun a b => by simp [initial, Heap.Points]⟩
    ok := fun server s hs => by simp [initial] at hs
    queries := ⟨fun query => by simp [initial, Resolver.Owns], fun query => by simp [initial, Heap.next, Heap.empty]⟩
    owned := fun _ remote rem hr => by simp [initial] at hr }

theorem Inv.of_loop (h : (loop K N resolv_mode).Reach r) : r.Inv (Inv False) r.asked := by
  refine h.invariant (I := fun r => r.Inv (Inv False) r.asked) ?_ ?_
  · rintro r ⟨g, rfl⟩
    exact initial_inv False g
  · rintro r e r' - hinv ⟨he, hfire⟩
    exact (fire_safe hinv he False.elim).of_ok hfire

/-- The step of an event that can happen and that `ok` admits. -/
def step? (K : CryptoT Ctx G) (N : NetLib) (resolv_mode : ResolvMode)
    (ok : Resolver (World Ctx G) → Event Ctx → Bool) :
    Resolver (World Ctx G) → Event Ctx → Option (Resolver (World Ctx G)) :=
  Lts.tryStep (fun r e => enabled r e && ok r e) (fire K N resolv_mode)

theorem of_step? {ok : Resolver (World Ctx G) → Event Ctx → Bool} (h : step? K N resolv_mode ok r e = some r') :
    ok r e = true ∧ (loop K N resolv_mode).step r e r' := by
  obtain ⟨hok, hfire⟩ := Lts.of_tryStep h
  obtain ⟨he, hok⟩ := Bool.and_eq_true_iff.1 hok
  exact ⟨hok, he, hfire⟩

/-- A client with the key of `tagConn`. -/
def tagAccept : Event AeadCtx :=
  .accept (fun _ => 0) (aead_ctx_init (aead_key_init .AES128GCM (List.replicate 16 1)) (some (List.replicate 16 4)))
    (aead_ctx_init (aead_key_init .AES128GCM (List.replicate 16 1)) none)

/-- What client 0 sends next, while connections can be made and c-ares answers later. -/
def tagRecv (recv : Recv) : Event AeadCtx := .serverRecv 0 recv .again (fun _ => 0, .started) none none

def tagLoop (ok : Resolver (World AeadCtx CryptoState) → Event AeadCtx → Bool) (es : List (Event AeadCtx)) :
    Option (Resolver (World AeadCtx CryptoState)) :=
  es.foldlM (step? (aeadCrypto (tagLib fun _ _ => true)) openNet .MODE_IPV4_FIRST ok) (initial .start)

/-! ### Queries -/

/-- c-ares has not answered all requests of the lookup that has `query` for its data. -/
def Waits (r : Resolver (World Ctx G)) (query : Nat) : Prop :=
  ∃ q f lookup, (q, f) ∈ r.asked ∧ r.lookups.get q = some lookup ∧ lookup.data = query

theorem waits_iff_owns (h : r.Inv (Inv own) r.asked) (query : Nat) : Waits r query ↔ r.Owns query := by
  constructor
  · rintro ⟨q, f, lookup, -, hq, hdata⟩
    exact ⟨q, lookup, hq, hdata⟩
  · rintro ⟨q, lookup, hq, hdata⟩
    have hwaits : ¬ ∀ f, lookup.request f = false := by
      rw [← all_requests_are_null_iff, h.waits q lookup hq]
      exact Bool.noConfusion
    obtain ⟨f, hf⟩ := not_forall.1 hwaits
    exact ⟨q, f, lookup, (h.pending q f).2 ⟨lookup, hq, Bool.eq_true_of_not_eq_false hf⟩, hq, hdata⟩

/-- In every run no callback follows a pointer to a freed object, the query of a live `server_t` is live and points back
to it, and a query has been freed once if its lookup has both answers, and not before. -/
theorem query_lifetime (K : CryptoT Ctx G) (N : NetLib) (resolv_mode : ResolvMode) {r : Resolver (World Ctx G)}
    (h : (loop K N resolv_mode).Reach r) :
    (∀ e, enabled r e = true → fire K N resolv_mode r e ≠ .error .freed) ∧
      (∀ server s query, r.app.servers.get server = some s → s.query = some query →
        ∃ q, r.app.queries.get query = some q ∧ q.server = some server) ∧
      ∀ query, query < r.app.queries.next →
        (Waits r query → (r.app.queries.get query).isSome ∧ r.app.freed.count query = 0) ∧
        (¬ Waits r query → r.app.queries.get query = none ∧ r.app.freed.count query = 1) := by
  have hinv := Inv.of_loop h
  refine ⟨fun e he => (fire_safe hinv he False.elim).ne_freed, fun server s query hs hq => ?_, fun query hlt => ?_⟩
  · exact hinv.app.links.query.target hs hq
  · have hlive := hinv.app.queries.live query
    have hfreed := hinv.app.queries.freed query
    rw [waits_iff_owns hinv, ← hlive]
    refine ⟨fun hsome => ⟨hsome, ?_⟩, fun hnone => ?_⟩
    · rw [hfreed, if_neg]
      rintro ⟨-, hnone⟩
      rw [hnone] at hsome
      cases hsome
    · have hnone' : r.app.queries.get query = none := by simpa using hnone
      exact ⟨hnone', by rw [hfreed, if_pos ⟨hlt, hnone'⟩]⟩

/-- The client asks for a host name, and the A records are in. -/
theorem query_lifetime_tagLoop :
    ∃ r : Resolver (World AeadCtx CryptoState),
      (∃ s, r.app.servers.get 0 = some s ∧ s.query = some 0) ∧
      (∀ e, enabled r e = true →
        fire (aeadCrypto (tagLib fun _ _ => true)) openNet .MODE_IPV4_FIRST r e ≠ .error .freed) ∧
      (∀ server s query, r.app.servers.get server = some s → s.query = some query →
        ∃ q, r.app.queries.get query = some q ∧ q.server = some server) ∧
      ∀ query, query < r.app.queries.next →
        (Waits r query → (r.app.queries.get query).isSome ∧ r.app.freed.count query = 0) ∧
        (¬ Waits r query → r.app.queries.get query = none ∧ r.app.freed.count query = 1) := by
  have hrun : (tagLoop (fun _ _ => true) [
      tagAccept,
      tagRecv (.data (List.replicate 16 2 ++ tagChunk [3, 1, 97, 0, 80])),
      .answer 0 .AF_INET (some [[127, 0, 0, 1]]) (fun _ => 0, .started)]).map
        (fun r => (r.app.servers.get 0).map Server.query) = some (some (some 0)) := by
    decide +kernel
  obtain ⟨r, hr, hfacts⟩ := Option.map_eq_some_iff.1 hrun
  obtain ⟨s, hs, hquery⟩ := Option.map_eq_some_iff.1 hfacts
  refine ⟨r, ⟨s, hs, hquery⟩, query_lifetime (aeadCrypto (tagLib fun _ _ => true)) openNet .MODE_IPV4_FIRST ?_⟩
  exact (Lts.Run.of_foldlM (fun _ _ _ h => (of_step? h).2) hr).reach (.init ⟨_, rfl⟩)

/-! ### Teardown -/

/-- Every live `remote_t` has a live `server_t` that points to it. -/
def NoOrphan (r : Resolver (World Ctx G)) : Prop :=
  ∀ remote rem, r.app.remotes.get remote = some rem →
    ∃ server s, rem.server = some server ∧ r.app.servers.get server = some s ∧ s.remote = some remote

theorem noOrphan_of_inv (h : r.Inv (Inv True) r.asked) : NoOrphan r := by
  intro remote rem hr
  obtain ⟨server, hserver⟩ := Option.ne_none_iff_exists'.1 (h.app.owned trivial remote rem hr)
  obtain ⟨s, hs, hsr⟩ := h.app.links.remote.symm.target hr hserver
  exact ⟨server, s, hserver, hs, hsr⟩

theorem close_and_free_server_eq {w : World Ctx G} {server remote : Nat} {s : Server Ctx} {rem : Remote}
    (hs : w.servers.get server = some s) (hq : s.query = none) (hsr : s.remote = some remote)
    (hr : w.remotes.get remote = some rem) :
    close_and_free_server w server = .ok { w with
      servers := w.servers.free server
      remotes := w.remotes.put remote { rem with server := none } } := by
  simp only [close_and_free_server, free_server, hs, hq, hsr, hr, deref_some, ok_bind]
  rfl

/-- Closing a stopped client leaves its `remote_t` behind. -/
theorem orphan_of_closesStopped (h : r.Inv (Inv own) r.asked) (hc : ClosesStopped r e = true)
    (hfire : fire K N resolv_mode r e = .ok r') : ¬ NoOrphan r' := by
  cases e with
  | serverRecv server recv send x now4 now6 =>
    obtain ⟨s, hs, hstop⟩ := (Option.any_eq_true _ _).1 hc
    rw [Bool.and_eq_true, Bool.and_eq_true, decide_eq_true_eq] at hstop
    obtain ⟨⟨hstage, hsome⟩, hrecv⟩ := hstop
    obtain ⟨remote, hsr⟩ := Option.isSome_iff_exists.1 hsome
    obtain ⟨rem, hr, -⟩ := h.app.links.remote.target hs hsr
    have hq : s.query = none := (h.app.ok server s hs).of_remote hsr
    have hend : fire K N resolv_mode r (.serverRecv server recv send x now4 now6) =
        (do return { r with app := ← close_and_free_server r.app server }) := by
      have hne : s.stage ≠ .STREAM := by
        rw [hstage]
        decide
      simp only [fire, server_recv_cb, hs, deref_some, ok_bind]
      cases recv with
      | eof => exact if_neg hne
      | error => exact if_neg hne
      | data bs => cases hrecv
      | again => cases hrecv
    rw [hend, close_and_free_server_eq hs hq hsr hr] at hfire
    cases hfire
    intro hno
    obtain ⟨server', s', hserver, -⟩ := hno remote { rem with server := none } (by simp [Heap.get_put hr])
    cases hserver
  | _ => cases hc

/-- Up to the first client that is closed in `STAGE_STOP` while it has a `remote_t`, every `remote_t` has its
`server_t`; that step, and no other one, leaves a `remote_t` without. -/
theorem teardown (K : CryptoT Ctx G) (N : NetLib) (resolv_mode : ResolvMode) {r : Resolver (World Ctx G)}
    (h : ((loop K N resolv_mode).guarded fun r e => ClosesStopped r e = false).Reach r) :
    NoOrphan r ∧ ∀ e r', (loop K N resolv_mode).step r e r' → (NoOrphan r' ↔ ClosesStopped r e = false) := by
  have hinv : r.Inv (Inv True) r.asked := by
    refine h.invariant (I := fun r => r.Inv (Inv True) r.asked) ?_ ?_
    · rintro r ⟨g, rfl⟩
      exact initial_inv True g
    · rintro r e r' - hinv ⟨hc, he, hfire⟩
      exact (fire_safe hinv he fun _ => hc).of_ok hfire
  refine ⟨noOrphan_of_inv hinv, fun e r' ⟨he, hfire⟩ => ⟨fun hno => ?_, fun hc => ?_⟩⟩
  · refine Bool.eq_false_iff.2 fun hc => ?_
    exact orphan_of_closesStopped hinv hc hfire hno
  · exact noOrphan_of_inv ((fire_safe hinv he fun _ => hc).of_ok hfire)

/-- The client asks for 127.0.0.1:80, and sends what does not decrypt. -/
def tagStopped : List (Event AeadCtx) := [
  tagAccept,
  tagRecv (.data (List.replicate 16 2 ++ tagChunk [1, 127, 0, 0, 1, 0, 80, 65])),
  .remoteSend 0 true (.sent 1),
  tagRecv (.data (List.replicate 40 9))]

theorem teardown_tagLoop :
    ∃ r : Resolver (World AeadCtx CryptoState), (∃ rem, r.app.remotes.get 0 = some rem) ∧ NoOrphan r ∧
      ∀ e r', (loop (aeadCrypto (tagLib fun _ _ => true)) openNet .MODE_IPV4_FIRST).step r e r' →
        (NoOrphan r' ↔ ClosesStopped r e = false) := by
  have hrun : (tagLoop (fun r e => !ClosesStopped r e) tagStopped).map
      (fun r => (r.app.remotes.get 0).map Remote.server) = some (some (some 0)) := by
    decide +kernel
  obtain ⟨r, hr, hfacts⟩ := Option.map_eq_some_iff.1 hrun
  obtain ⟨rem, hrem, -⟩ := Option.map_eq_some_iff.1 hfacts
  refine ⟨r, ⟨rem, hrem⟩, teardown (aeadCrypto (tagLib fun _ _ => true)) openNet .MODE_IPV4_FIRST ?_⟩
  refine (Lts.Run.of_foldlM (fun _ _ _ h => ?_) hr).reach (.init ⟨_, rfl⟩)
  exact ⟨by simpa using (of_step? h).1, (of_step? h).2⟩

/-- Then the client closes its side: the `remote_t` stays, without a `server_t`. -/
theorem teardown_orphan :
    ∃ r, (loop (aeadCrypto (tagLib fun _ _ => true)) openNet .MODE_IPV4_FIRST).Reach r ∧ ¬ NoOrphan r := by
  have hrun : (tagLoop (fun _ _ => true) (tagStopped ++ [tagRecv .eof])).map
      (fun r => (r.app.remotes.get 0).map Remote.server) = some (some none) := by
    decide +kernel
  obtain ⟨r, hr, hfacts⟩ := Option.map_eq_some_iff.1 hrun
  obtain ⟨rem, hrem, hserver⟩ := Option.map_eq_some_iff.1 hfacts
  refine ⟨r, (Lts.Run.of_foldlM (fun _ _ _ h => (of_step? h).2) hr).reach (.init ⟨_, rfl⟩), fun hno => ?_⟩
  obtain ⟨server, s, hs, -⟩ := hno 0 rem hrem
  rw [hserver] at hs
  cases hs

end OutlineServer.Tcp
