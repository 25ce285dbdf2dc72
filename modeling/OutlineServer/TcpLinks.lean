import OutlineServer.ResolvSpec
import OutlineServer.Tcp

/-!
# Who points to whom

`Tcp.Inv own D`: `server_t` and `remote_t`, and `server_t` and `query_t`, point to each other; each stage allows only
certain pointers and watchers (`Server.Ok`); the live queries are `D`, the data of the lookups that `resolv.c` still
has to answer. If `own`, then also no `remote_t` has lost its `server_t`. Each callback follows live pointers only and
keeps the invariant.
-/

namespace OutlineServer.Tcp
open Mem

variable {Ctx G : Type} {w w' : World Ctx G} {server remote query : Nat} {s s' : Server Ctx} {rem : Remote}

structure World.Links (w : World Ctx G) : Prop where
  remote : Heap.Linked w.servers Server.remote w.remotes Remote.server
  query : Heap.Linked w.servers Server.query w.queries Query.server

/-- What holds of a `server_t` between callbacks. -/
structure Server.Ok (s : Server Ctx) : Prop where
  stream : s.stage = .STREAM → s.remote ≠ none
  header : s.stage = .INIT → s.recv_io = true → s.remote = none
  resolve : s.stage = .RESOLVE → s.recv_io = false
  query : s.query ≠ none → s.stage = .RESOLVE ∧ s.remote = none

/-- `D` are the live queries; each other one has been freed once. -/
structure World.Queries (w : World Ctx G) (D : Nat → Prop) : Prop where
  live : ∀ query, (w.queries.get query).isSome ↔ D query
  freed : ∀ query, w.freed.count query = if query < w.queries.next ∧ w.queries.get query = none then 1 else 0

structure Inv (own : Prop) (D : Nat → Prop) (w : World Ctx G) : Prop where
  links : w.Links
  ok : ∀ server s, w.servers.get server = some s → s.Ok
  queries : w.Queries D
  owned : own → ∀ remote rem, w.remotes.get remote = some rem → rem.server ≠ none

/-- Queries are neither made nor freed from `w` to `w'`. -/
structure Kept (w w' : World Ctx G) : Prop where
  live : ∀ query, (w'.queries.get query).isSome = (w.queries.get query).isSome
  next : w'.queries.next = w.queries.next
  freed : w'.freed = w.freed

theorem Kept.trans {w'' : World Ctx G} (h : Kept w w') (h' : Kept w' w'') : Kept w w'' :=
  ⟨fun x => (h'.live x).trans (h.live x), h'.next.trans h.next, h'.freed.trans h.freed⟩

theorem World.Queries.kept {D : Nat → Prop} (h : w.Queries D) (hk : Kept w w') : w'.Queries D where
  live x := by
    rw [hk.live]
    exact h.live x
  freed x := by
    have hnone : w'.queries.get x = none ↔ w.queries.get x = none := by
      rw [← Option.isNone_iff_eq_none, ← Option.isNone_iff_eq_none, ← Option.not_isSome, ← Option.not_isSome, hk.live]
    rw [hk.freed, h.freed, hk.next]
    simp only [hnone]

/-! ### Updates that keep the pointers -/

theorem World.Links.put_server (h : w.Links) (hs : w.servers.get server = some s) (hr : s'.remote = s.remote)
    (hq : s'.query = s.query) : ({ w with servers := w.servers.put server s' } : World Ctx G).Links :=
  ⟨h.remote.put_left hs hr, h.query.put_left hs hq⟩

theorem World.Links.put_remote {rem' : Remote} (h : w.Links) (hr : w.remotes.get remote = some rem)
    (hs : rem'.server = rem.server) : ({ w with remotes := w.remotes.put remote rem' } : World Ctx G).Links :=
  ⟨h.remote.put_right hr hs, h.query⟩

section
variable {own : Prop} {D : Nat → Prop}

theorem Inv.put_server (h : Inv own D w) (hs : w.servers.get server = some s) (hr : s'.remote = s.remote)
    (hq : s'.query = s.query) (hok : s'.Ok) : Inv own D { w with servers := w.servers.put server s' } where
  links := h.links.put_server hs hr hq
  ok x srv hx := by
    rw [Heap.get_put hs] at hx
    split at hx
    · cases hx
      exact hok
    · exact h.ok x srv hx
  queries := h.queries.kept ⟨fun _ => rfl, rfl, rfl⟩
  owned := h.owned

theorem Inv.put_remote {rem' : Remote} (h : Inv own D w) (hr : w.remotes.get remote = some rem)
    (hs : rem'.server = rem.server) : Inv own D { w with remotes := w.remotes.put remote rem' } where
  links := h.links.put_remote hr hs
  ok := h.ok
  queries := h.queries.kept ⟨fun _ => rfl, rfl, rfl⟩
  owned ho x r hx := by
    rw [Heap.get_put hr] at hx
    split at hx
    · cases hx
      rw [hs]
      exact h.owned ho _ _ hr
    · exact h.owned ho x r hx

theorem Inv.put_both {rem' : Remote} (h : Inv own D w) (hs : w.servers.get server = some s)
    (hr : w.remotes.get remote = some rem) (hsr : s'.remote = s.remote) (hq : s'.query = s.query) (hok : s'.Ok)
    (hrs : rem'.server = rem.server) :
    Inv own D { w with servers := w.servers.put server s', remotes := w.remotes.put remote rem' } :=
  (h.put_server hs hsr hq hok).put_remote hr hrs

theorem Inv.set_g (h : Inv own D w) (g : G) : Inv own D { w with g } :=
  ⟨⟨h.links.remote, h.links.query⟩, h.ok, h.queries.kept ⟨fun _ => rfl, rfl, rfl⟩, h.owned⟩

/-- A `server_t` whose `remote` is set has no query. -/
theorem Server.Ok.of_remote (h : s.Ok) (hr : s.remote = some remote) : s.query = none := by
  by_contra hq
  have hnone := (h.query hq).2
  rw [hr] at hnone
  cases hnone

/-- The other data of a `server_t` does not matter, and an inactive `recv_io` is always fine. -/
theorem Server.Ok.congr (h : s.Ok) (hstage : s'.stage = s.stage) (hrecv : s'.recv_io = s.recv_io ∨ s'.recv_io = false)
    (hr : s'.remote = s.remote) (hq : s'.query = s.query) : s'.Ok where
  stream hst := by
    rw [hr]
    exact h.stream (hstage ▸ hst)
  header hst hrecv' := by
    rw [hr]
    rcases hrecv with heq | hoff
    · exact h.header (hstage ▸ hst) (heq ▸ hrecv')
    · rw [hoff] at hrecv'
      cases hrecv'
  resolve hst := by
    rcases hrecv with heq | hoff
    · rw [heq]
      exact h.resolve (hstage ▸ hst)
    · exact hoff
  query hq' := by
    rw [hstage, hr]
    exact h.query (hq ▸ hq')

theorem Server.Ok.stop (h : s.Ok) (hrecv : s.recv_io = true) : s.stop_server.Ok where
  stream hst := by cases hst
  header hst := by cases hst
  resolve hst := by cases hst
  query hq := by
    have hoff := h.resolve (h.query hq).1
    rw [hrecv] at hoff
    cases hoff

/-- A `server_t` with a `remote_t` may go to `STAGE_STREAM`, whatever its watchers. -/
theorem Server.Ok.streaming (h : s.Ok) (hr : s.remote = some remote) (hstage : s'.stage = .STREAM)
    (hr' : s'.remote = s.remote) (hq : s'.query = s.query) : s'.Ok where
  stream _ := by
    rw [hr', hr]
    exact Option.some_ne_none _
  header hst := by rw [hstage] at hst; cases hst
  resolve hst := by rw [hstage] at hst; cases hst
  query hq' := by
    rw [hq, h.of_remote hr] at hq'
    exact absurd rfl hq'

/-! ### Closing -/

/-- `free_remote` takes the `remote_t` away and the pointer of its `server_t` to it. -/
theorem free_remote_safe (h : w.Links) (hr : w.remotes.get remote = some rem) :
    (free_remote w remote).Safe fun w' => w'.Links ∧ w'.remotes = w.remotes.free remote ∧ Kept w w' ∧
      ∀ x, rem.server = some x ∧ (∃ s, w.servers.get x = some s ∧ w'.servers.get x = some { s with remote := none }) ∨
        rem.server ≠ some x ∧ w'.servers.get x = w.servers.get x := by
  refine Safe.deref_bind hr ?_
  cases hserver : rem.server with
  | none =>
    refine Safe.pure ⟨⟨h.remote.free_right hr hserver, h.query⟩, rfl, ⟨fun _ => rfl, rfl, rfl⟩,
      fun x => .inr ⟨by simp, rfl⟩⟩
  | some server =>
    obtain ⟨s, hs, hsr⟩ := h.remote.symm.target hr hserver
    refine Safe.deref_bind hs (Safe.pure ⟨⟨?_, h.query.put_left hs rfl⟩, rfl, ⟨fun _ => rfl, rfl, rfl⟩, fun x => ?_⟩)
    · exact h.remote.cut ⟨s, hs, hsr⟩ (fun _ _ => Heap.points_put_none hs rfl) fun _ _ => Heap.points_free
    · by_cases hx : server = x
      · subst hx
        exact .inl ⟨rfl, s, hs, by simp [Heap.get_put hs]⟩
      · exact .inr ⟨by simp [hx], by simp [Heap.get_put hs, Ne.symm hx]⟩

/-- `free_server` takes the `server_t` away, if it has no query, and the pointer of its `remote_t` to it. -/
theorem free_server_safe (h : w.Links) (hs : w.servers.get server = some s) (hq : s.query = none) :
    (free_server w server).Safe fun w' => w'.Links ∧ w'.servers = w.servers.free server ∧ Kept w w' ∧
      ∀ x rem', w'.remotes.get x = some rem' → w.remotes.get x = some rem' ∨ s.remote = some x := by
  refine Safe.deref_bind hs ?_
  cases hremote : s.remote with
  | none =>
    exact Safe.pure ⟨⟨h.remote.free_left hs hremote, h.query.free_left hs hq⟩, rfl, ⟨fun _ => rfl, rfl, rfl⟩,
      fun x rem' hx => .inl hx⟩
  | some remote =>
    obtain ⟨rem, hr, hrs⟩ := h.remote.target hs hremote
    refine Safe.deref_bind hr (Safe.pure ⟨⟨?_, h.query.free_left hs hq⟩, rfl, ⟨fun _ => rfl, rfl, rfl⟩,
      fun x rem' hx => ?_⟩)
    · exact h.remote.cut ⟨s, hs, hremote⟩ (fun _ _ => Heap.points_free) fun _ _ => Heap.points_put_none hr rfl
    · simp only [Heap.get_put hr] at hx
      split at hx
      · exact .inr (by simp [*])
      · exact .inl hx

theorem close_and_free_server_safe (h : w.Links) (hs : w.servers.get server = some s) :
    (close_and_free_server w server).Safe fun w' => w'.Links ∧
      (∀ x, w'.servers.get x = if x = server then none else w.servers.get x) ∧
      Kept w w' ∧
      ∀ x rem', w'.remotes.get x = some rem' → w.remotes.get x = some rem' ∨ s.remote = some x := by
  refine Safe.deref_bind hs ?_
  cases hquery : s.query with
  | none =>
    refine (free_server_safe h hs hquery).mono ?_
    rintro w' ⟨hl, hservers, hkept, hrem⟩
    refine ⟨hl, fun x => ?_, hkept, hrem⟩
    rw [hservers, Heap.get_free]
  | some query =>
    obtain ⟨q, hq, hqs⟩ := h.query.target hs hquery
    refine Safe.deref_bind hq ?_
    have hl : ({ w with
        servers := w.servers.put server { s with query := none }
        queries := w.queries.put query { q with server := none } } : World Ctx G).Links := by
      refine ⟨h.remote.put_left hs rfl, ?_⟩
      exact h.query.cut ⟨s, hs, hquery⟩ (fun _ _ => Heap.points_put_none hs rfl) fun _ _ => Heap.points_put_none hq rfl
    have hs' : (w.servers.put server { s with query := none }).get server = some { s with query := none } := by
      simp [Heap.get_put hs]
    refine (free_server_safe hl hs' rfl).mono ?_
    rintro w' ⟨hl, hservers, hkept, hrem⟩
    refine ⟨hl, fun x => ?_, ⟨fun x => ?_, ?_, hkept.freed⟩, hrem⟩
    · rw [hservers, Heap.get_free]
      split
      · rfl
      · simp [Heap.get_put hs, *]
    · rw [hkept.live, Heap.get_put hq]
      split
      · subst x
        rw [hq]
        rfl
      · rfl
    · exact hkept.next.trans (Heap.next_put _ _ _)

/-- Closing a `server_t` whose `remote_t` is gone, or, if `remote_t`s may lose theirs, any other one. -/
theorem close_and_free_server_inv (hl : w.Links) (hs : w.servers.get server = some s)
    (hok : ∀ x s, x ≠ server → w.servers.get x = some s → s.Ok) (hD : w.Queries D)
    (howned : own → s.remote = none ∧ ∀ remote rem, w.remotes.get remote = some rem → rem.server ≠ none) :
    (close_and_free_server w server).Safe (Inv own D) := by
  refine (close_and_free_server_safe hl hs).mono ?_
  rintro w' ⟨hl', hservers, hkept, hrem⟩
  refine ⟨hl', fun x srv hx => ?_, hD.kept hkept, fun ho x rem hx => ?_⟩
  · rw [hservers] at hx
    split at hx
    · cases hx
    · exact hok x srv ‹_› hx
  · obtain ⟨hnone, hall⟩ := howned ho
    rcases hrem x rem hx with hx | hx
    · exact hall x rem hx
    · rw [hnone] at hx
      cases hx

/-- Closing a connection whose `remote_t` is the one that is closed with it. -/
theorem closeBoth_inv (h : Inv own D w) (hs : w.servers.get server = some s) :
    (closeBoth w s.remote server).Safe (Inv own D) := by
  cases hremote : s.remote with
  | none =>
    exact close_and_free_server_inv h.links hs (fun x s _ hx => h.ok x s hx) h.queries fun ho => ⟨hremote, h.owned ho⟩
  | some remote =>
    obtain ⟨rem, hr, hrs⟩ := h.links.remote.target hs hremote
    refine (free_remote_safe h.links hr).bind ?_
    rintro w' ⟨hl, hremotes, hkept, hservers⟩
    have hs' : w'.servers.get server = some { s with remote := none } := by
      rcases hservers server with ⟨-, s', hs', hget⟩ | ⟨hne, -⟩
      · rw [hs] at hs'
        cases hs'
        exact hget
      · exact absurd hrs hne
    refine close_and_free_server_inv hl hs' (fun x srv hne hx => ?_) (h.queries.kept hkept) fun ho =>
      ⟨rfl, fun x rem' hx => ?_⟩
    · rcases hservers x with ⟨hx', -⟩ | ⟨-, hget⟩
      · exact absurd (Option.some.inj (hx'.symm.trans hrs)) hne
      · exact h.ok x srv (hget ▸ hx)
    · rw [hremotes, Heap.get_free] at hx
      split at hx
      · cases hx
      · exact h.owned ho x rem' hx

/-- In the stages in which the local `remote` is `NULL`, only the `server_t` is closed. -/
theorem closeServer_inv (h : Inv own D w) (hs : w.servers.get server = some s) (hr : own → s.remote = none) :
    (closeBoth w none server).Safe (Inv own D) :=
  close_and_free_server_inv h.links hs (fun x s _ hx => h.ok x s hx) h.queries fun ho => ⟨hr ho, h.owned ho⟩

/-- A `remote_t` that has lost its `server_t` is freed alone. -/
theorem close_orphan_inv (h : Inv own D w) (hr : w.remotes.get remote = some rem) (hs : rem.server = none) :
    (close_and_free_remote w (some remote)).Safe (Inv own D) := by
  refine (free_remote_safe h.links hr).mono ?_
  rintro w' ⟨hl, hremotes, hkept, hservers⟩
  refine ⟨hl, fun x srv hx => ?_, h.queries.kept hkept, fun ho x rem' hx => ?_⟩
  · rcases hservers x with ⟨hx', -⟩ | ⟨-, hget⟩
    · rw [hs] at hx'
      cases hx'
    · exact h.ok x srv (hget ▸ hx)
  · rw [hremotes, Heap.get_free] at hx
    split at hx
    · cases hx
    · exact h.owned ho x rem' hx

end

end OutlineServer.Tcp
