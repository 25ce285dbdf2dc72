import OutlineServer.Resolv
import Mathlib.Data.List.Nodup
import Mathlib.Data.List.Perm.Basic

/-!
# What the resolver keeps

`Resolver.Inv J ps`: the requests without an answer are `ps`, a query waits for one of them at least, and each piece of
client data belongs to one query. `J D` is what the client keeps of its own state when `D` is the data of the pending
queries (`ResolvClient.Contract`); the resolver frees the data of a query with its second answer and not before.
-/

namespace OutlineServer

variable {ω W : Type} {R : ResolvClient ω W} {J : (Nat → Prop) → W → Prop} {resolv_mode : ResolvMode}
  {r r' : Resolver W} {ps ps' : List (Nat × Family)} {q d : Nat} {f : Family}

def ResolvMode.choose : ResolvMode → ResolvQuery → Option SockAddr
  | .MODE_IPV4_FIRST => choose_ipv4_first
  | .MODE_IPV6_FIRST => choose_ipv6_first

/-- Called back and freed, the data of a query is no longer that of a pending one. -/
def ResolvClient.Keeps (R : ResolvClient ω W) (J : (Nat → Prop) → W → Prop) (x : ω) (addr : Option SockAddr) (d : Nat)
    (D : Nat → Prop) (w : W) : Prop := (R.client_cb x addr d w >>= R.free_cb d).Safe (J fun e => D e ∧ e ≠ d)

def ResolvClient.Contract (R : ResolvClient ω W) (J : (Nat → Prop) → W → Prop) : Prop :=
  ∀ x addr d D w, J D w → D d → R.Keeps J x addr d D w

/-- `d` is the data of a pending query. -/
def Resolver.Owns (r : Resolver W) (d : Nat) : Prop := ∃ q query, r.lookups.get q = some query ∧ query.data = d

structure Resolver.Inv (J : (Nat → Prop) → W → Prop) (ps : List (Nat × Family)) (r : Resolver W) : Prop where
  nodup : ps.Nodup
  pending : ∀ q f, (q, f) ∈ ps ↔ ∃ query, r.lookups.get q = some query ∧ query.request f = true
  waits : ∀ q query, r.lookups.get q = some query → all_requests_are_null query = false
  unique : ∀ q q' query query', r.lookups.get q = some query → r.lookups.get q' = some query' →
    query.data = query'.data → q = q'
  app : J r.Owns r.app

/-! ### Answers -/

theorem ResolvQuery.data_answered (query : ResolvQuery) (f : Family) (he : Answer) :
    (query.answered f he).data = query.data := by
  cases he <;> cases f <;> rfl

theorem ResolvQuery.request_answered (query : ResolvQuery) (f g : Family) (he : Answer) :
    (query.answered f he).request g = true ↔ query.request g = true ∧ g ≠ f := by
  cases he <;> cases f <;> cases g <;> simp [answered, request, complete, addResponses]

theorem all_requests_are_null_iff {query : ResolvQuery} :
    all_requests_are_null query = true ↔ ∀ f, query.request f = false := by
  constructor
  · intro h f
    simp only [all_requests_are_null, Bool.and_eq_true, Bool.not_eq_true'] at h
    cases f
    · exact h.1
    · exact h.2
  · intro h
    have h4 : query.request4 = false := h .AF_INET
    have h6 : query.request6 = false := h .AF_INET6
    simp [all_requests_are_null, h4, h6]

theorem Resolver.Inv.perm (h : r.Inv J ps) (hp : ps.Perm ps') : r.Inv J ps' where
  nodup := hp.nodup_iff.1 h.nodup
  pending q f := by rw [← hp.mem_iff]; exact h.pending q f
  waits := h.waits
  unique := h.unique
  app := h.app

theorem Resolver.Inv.congr_asked (h : r.Inv J ps) (as : List (Nat × Family)) :
    ({ r with asked := as } : Resolver W).Inv J ps :=
  ⟨h.nodup, h.pending, h.waits, h.unique, h.app⟩

theorem Resolver.Inv.set_app (h : r.Inv J ps) {K : (Nat → Prop) → W → Prop} {app : W} (happ : K r.Owns app) :
    ({ r with app } : Resolver W).Inv K ps := ⟨h.nodup, h.pending, h.waits, h.unique, happ⟩

theorem process_client_callback_eq (x : ω) : process_client_callback R resolv_mode x r q = do
    let query ← Mem.deref (r.lookups.get q)
    let app ← R.client_cb x (resolv_mode.choose query) query.data r.app
    let app ← R.free_cb query.data app
    return { r with app, lookups := r.lookups.free q } := by
  cases resolv_mode <;> rfl

/-- The second answer: the client is called back, then its data and the query are gone. -/
theorem process_client_callback_safe {query : ResolvQuery} (hq : r.lookups.get q = some query)
    (hpending : ∀ p g, (p, g) ∈ ps ↔ p ≠ q ∧ ∃ query, r.lookups.get p = some query ∧ query.request g = true)
    (hnodup : ps.Nodup)
    (hwaits : ∀ p query, p ≠ q → r.lookups.get p = some query → all_requests_are_null query = false)
    (hunique : ∀ p p' query query', r.lookups.get p = some query → r.lookups.get p' = some query' →
      query.data = query'.data → p = p')
    (x : ω) (hR : R.Keeps J x (resolv_mode.choose query) query.data r.Owns r.app) :
    (process_client_callback R resolv_mode x r q).Safe fun r' => r'.Inv J ps ∧ r'.asked = r.asked := by
  rw [process_client_callback_eq]
  refine Mem.Safe.deref_bind hq ?_
  rw [← bind_assoc]
  refine Mem.Safe.bind hR fun app happ => Mem.Safe.pure ⟨?_, rfl⟩
  have hget : ∀ p query', (r.lookups.free q).get p = some query' ↔ p ≠ q ∧ r.lookups.get p = some query' := by
    intro p query'
    rw [Heap.get_free]
    split <;> simp_all
  refine ⟨hnodup, ?_, ?_, ?_, ?_⟩
  · intro p g
    rw [hpending]
    simp only [hget]
    constructor
    · rintro ⟨hp, query', hp', hg⟩
      exact ⟨query', ⟨hp, hp'⟩, hg⟩
    · rintro ⟨query', ⟨hp, hp'⟩, hg⟩
      exact ⟨hp, query', hp', hg⟩
  · intro p query' hp
    obtain ⟨hne, hp⟩ := (hget p query').1 hp
    exact hwaits p query' hne hp
  · intro p p' query₁ query₂ hp hp'
    exact hunique p p' query₁ query₂ ((hget _ _).1 hp).2 ((hget _ _).1 hp').2
  · have howns : (fun e => r.Owns e ∧ e ≠ query.data) =
        ({ r with app, lookups := r.lookups.free q } : Resolver W).Owns := by
      funext e
      refine propext ⟨?_, ?_⟩
      · rintro ⟨⟨p, query', hp, rfl⟩, hne⟩
        have hpq : p ≠ q := by
          rintro rfl
          rw [hq] at hp
          cases hp
          exact hne rfl
        exact ⟨p, query', (hget _ _).2 ⟨hpq, hp⟩, rfl⟩
      · rintro ⟨p, query', hp, rfl⟩
        obtain ⟨hpq, hp⟩ := (hget _ _).1 hp
        exact ⟨⟨p, query', hp, rfl⟩, fun heq => hpq (hunique _ _ _ _ hp hq heq)⟩
    rw [← howns]
    exact happ

/-- The answer to the request `(q, f)`. -/
theorem queryCallback_safe (h : r.Inv J ((q, f) :: ps)) (x : ω) (he : Answer)
    (hR : ∀ query, r.lookups.get q = some query → all_requests_are_null (query.answered f he) = true →
      R.Keeps J x (resolv_mode.choose (query.answered f he)) query.data r.Owns r.app) :
    (queryCallback R resolv_mode x f r q he).Safe fun r' => r'.Inv J ps ∧ r'.asked = r.asked ∧
      ∀ query, r.lookups.get q = some query → all_requests_are_null (query.answered f he) = false →
        r'.app = r.app ∧ r'.lookups.get q = some (query.answered f he) ∧ r'.Owns = r.Owns := by
  have hcb : queryCallback R resolv_mode x f = dns_query_cb R resolv_mode x f := by
    cases f <;> rfl
  obtain ⟨query, hq, -⟩ := (h.pending q f).1 List.mem_cons_self
  have hdata := query.data_answered f he
  have hreq := fun g => query.request_answered f g he
  simp only [hq, Option.some.injEq, forall_eq'] at hR ⊢
  generalize hquery' : query.answered f he = query' at hdata hreq hR ⊢
  have hnodup := List.nodup_cons.1 h.nodup
  have hget := Heap.get_put hq query'
  have hpending : ∀ p g, (p, g) ∈ ps ↔
      ∃ query, (r.lookups.put q query').get p = some query ∧ query.request g = true := by
    intro p g
    have hold := h.pending p g
    rw [List.mem_cons] at hold
    rw [hget]
    by_cases hp : p = q
    · subst hp
      simp only [↓reduceIte, Option.some.injEq, exists_eq_left', hreq]
      simp only [hq, Option.some.injEq, exists_eq_left', Prod.mk.injEq, true_and] at hold
      constructor
      · intro hmem
        refine ⟨hold.1 (.inr hmem), ?_⟩
        rintro rfl
        exact hnodup.1 hmem
      · rintro ⟨hg, hne⟩
        exact (hold.2 hg).resolve_left hne
    · simp only [hp, ↓reduceIte]
      rw [← hold]
      simp [hp]
  have howns : ({ r with lookups := r.lookups.put q query' } : Resolver W).Owns = r.Owns := by
    funext e
    refine propext ⟨?_, ?_⟩
    · rintro ⟨p, query₁, hp, rfl⟩
      simp only [hget] at hp
      split at hp
      · cases hp
        exact ⟨q, query, hq, hdata.symm⟩
      · exact ⟨p, query₁, hp, rfl⟩
    · rintro ⟨p, query₁, hp, rfl⟩
      by_cases hpq : p = q
      · subst hpq
        rw [hq] at hp
        cases hp
        exact ⟨p, query', by simp [hget], hdata⟩
      · exact ⟨p, query₁, by simp [hget, hpq, hp], rfl⟩
  have hunique : ∀ p p' query₁ query₂, (r.lookups.put q query').get p = some query₁ →
      (r.lookups.put q query').get p' = some query₂ → query₁.data = query₂.data → p = p' := by
    intro p p' query₁ query₂ hp hp' heq
    have hback : ∀ p query₁, (r.lookups.put q query').get p = some query₁ →
        ∃ query₀, r.lookups.get p = some query₀ ∧ query₀.data = query₁.data := by
      intro p query₁ hp
      rw [hget] at hp
      split at hp
      · subst p
        cases hp
        exact ⟨query, hq, hdata.symm⟩
      · exact ⟨query₁, hp, rfl⟩
    obtain ⟨query₃, h₃, hd₃⟩ := hback p query₁ hp
    obtain ⟨query₄, h₄, hd₄⟩ := hback p' query₂ hp'
    exact h.unique p p' query₃ query₄ h₃ h₄ (by rw [hd₃, hd₄, heq])
  rw [hcb]
  refine Mem.Safe.deref_bind hq ?_
  simp only [hquery']
  have hq' : (r.lookups.put q query').get q = some query' := by simp [hget]
  have hothers : ∀ p query₁, p ≠ q → (r.lookups.put q query').get p = some query₁ →
      all_requests_are_null query₁ = false := by
    intro p query₁ hp hp'
    rw [hget, if_neg hp] at hp'
    exact h.waits p query₁ hp'
  split
  · have hnull : all_requests_are_null query' = true := ‹_›
    have hnone := all_requests_are_null_iff.1 hnull
    refine (process_client_callback_safe (J := J) hq' ?_ hnodup.2 hothers hunique x ?_).mono ?_
    · intro p g
      rw [hpending]
      refine ⟨?_, fun h => h.2⟩
      rintro ⟨query₁, hp, hg⟩
      refine ⟨?_, query₁, hp, hg⟩
      rintro rfl
      rw [hq'] at hp
      cases hp
      rw [hnone g] at hg
      cases hg
    · rw [howns, hdata]
      exact hR hnull
    · rintro r' ⟨hr', hasked⟩
      refine ⟨hr', hasked, fun hfalse => ?_⟩
      rw [hnull] at hfalse
      cases hfalse
  · have hnull : ¬ all_requests_are_null query' = true := ‹_›
    refine Mem.Safe.pure ⟨⟨hnodup.2, hpending, ?_, hunique, ?_⟩, rfl, fun _ => ⟨rfl, hq', howns⟩⟩
    · intro p query₁ hp
      by_cases hpq : p = q
      · subst hpq
        rw [hq'] at hp
        cases hp
        exact Bool.eq_false_iff.2 hnull
      · exact hothers p query₁ hpq hp
    · rw [howns]
      exact h.app

theorem Resolver.answer_safe (h : r.Inv J r.asked) (hq : (q, f) ∈ r.asked) (x : ω) (he : Answer)
    (hR : ∀ query, r.lookups.get q = some query → all_requests_are_null (query.answered f he) = true →
      R.Keeps J x (resolv_mode.choose (query.answered f he)) query.data r.Owns r.app) :
    (r.answer R resolv_mode x f q he).Safe fun r' => r'.Inv J r'.asked := by
  have hinv := (h.perm (List.perm_cons_erase hq)).congr_asked (r.asked.erase (q, f))
  refine (queryCallback_safe hinv x he hR).mono ?_
  rintro r' ⟨hr', hasked, -⟩
  rw [hasked]
  exact hr'

/-! ### Starting a query -/

theorem Resolver.owns_alloc {query : ResolvQuery} {app : W} (hdata : query.data = d) :
    ({ r with lookups := r.lookups.alloc query, app } : Resolver W).Owns = fun e => r.Owns e ∨ e = d := by
  have hget := r.lookups.get_alloc query
  funext e
  refine propext ⟨?_, ?_⟩
  · rintro ⟨p, query', hp, rfl⟩
    simp only [hget] at hp
    split at hp
    · cases hp
      exact .inr hdata
    · exact .inl ⟨p, query', hp, rfl⟩
  · rintro (⟨p, query', hp, rfl⟩ | rfl)
    · have hne : p ≠ r.lookups.next := Nat.ne_of_lt (Heap.lt_next_of_get hp)
      exact ⟨p, query', by simp [hget, hne, hp], rfl⟩
    · exact ⟨r.lookups.next, query, by simp [hget], hdata⟩

/-- A new query waits for both of its requests. -/
theorem Resolver.Inv.start (h : r.Inv J r.asked) (hd : ¬ r.Owns d) {app : W}
    (happ : J (fun e => r.Owns e ∨ e = d) app) {query : ResolvQuery} (hreq : ∀ f, query.request f = true)
    (hdata : query.data = d) :
    ({ r with lookups := r.lookups.alloc query, app } : Resolver W).Inv J
      ((r.lookups.next, .AF_INET) :: (r.lookups.next, .AF_INET6) :: r.asked) := by
  have hget := r.lookups.get_alloc query
  have hfresh : ∀ g, (r.lookups.next, g) ∉ r.asked := by
    intro g hmem
    obtain ⟨query', hq', -⟩ := (h.pending _ _).1 hmem
    rw [Heap.get_next] at hq'
    cases hq'
  refine ⟨?_, ?_, ?_, ?_, ?_⟩
  · simp [h.nodup, hfresh]
  · intro p g
    simp only [List.mem_cons, Prod.mk.injEq, hget]
    split
    · subst p
      simp only [true_and, Option.some.injEq, exists_eq_left', hreq, iff_true]
      cases g
      · exact .inl rfl
      · exact .inr (.inl rfl)
    · simp only [*, false_and, false_or]
      exact h.pending p g
  · intro p query' hp
    simp only [hget] at hp
    split at hp
    · cases hp
      refine Bool.eq_false_iff.2 fun hnull => ?_
      have := all_requests_are_null_iff.1 hnull .AF_INET
      rw [hreq] at this
      cases this
    · exact h.waits p query' hp
  · intro p p' query₁ query₂ hp hp' heq
    simp only [hget] at hp hp'
    split at hp <;> split at hp'
    · simp_all
    · cases hp
      exact absurd ⟨p', query₂, hp', by rw [← heq, hdata]⟩ hd
    · cases hp'
      exact absurd ⟨p, query₁, hp, by rw [heq, hdata]⟩ hd
    · exact h.unique p p' query₁ query₂ hp hp' heq
  · rw [Resolver.owns_alloc hdata]
    exact happ

/-- One of the two requests of `resolv_start`, answered inside the call or later. -/
theorem ares_gethostbyname_safe (h : r.Inv J ((q, f) :: (ps ++ r.asked))) (x : ω) (now : Option Answer)
    (hR : ∀ he, now = some he → ∀ query, r.lookups.get q = some query →
      all_requests_are_null (query.answered f he) = true →
        R.Keeps J x (resolv_mode.choose (query.answered f he)) query.data r.Owns r.app) :
    (ares_gethostbyname R resolv_mode x f r q now).Safe fun r' => r'.Inv J (ps ++ r'.asked) ∧
      ∀ query, r.lookups.get q = some query →
        (∀ he, now = some he → all_requests_are_null (query.answered f he) = false) →
          r'.app = r.app ∧ r'.lookups.get q = some (now.elim query (query.answered f)) ∧ r'.Owns = r.Owns := by
  cases now with
  | some he =>
    refine (queryCallback_safe h x he (hR he rfl)).mono ?_
    rintro r' ⟨hr', hasked, hrest⟩
    rw [hasked]
    refine ⟨hr', fun query hq hopen => ?_⟩
    exact hrest query hq (hopen he rfl)
  | none =>
    refine Mem.Safe.pure ⟨(h.perm List.perm_middle.symm).congr_asked _, ?_⟩
    intro query hq _
    exact ⟨rfl, hq, rfl⟩

/-- The query of `resolv_start` once both answers are in. -/
def ResolvQuery.both (port : Bytes) (d : Nat) (he4 he6 : Answer) : ResolvQuery :=
  (({ request4 := true, request6 := true, responses := [], port, data := d } : ResolvQuery).answered .AF_INET
    he4).answered .AF_INET6 he6

theorem resolv_start_safe (h : r.Inv J r.asked) (hd : ¬ r.Owns d) {app : W}
    (happ : J (fun e => r.Owns e ∨ e = d) app) (x : ω) (port : Bytes) (now4 now6 : Option Answer)
    (hR : ∀ he4 he6, now4 = some he4 → now6 = some he6 →
      R.Keeps J x (resolv_mode.choose (.both port d he4 he6)) d (fun e => r.Owns e ∨ e = d) app) :
    (resolv_start R resolv_mode x { r with app } port d now4 now6).Safe fun r' => r'.Inv J r'.asked := by
  have hreq : ∀ f, ResolvQuery.request ⟨true, true, [], port, d⟩ f = true := by
    intro f
    cases f <;> rfl
  have hstart := h.start hd happ hreq rfl
  have hget : (r.lookups.alloc ⟨true, true, [], port, d⟩).get r.lookups.next = some ⟨true, true, [], port, d⟩ := by
    simp [Heap.get_alloc]
  -- the first answer leaves the other request open
  have hopen : ∀ he, all_requests_are_null (ResolvQuery.answered ⟨true, true, [], port, d⟩ .AF_INET he) = false := by
    intro he
    cases he <;> rfl
  refine Mem.Safe.bind ((@ares_gethostbyname_safe _ _ _ _ _ _ ([(r.lookups.next, .AF_INET6)])) hstart x now4 ?_) ?_
  · rintro he - query hq hnull
    rw [hget] at hq
    cases hq
    rw [hopen] at hnull
    cases hnull
  · rintro r' ⟨hr', happ⟩
    refine ((@ares_gethostbyname_safe _ _ _ _ _ _ ([])) hr' x now6 ?_).mono fun _ h => h.1
    rintro he6 hnow6 query hq hnull
    obtain ⟨happ', hq', howns⟩ := happ _ hget fun he _ => hopen he
    rw [hq'] at hq
    cases hq
    rw [happ', howns]
    cases now4 with
    | none => cases he6 <;> cases hnull
    | some he4 =>
      rw [Option.elim_some, ResolvQuery.data_answered, Resolver.owns_alloc rfl]
      exact hR he4 he6 rfl hnow6

/-! ### Clients that keep their state at every call -/

theorem ResolvClient.Contract.answer_safe (hR : R.Contract J) (h : r.Inv J r.asked) (hq : (q, f) ∈ r.asked) (x : ω)
    (he : Answer) : (r.answer R resolv_mode x f q he).Safe fun r' => r'.Inv J r'.asked := by
  refine r.answer_safe h hq x he fun query hget _ => ?_
  exact hR x _ _ _ _ h.app ⟨q, query, hget, rfl⟩

theorem ResolvClient.Contract.start_safe (hR : R.Contract J) (h : r.Inv J r.asked) (hd : ¬ r.Owns d) {app : W}
    (happ : J (fun e => r.Owns e ∨ e = d) app) (x : ω) (port : Bytes) (now4 now6 : Option Answer) :
    (resolv_start R resolv_mode x { r with app } port d now4 now6).Safe fun r' => r'.Inv J r'.asked :=
  resolv_start_safe h hd happ x port now4 now6 fun _ _ _ _ => hR x _ _ _ _ happ (.inr rfl)

/-! ### What the client's state becomes -/

theorem queryCallback_yields {Q : Resolver W → Prop} (x : ω) (he : Answer)
    (hlast : ∀ query, r.lookups.get q = some query → all_requests_are_null (query.answered f he) = true →
      (R.client_cb x (resolv_mode.choose (query.answered f he)) query.data r.app >>= R.free_cb query.data).Yields
        fun app => ∀ r' : Resolver W, r'.app = app → Q r')
    (hfirst : ∀ query, r.lookups.get q = some query → all_requests_are_null (query.answered f he) = false →
      Q { r with lookups := r.lookups.put q (query.answered f he) }) :
    (queryCallback R resolv_mode x f r q he).Yields Q := by
  have hcb : queryCallback R resolv_mode x f = dns_query_cb R resolv_mode x f := by
    cases f <;> rfl
  rw [hcb]
  refine Mem.Yields.deref_bind fun query hq => ?_
  dsimp only
  split
  · rw [process_client_callback_eq]
    refine Mem.Yields.deref_bind fun query' hq' => ?_
    have hget : (r.lookups.put q (query.answered f he)).get q = some (query.answered f he) :=
      (Heap.get_put hq _ q).trans (if_pos rfl)
    rw [hget] at hq'
    cases hq'
    rw [← bind_assoc, ResolvQuery.data_answered]
    exact (hlast query hq ‹_›).bind fun app happ => Mem.Yields.pure (happ _ rfl)
  · exact Mem.Yields.pure (hfirst query hq (Bool.eq_false_iff.2 ‹_›))

theorem Resolver.answer_yields {Q : W → Prop} (x : ω) (he : Answer)
    (hlast : ∀ query, r.lookups.get q = some query → all_requests_are_null (query.answered f he) = true →
      (R.client_cb x (resolv_mode.choose (query.answered f he)) query.data r.app >>= R.free_cb query.data).Yields Q)
    (hfirst : ∀ query, r.lookups.get q = some query → all_requests_are_null (query.answered f he) = false → Q r.app) :
    (r.answer R resolv_mode x f q he).Yields fun r' => Q r'.app := by
  refine queryCallback_yields x he (fun query hq hnull => ?_) hfirst
  refine (hlast query hq hnull).mono ?_
  rintro app happ r' rfl
  exact happ

theorem resolv_start_yields {Q : W → Prop} (x : ω) (port : Bytes) (now4 now6 : Option Answer)
    (hboth : ∀ he4 he6, now4 = some he4 → now6 = some he6 →
      (R.client_cb x (resolv_mode.choose (.both port d he4 he6)) d r.app >>= R.free_cb d).Yields Q)
    (hlater : now4 = none ∨ now6 = none → Q r.app) :
    (resolv_start R resolv_mode x r port d now4 now6).Yields fun r' => Q r'.app := by
  have hget : (r.lookups.alloc ⟨true, true, [], port, d⟩).get r.lookups.next = some ⟨true, true, [], port, d⟩ := by
    simp [Heap.get_alloc]
  have hopen : ∀ he, all_requests_are_null (ResolvQuery.answered ⟨true, true, [], port, d⟩ .AF_INET he) = false := by
    intro he
    cases he <;> rfl
  refine Mem.Yields.bind (P := fun r₁ => r₁.app = r.app ∧ r₁.lookups.get r.lookups.next =
    some (now4.elim ⟨true, true, [], port, d⟩ (ResolvQuery.answered ⟨true, true, [], port, d⟩ .AF_INET))) ?_ ?_
  · cases now4 with
    | none => exact Mem.Yields.pure ⟨rfl, hget⟩
    | some he4 =>
      rw [ares_gethostbyname]
      refine queryCallback_yields x he4 (fun query hq hnull => ?_) (fun query hq _ => ?_)
      · rw [hget] at hq
        cases hq
        rw [hopen] at hnull
        cases hnull
      · rw [hget] at hq
        cases hq
        exact ⟨rfl, (Heap.get_put hget _ _).trans (if_pos rfl)⟩
  · rintro r₁ ⟨happ, hq₁⟩
    rw [← happ] at hboth hlater
    cases now6 with
    | none => exact Mem.Yields.pure (hlater (.inr rfl))
    | some he6 =>
      rw [ares_gethostbyname]
      refine queryCallback_yields x he6 (fun query hq hnull => ?_) (fun query hq hnull => ?_)
      · rw [hq₁] at hq
        cases hq
        cases now4 with
        | none => cases he6 <;> cases hnull
        | some he4 =>
          rw [Option.elim_some, ResolvQuery.data_answered]
          refine (hboth he4 he6 rfl rfl).mono ?_
          rintro app happ r' rfl
          exact happ
      · rw [hq₁] at hq
        cases hq
        cases now4 with
        | none => exact hlater (.inl rfl)
        | some he4 => cases he4 <;> cases he6 <;> cases hnull

end OutlineServer
