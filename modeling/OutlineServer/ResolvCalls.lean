import OutlineServer.Lib.Trans
import OutlineServer.Resolv

/-!
# The calls that a lookup makes (`resolv.c`)

The client is one that records how it is called. A state has, for each lookup, the answers that have come for it and the
calls made in the events in which they came. In every order of starts and answers, a lookup that has been answered twice
has made the two calls with the address that `best` says, and any other lookup has made none
(`calls_of_lookup`).
-/

namespace OutlineServer.ResolvCalls

inductive Call
  | client_cb (addr : Option SockAddr) (data : Nat)
  | free_cb (data : Nat)
deriving DecidableEq

def recorder : ResolvClient Unit (List Call) where
  client_cb _ addr data calls := .ok (calls ++ [.client_cb addr data])
  free_cb data calls := .ok (calls ++ [.free_cb data])

/-- What has happened to a lookup; its number is that of its query. -/
structure Lookup where
  port : Bytes
  data : Nat
  answers : List (Family × Answer)
  calls : List Call
deriving DecidableEq

structure State where
  resolver : Resolver (List Call)
  lookups : List Lookup

inductive Event
  /-- `resolv_start`, with what c-ares answers at once -/
  | start (port : Bytes) (data : Nat) (now4 now6 : Option Answer)
  | answer (f : Family) (q : Nat) (he : Answer)

/-- The answers that come in `resolv_start`. -/
def atOnce (now4 now6 : Option Answer) : List (Family × Answer) :=
  (now4.map fun he => (.AF_INET, he)).toList ++ (now6.map fun he => (.AF_INET6, he)).toList

def run (mode : ResolvMode) (s : State) : Event → Mem Fault State
  | .start port data now4 now6 => do
    let r ← resolv_start recorder mode () { s.resolver with app := [] } port data now4 now6
    return ⟨r, s.lookups ++ [⟨port, data, atOnce now4 now6, r.app⟩]⟩
  | .answer f q he => do
    let r ← Resolver.answer recorder mode () f { s.resolver with app := [] } q he
    return ⟨r, s.lookups.modify q fun l => { l with answers := l.answers ++ [(f, he)], calls := l.calls ++ r.app }⟩

/-- c-ares answers what it has been asked. -/
def Admitted (s : State) : Event → Prop
  | .start _ _ _ _ => True
  | .answer f q _ => (q, f) ∈ s.resolver.asked

def resolvLts (mode : ResolvMode) : Lts State Event where
  init s := s = ⟨⟨.empty, [], []⟩, []⟩
  step s e s' := Admitted s e ∧ run mode s e = .ok s'

/-- The first address of an answer. -/
def first (port : Bytes) (f : Family) (he : Answer) : Option SockAddr :=
  (he.getD []).head?.map fun addr => ⟨.ofBytes f addr, port⟩

/-- The address for the answers of the two families. -/
def best (mode : ResolvMode) (port : Bytes) (he4 he6 : Answer) : Option SockAddr :=
  match mode with
  | .MODE_IPV4_FIRST => (first port .AF_INET he4).or (first port .AF_INET6 he6)
  | .MODE_IPV6_FIRST => (first port .AF_INET6 he6).or (first port .AF_INET he4)

/-- Both answers are in, in either order, and the two calls have been made after them. -/
def Lookup.Done (mode : ResolvMode) (l : Lookup) : Prop :=
  ∃ he4 he6, (l.answers = [(.AF_INET, he4), (.AF_INET6, he6)] ∨ l.answers = [(.AF_INET6, he6), (.AF_INET, he4)]) ∧
    l.calls = [.client_cb (best mode l.port he4 he6) l.data, .free_cb l.data]

/-- No call has been made before the second answer. -/
def Lookup.Waits (l : Lookup) : Prop := l.answers.length < 2 ∧ l.calls = []

variable {mode : ResolvMode} {s s' : State} {l : Lookup} {r : Resolver (List Call)} {query : ResolvQuery} {q : Nat}
  {f g : Family} {he he' he4 he6 : Answer} {port : Bytes} {data : Nat}

/-! ### The choice -/

def responses (port : Bytes) (f : Family) (he : Answer) : List SockAddr :=
  (he.getD []).map fun addr => ⟨.ofBytes f addr, port⟩

theorem head?_responses : (responses port f he).head? = first port f he := List.head?_map

theorem find?_responses : (responses port f he).find? (fun addr => addr.ip.family = g) =
    if f = g then first port f he else none := by
  have hfam : ∀ addr, (CorkIp.ofBytes f addr).family = f := fun addr => by cases f <;> rfl
  rw [responses, List.find?_map, first]
  simp only [Function.comp_def, hfam]
  split
  · rename_i hfg
    cases he.getD [] with
    | nil => rfl
    | cons addr addrs => simp [hfg]
  · rename_i hfg
    simp [hfg]

theorem responses_answered : (query.answered f he).responses = query.responses ++ responses query.port f he := by
  cases he <;> cases f <;> simp [ResolvQuery.answered, ResolvQuery.complete, ResolvQuery.addResponses, responses]

theorem port_answered : (query.answered f he).port = query.port := by
  cases he <;> cases f <;> rfl

theorem data_answered : (query.answered f he).data = query.data := by
  cases he <;> cases f <;> rfl

/-- The address of the one family or the other, if the answer of the one is the first of both or the second. -/
theorem choose_first_eq (hfg : f ≠ g) (hr : query.responses = responses port f he ++ responses port g he' ∨
    query.responses = responses port g he' ++ responses port f he) :
    choose_first f query = (first port f he).or (first port g he') := by
  have hgf : g ≠ f := hfg.symm
  unfold choose_first choose_any
  rcases hr with hr | hr
  · rw [hr, List.find?_append, find?_responses, find?_responses, if_pos rfl, if_neg hgf, List.head?_append,
      head?_responses, head?_responses, Option.or_none]
    cases first port f he with
    | none => rfl
    | some addr => rfl
  · rw [hr, List.find?_append, find?_responses, find?_responses, if_pos rfl, if_neg hgf, List.head?_append,
      head?_responses, head?_responses, Option.none_or]
    cases first port f he with
    | none => cases first port g he' <;> rfl
    | some addr => rfl

theorem choose_eq_best {answers : List (Family × Answer)}
    (ha : answers = [(.AF_INET, he4), (.AF_INET6, he6)] ∨ answers = [(.AF_INET6, he6), (.AF_INET, he4)])
    (hr : query.responses = answers.flatMap fun a => responses port a.1 a.2) :
    (match mode with
      | .MODE_IPV4_FIRST => choose_ipv4_first query
      | .MODE_IPV6_FIRST => choose_ipv6_first query) = best mode port he4 he6 := by
  have hr' : query.responses = responses port .AF_INET he4 ++ responses port .AF_INET6 he6 ∨
      query.responses = responses port .AF_INET6 he6 ++ responses port .AF_INET he4 := by
    rcases ha with rfl | rfl
    · exact .inl (by simpa using hr)
    · exact .inr (by simpa using hr)
  cases mode with
  | MODE_IPV4_FIRST => exact choose_first_eq (by decide) hr'
  | MODE_IPV6_FIRST => exact choose_first_eq (by decide) hr'.symm

/-! ### An answer -/

/-- What the resolver holds for a lookup. -/
inductive Entry (mode : ResolvMode) (l : Lookup) : Option ResolvQuery → Prop
  | fresh (ha : l.answers = []) (hc : l.calls = []) : Entry mode l (some ⟨true, true, [], l.port, l.data⟩)
  | one (f : Family) (he : Answer) (ha : l.answers = [(f, he)]) (hc : l.calls = []) :
      Entry mode l (some (ResolvQuery.answered ⟨true, true, [], l.port, l.data⟩ f he))
  | done (h : l.Done mode) : Entry mode l none

/-- The lookup has been answered, and the calls have been made. -/
def Lookup.heard (l : Lookup) (f : Family) (he : Answer) (calls : List Call) : Lookup :=
  { l with answers := l.answers ++ [(f, he)], calls := l.calls ++ calls }

theorem queryCallback_first (hq : r.lookups.get q = some query)
    (hrest : all_requests_are_null (query.answered f he) = false) :
    queryCallback recorder mode () f r q he = .ok { r with lookups := r.lookups.put q (query.answered f he) } := by
  have heq : queryCallback recorder mode () f r q he = dns_query_cb recorder mode () f r q he := by cases f <;> rfl
  rw [heq, dns_query_cb, hq, Mem.deref_some, Mem.ok_bind]
  dsimp only
  rw [hrest]
  rfl

theorem queryCallback_second (hq : r.lookups.get q = some query)
    (hnull : all_requests_are_null (query.answered f he) = true) :
    queryCallback recorder mode () f r q he = .ok { r with
      lookups := (r.lookups.put q (query.answered f he)).free q
      app := r.app ++ [.client_cb (match mode with
        | .MODE_IPV4_FIRST => choose_ipv4_first (query.answered f he)
        | .MODE_IPV6_FIRST => choose_ipv6_first (query.answered f he)) query.data, .free_cb query.data] } := by
  have heq : queryCallback recorder mode () f r q he = dns_query_cb recorder mode () f r q he := by cases f <;> rfl
  rw [heq, dns_query_cb, hq, Mem.deref_some, Mem.ok_bind]
  dsimp only
  rw [hnull, if_pos rfl, process_client_callback, Heap.get_put hq, if_pos rfl, Mem.deref_some, Mem.ok_bind,
    data_answered]
  simp only [recorder, Mem.ok_bind, List.append_assoc, List.singleton_append]
  rfl

/-- An answer that has not come yet. -/
theorem Entry.hear (h : Entry mode l (r.lookups.get q)) (hf : ∀ he, (f, he) ∉ l.answers) (he : Answer) :
    ∃ r' calls, queryCallback recorder mode () f r q he = .ok r' ∧ r'.app = r.app ++ calls ∧ r'.asked = r.asked ∧
      r'.lookups.next = r.lookups.next ∧ (∀ p, p ≠ q → r'.lookups.get p = r.lookups.get p) ∧
      Entry mode (l.heard f he calls) (r'.lookups.get q) := by
  generalize hq : r.lookups.get q = o at h
  cases h with
  | fresh ha hc =>
    refine ⟨_, [], queryCallback_first hq (by cases he <;> cases f <;> rfl), (List.append_nil _).symm, rfl,
      Heap.next_put .., fun p hp => ?_, ?_⟩
    · rw [Heap.get_put hq, if_neg hp]
    · rw [Heap.get_put hq, if_pos rfl]
      exact .one f he (by rw [Lookup.heard, ha]; rfl) (by rw [Lookup.heard, hc]; rfl)
  | one g he' ha hc =>
    have hfg : f ≠ g := by
      rintro rfl
      exact hf he' (by rw [ha]; exact List.mem_singleton_self _)
    have hnull : all_requests_are_null ((ResolvQuery.answered ⟨true, true, [], l.port, l.data⟩ g he').answered f he) =
      true := by
      cases he <;> cases he' <;> cases f <;> cases g <;> first | rfl | exact absurd rfl hfg
    refine ⟨_, _, queryCallback_second hq hnull, rfl, rfl, ?_, fun p hp => ?_, ?_⟩
    · rw [Heap.next_free, Heap.next_put]
    · rw [Heap.get_free, if_neg hp, Heap.get_put hq, if_neg hp]
    · rw [Heap.get_free, if_pos rfl]
      refine .done ?_
      have hr : ((ResolvQuery.answered ⟨true, true, [], l.port, l.data⟩ g he').answered f he).responses =
          [(g, he'), (f, he)].flatMap fun a => responses l.port a.1 a.2 := by
        simp [responses_answered, port_answered]
      have hdata : (ResolvQuery.answered ⟨true, true, [], l.port, l.data⟩ g he').data = l.data := data_answered
      obtain ⟨he4, he6, horder⟩ : ∃ he4 he6, [(g, he'), (f, he)] = [(.AF_INET, he4), (.AF_INET6, he6)] ∨
          [(g, he'), (f, he)] = [(.AF_INET6, he6), (.AF_INET, he4)] := by
        cases g <;> cases f
        · exact absurd rfl hfg
        · exact ⟨he', he, .inl rfl⟩
        · exact ⟨he, he', .inr rfl⟩
        · exact absurd rfl hfg
      refine ⟨he4, he6, ?_, ?_⟩
      · rw [Lookup.heard, ha]
        exact horder
      · rw [Lookup.heard, hc, List.nil_append, choose_eq_best horder hr, hdata]
  | done h =>
    obtain ⟨he4, he6, ha, -⟩ := h
    exfalso
    cases f with
    | AF_INET => exact hf he4 (by rcases ha with ha | ha <;> rw [ha] <;> simp)
    | AF_INET6 => exact hf he6 (by rcases ha with ha | ha <;> rw [ha] <;> simp)

/-! ### All the lookups -/

/-- The lookup waits for the family. -/
def Lookup.Lacks (l : Lookup) (f : Family) : Prop := ∀ he, (f, he) ∉ l.answers

/-- `asked` is what the lookups wait for. -/
structure Inv (mode : ResolvMode) (asked : List (Nat × Family)) (r : Resolver (List Call)) (ls : List Lookup) :
    Prop where
  next : r.lookups.next = ls.length
  nodup : asked.Nodup
  asked : ∀ q f, (q, f) ∈ asked ↔ ∃ l, ls[q]? = some l ∧ l.Lacks f
  entry : ∀ q l, ls[q]? = some l → Entry mode l (r.lookups.get q)

variable {asked : List (Nat × Family)} {ls : List Lookup}

theorem lacks_heard {calls : List Call} : (l.heard f he calls).Lacks g ↔ l.Lacks g ∧ g ≠ f := by
  simp only [Lookup.Lacks, Lookup.heard, List.mem_append, List.mem_singleton, Prod.mk.injEq, not_or, not_and]
  constructor
  · intro h
    exact ⟨fun he' => (h he').1, fun hg => (h he).2 hg rfl⟩
  · rintro ⟨h, hg⟩ he'
    exact ⟨h he', fun heq => absurd heq hg⟩

theorem Inv.congr (h : Inv mode asked r ls) {r' : Resolver (List Call)} (hr : r'.lookups = r.lookups) :
    Inv mode asked r' ls :=
  ⟨by rw [hr]; exact h.next, h.nodup, h.asked, fun q l hl => by rw [hr]; exact h.entry q l hl⟩

/-- An answer to one of the requests that are open. -/
theorem Inv.hear (h : Inv mode asked r ls) (hq : (q, f) ∈ asked) (he : Answer) :
    ∃ r' l calls, queryCallback recorder mode () f r q he = .ok r' ∧ ls[q]? = some l ∧ r'.app = r.app ++ calls ∧
      r'.asked = r.asked ∧ Inv mode (asked.erase (q, f)) r' (ls.set q (l.heard f he calls)) := by
  obtain ⟨l, hl, hlacks⟩ := (h.asked q f).1 hq
  obtain ⟨r', calls, hok, happ, hasked, hnext, hframe, hentry⟩ := (h.entry q l hl).hear hlacks he
  have hlt : q < ls.length := (List.getElem?_eq_some_iff.1 hl).1
  refine ⟨r', l, calls, hok, hl, happ, hasked, ?_, h.nodup.erase _, fun p g => ?_, fun p l' hl' => ?_⟩
  · rw [hnext, h.next, List.length_set]
  · rw [h.nodup.mem_erase_iff, h.asked, List.getElem?_set]
    by_cases hp : q = p
    · subst hp
      rw [if_pos rfl, if_pos hlt, hl]
      simp only [Option.some.injEq, exists_eq_left', lacks_heard, ne_eq, Prod.mk.injEq, true_and]
      exact and_comm
    · rw [if_neg hp]
      exact and_iff_right fun heq => hp (Prod.mk.inj heq).1.symm
  · rw [List.getElem?_set] at hl'
    split at hl'
    · rename_i hp
      subst hp
      cases hl'
      exact hentry
    · rename_i hp
      rw [hframe p (Ne.symm hp)]
      exact h.entry p l' hl'

/-- A new lookup, of which nothing has been answered. -/
theorem Inv.start (h : Inv mode asked r ls) (port : Bytes) (data : Nat) :
    Inv mode ((r.lookups.next, .AF_INET) :: (r.lookups.next, .AF_INET6) :: asked)
      { r with lookups := r.lookups.alloc ⟨true, true, [], port, data⟩ } (ls ++ [⟨port, data, [], []⟩]) := by
  have hlt : ∀ g, (r.lookups.next, g) ∉ asked := by
    intro g hmem
    obtain ⟨l, hl, -⟩ := (h.asked _ _).1 hmem
    have := (List.getElem?_eq_some_iff.1 hl).1
    rw [h.next] at this
    omega
  refine ⟨?_, ?_, fun p g => ?_, fun p l hl => ?_⟩
  · rw [Heap.next_alloc, h.next, List.length_append, List.length_singleton]
  · refine List.nodup_cons.2 ⟨?_, List.nodup_cons.2 ⟨hlt _, h.nodup⟩⟩
    rw [List.mem_cons, not_or]
    exact ⟨by simp, hlt _⟩
  · rw [List.mem_cons, List.mem_cons, h.asked, List.getElem?_append]
    split
    · rename_i hp
      have hne : p ≠ r.lookups.next := by rw [h.next]; omega
      simp [hne]
    · rename_i hp
      have hnone : ls[p]? = none := List.getElem?_eq_none (by omega)
      rw [hnone, h.next, List.getElem?_singleton]
      constructor
      · rintro (heq | heq | ⟨l, hl, -⟩)
        · cases heq
          exact ⟨_, by rw [Nat.sub_self]; rfl, fun he => List.not_mem_nil⟩
        · cases heq
          exact ⟨_, by rw [Nat.sub_self]; rfl, fun he => List.not_mem_nil⟩
        · cases hl
      · rintro ⟨l, hl, -⟩
        have hpeq : p = ls.length := by
          split at hl
          · omega
          · cases hl
        subst hpeq
        cases g
        · exact .inl rfl
        · exact .inr (.inl rfl)
  · rw [List.getElem?_append] at hl
    show Entry mode l ((r.lookups.alloc _).get p)
    rw [Heap.get_alloc, h.next]
    split at hl
    · rename_i hp
      rw [if_neg (by omega)]
      exact h.entry p l hl
    · rename_i hp
      rw [List.getElem?_singleton] at hl
      split at hl
      · rw [if_pos (by omega)]
        cases hl
        exact .fresh rfl rfl
      · cases hl

theorem Inv.perm {asked' : List (Nat × Family)} (h : Inv mode asked r ls) (hp : asked.Perm asked') :
    Inv mode asked' r ls :=
  ⟨h.next, hp.nodup_iff.1 h.nodup, fun q f => by rw [← hp.mem_iff]; exact h.asked q f, h.entry⟩

/-- A request, answered at once or later. -/
theorem Inv.ask (rest : List (Nat × Family)) (h : Inv mode ((q, f) :: (rest ++ r.asked)) r ls) (now : Option Answer) :
    ∃ r' l calls, ares_gethostbyname recorder mode () f r q now = .ok r' ∧ ls[q]? = some l ∧ r'.app = r.app ++ calls ∧
      Inv mode (rest ++ r'.asked) r' (ls.set q
        { l with answers := l.answers ++ (now.map fun he => (f, he)).toList, calls := l.calls ++ calls }) := by
  cases now with
  | some he =>
    obtain ⟨r', l, calls, hok, hl, happ, hasked, hinv⟩ := h.hear List.mem_cons_self he
    rw [List.erase_cons_head, ← hasked] at hinv
    exact ⟨r', l, calls, hok, hl, happ, hinv⟩
  | none =>
    obtain ⟨l, hl, -⟩ := (h.asked q f).1 List.mem_cons_self
    refine ⟨_, l, [], rfl, hl, (List.append_nil _).symm, ?_⟩
    have hset : ls.set q { l with answers := l.answers ++ [], calls := l.calls ++ [] } = ls := by
      rw [List.append_nil, List.append_nil]
      obtain ⟨hlt, rfl⟩ := List.getElem?_eq_some_iff.1 hl
      exact List.set_getElem_self hlt
    show Inv mode (rest ++ (q, f) :: r.asked) _ (ls.set q { l with answers := l.answers ++ [], calls := l.calls ++ [] })
    rw [hset]
    have hinv : Inv mode ((q, f) :: (rest ++ r.asked)) { r with asked := (q, f) :: r.asked } ls := h.congr rfl
    exact hinv.perm List.perm_middle.symm

theorem run_start (h : Inv mode s.resolver.asked s.resolver s.lookups) (port : Bytes) (data : Nat)
    (now4 now6 : Option Answer) :
    ∃ s', run mode s (.start port data now4 now6) = .ok s' ∧ Inv mode s'.resolver.asked s'.resolver s'.lookups := by
  set q := s.resolver.lookups.next with hq
  set r₀ : Resolver (List Call) :=
    { lookups := s.resolver.lookups.alloc ⟨true, true, [], port, data⟩, asked := s.resolver.asked, app := [] } with hr₀
  have h₀ : Inv mode ((q, .AF_INET) :: ([(q, .AF_INET6)] ++ r₀.asked)) r₀ (s.lookups ++ [⟨port, data, [], []⟩]) :=
    (h.start port data).congr rfl
  obtain ⟨r₁, l₁, calls₁, hok₁, hl₁, happ₁, h₁⟩ := h₀.ask [(q, .AF_INET6)] now4
  have hlen : q = s.lookups.length := h.next
  rw [hlen, List.getElem?_concat_length] at hl₁
  cases hl₁
  rw [hlen, List.set_append_right _ _ le_rfl, Nat.sub_self, List.set_cons_zero, ← hlen] at h₁
  obtain ⟨r₂, l₂, calls₂, hok₂, hl₂, happ₂, h₂⟩ := Inv.ask [] h₁ now6
  rw [hlen, List.getElem?_concat_length] at hl₂
  cases hl₂
  rw [hlen, List.set_append_right _ _ le_rfl, Nat.sub_self, List.set_cons_zero] at h₂
  refine ⟨⟨r₂, s.lookups ++ [⟨port, data, atOnce now4 now6, r₂.app⟩]⟩, ?_, ?_⟩
  · rw [run, resolv_start]
    show ((ares_gethostbyname recorder mode () .AF_INET r₀ q now4 >>= fun r =>
      ares_gethostbyname recorder mode () .AF_INET6 r q now6) >>= _) = _
    rw [hok₁, Mem.ok_bind, hok₂, Mem.ok_bind]
    rfl
  · have happ : r₂.app = calls₁ ++ calls₂ := by rw [happ₂, happ₁, hr₀, List.nil_append]
    rw [happ]
    exact h₂

theorem run_answer (h : Inv mode s.resolver.asked s.resolver s.lookups) (hq : (q, f) ∈ s.resolver.asked) (he : Answer) :
    ∃ s', run mode s (.answer f q he) = .ok s' ∧ Inv mode s'.resolver.asked s'.resolver s'.lookups := by
  set r₀ : Resolver (List Call) :=
    { lookups := s.resolver.lookups, asked := s.resolver.asked.erase (q, f), app := [] } with hr₀
  have h₀ : Inv mode s.resolver.asked r₀ s.lookups := h.congr rfl
  obtain ⟨r', l, calls, hok, hl, happ, hasked, hinv⟩ := h₀.hear hq he
  have hset : s.lookups.modify q (fun l => { l with answers := l.answers ++ [(f, he)], calls := l.calls ++ r'.app }) =
      s.lookups.set q (l.heard f he calls) := by
    rw [List.modify_eq_set_getElem?, hl, happ, hr₀, List.nil_append]
    rfl
  refine ⟨⟨r', s.lookups.set q (l.heard f he calls)⟩, ?_, ?_⟩
  · rw [run, Resolver.answer]
    show (queryCallback recorder mode () f r₀ q he >>= _) = _
    rw [hok, Mem.ok_bind, hset]
    rfl
  · show Inv mode r'.asked r' _
    rw [hasked]
    exact hinv

theorem run_ok (h : Inv mode s.resolver.asked s.resolver s.lookups) {e : Event} (he : Admitted s e) :
    ∃ s', run mode s e = .ok s' ∧ Inv mode s'.resolver.asked s'.resolver s'.lookups := by
  cases e with
  | start port data now4 now6 => exact run_start h port data now4 now6
  | answer f q a => exact run_answer h he a

theorem inv_of_reach (h : (resolvLts mode).Reach s) : Inv mode s.resolver.asked s.resolver s.lookups := by
  refine h.invariant (I := fun s => Inv mode s.resolver.asked s.resolver s.lookups) ?_ ?_
  · rintro s rfl
    exact ⟨rfl, List.nodup_nil, by simp, by simp⟩
  · rintro s e s' - hs ⟨hadm, hrun⟩
    obtain ⟨s'', hok, hinv⟩ := run_ok hs hadm
    rw [hrun] at hok
    cases hok
    exact hinv

/-- In every order of starts and answers: whatever c-ares answers is handled; c-ares still has to answer what the
lookups lack; and of each lookup, no call has been made before the second answer, and the two calls after it. -/
theorem calls_of_lookup (h : (resolvLts mode).Reach s) :
    (∀ l ∈ s.lookups, l.Done mode ∨ l.Waits) ∧
    (∀ q f, (q, f) ∈ s.resolver.asked ↔ ∃ l, s.lookups[q]? = some l ∧ l.Lacks f) ∧
    (∀ e, Admitted s e → ∃ s', run mode s e = .ok s') := by
  have hinv := inv_of_reach h
  refine ⟨fun l hl => ?_, hinv.asked, fun e he => ?_⟩
  · obtain ⟨q, hq⟩ := List.mem_iff_getElem?.1 hl
    have hentry := hinv.entry q l hq
    generalize s.resolver.lookups.get q = o at hentry
    rcases hentry with ⟨ha, hc⟩ | ⟨f, he, ha, hc⟩ | hdone
    · exact .inr ⟨by rw [ha]; decide, hc⟩
    · exact .inr ⟨by rw [ha]; simp, hc⟩
    · exact .inl hdone
  · obtain ⟨s', hok, -⟩ := run_ok hinv he
    exact ⟨s', hok⟩

theorem reach_start (h : (resolvLts mode).Reach s) (port : Bytes) (data : Nat) (now4 now6 : Option Answer)
    (hrun : run mode s (.start port data now4 now6) = .ok s') : (resolvLts mode).Reach s' :=
  h.step (e := .start port data now4 now6) ⟨trivial, hrun⟩

theorem reach_answer (h : (resolvLts mode).Reach s) (f : Family) (q : Nat) (he : Answer)
    (hq : (q, f) ∈ s.resolver.asked) (hrun : run mode s (.answer f q he) = .ok s') : (resolvLts mode).Reach s' :=
  h.step (e := .answer f q he) ⟨hq, hrun⟩

/-- Two lookups whose answers cross: the AAAA answer of the first comes before the A answer, which is preferred. -/
theorem calls_of_lookup_two : ∃ s, s.lookups.map Lookup.calls =
      [[.client_cb (some ⟨.v4 [10, 0, 0, 1], [0, 80]⟩) 7, .free_cb 7], []] ∧
    (∀ l ∈ s.lookups, l.Done .MODE_IPV4_FIRST ∨ l.Waits) ∧
    (∀ q f, (q, f) ∈ s.resolver.asked ↔ ∃ l, s.lookups[q]? = some l ∧ l.Lacks f) ∧
    (∀ e, Admitted s e → ∃ s', run .MODE_IPV4_FIRST s e = .ok s') := by
  have h₀ : (resolvLts .MODE_IPV4_FIRST).Reach ⟨⟨.empty, [], []⟩, []⟩ := .init rfl
  have h₁ := reach_start h₀ [0, 80] 7 none none rfl
  have h₂ := reach_start h₁ [1, 187] 8 none (some none) rfl
  have h₃ := reach_answer h₂ .AF_INET6 0 (some [List.replicate 16 1]) (by decide) rfl
  have h₄ := reach_answer h₃ .AF_INET 0 (some [[10, 0, 0, 1], [10, 0, 0, 2]]) (by decide) rfl
  exact ⟨_, rfl, calls_of_lookup h₄⟩

end OutlineServer.ResolvCalls
