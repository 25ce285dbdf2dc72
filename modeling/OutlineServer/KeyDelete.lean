import OutlineServer.KeyShared

/-!
# Deleting by identifier

`keyApi` is the API server alone, its manager answering `ok`. `DELETE` of a key goes over the key's name: in
every reachable state it removes that key and nothing else exactly if the name leads back to it
(`delete_removes_iff`).
-/

namespace OutlineServer
open Prog

/-- The API's own requests. -/
def KeyCall.IsRequest : KeyCall → Prop
  | .create .. | .delete _ | .put_name .. | .lock_ip .. | .unlock_ip _ => True
  | _ => False

/-- The manager replies `ok` and the file is written. -/
def WillingStep : KeyWorld → (o : KeyOp) → o.Res → KeyWorld → Prop := KeyStep (fun _ x => x.Ok) (· = true)

/-- The API server, from the start of an empty store. -/
def keyApi (py : Python) : Lts (KeyManager × KeyWorld) KeyCall where
  init s := s.1.ports = Dict.empty
  step s c s' := c.IsRequest ∧ ∃ r, Runs WillingStep (c.body py s.1) s.2 (r, s'.1) s'.2

/-- The entry of `port` is gone, nothing else of the map or of the manager's table. -/
structure Removed (m : KeyManager) (w : KeyWorld) (m' : KeyManager) (w' : KeyWorld) (port : Int) : Prop where
  ports : m'.ports = m.ports.erase port
  table : ∀ q, q ∈ w'.table ↔ q ∈ w.table ∧ q ≠ port

/-- The name of an entry as `find_by_name` compares it. -/
def entryName (py : Python) (entry : Entry) : Text := py.lower (py.str (entry.getD "name".toList (.str [])))

/-- The name of the key is a string that trimming leaves alone but for its case, and no entry before its own
has it. -/
def LeadsBack (py : Python) (ports : Ports) (port : Int) (entry : Entry) : Prop :=
  ∃ text, entry.get? "name".toList = some (.str text) ∧ py.lower text = py.lower (strip text) ∧
    ∃ before after, ports.items = before ++ (port, entry) :: after ∧ ∀ q ∈ before, entryName py q.2 ≠ py.lower text

/-! ### Names -/

/-- Every entry has a name. -/
def Named (ports : Ports) : Prop := ∀ port entry, ports.get? port = some entry → "name".toList ∈ entry.keys

namespace Named
variable {ports : Ports} {port : Int} {entry : Entry}

theorem set (h : Named ports) (hentry : "name".toList ∈ entry.keys) : Named (ports.set port entry) := by
  intro q e he
  rw [Dict.get?_set] at he
  split at he
  · cases he
    exact hentry
  · exact h q e he

theorem erase (h : Named ports) : Named (ports.erase port) := by
  intro q e he
  rw [Dict.get?_erase] at he
  split at he
  · cases he
  · exact h q e he

theorem update (h : Named ports) (hentry : ports.get? port = some entry) (field : Text) (value : Value) :
    Named (ports.set port (entry.set field value)) :=
  h.set (Dict.mem_keys_set.2 (.inr (h port entry hentry)))

end Named

theorem name_mem_newEntry (password method : Value) (name : Text) : "name".toList ∈
    (newEntry password method name).keys := by
  unfold newEntry
  exact Dict.mem_keys_set.2 (.inr (Dict.mem_keys_set.2 (.inl rfl)))

section
variable {exchange : Command → Exchange → Prop} {write : Bool → Prop} {py : Python} {m m' : KeyManager}
  {w w' : KeyWorld}

theorem AddOutcome.named {target : Option Int} {r : Except Exc KeyPayload}
    (h : AddOutcome exchange write py target m w r m' w') (hm : Named m.ports) : Named m'.ports := by
  cases h with
  | rejected => exact hm
  | refused => exact hm
  | unsaved => exact hm.set (name_mem_newEntry _ _ _)
  | added => exact hm.set (name_mem_newEntry _ _ _)

theorem DeleteOutcome.named {name : Value} {r : Except Exc KeyPayload}
    (h : DeleteOutcome exchange write py name m w r m' w') (hm : Named m.ports) : Named m'.ports := by
  cases h with
  | rejected => exact hm
  | refused => exact hm
  | unsaved => exact hm.erase
  | deleted => exact hm.erase

theorem UpdateOutcome.named {U : Int → Entry → Text → Value → Prop} {r : Except Exc Unit}
    (h : UpdateOutcome write m w U r m' w') (hm : Named m.ports) : Named m'.ports := by
  cases h with
  | raised => exact hm
  | unsaved _ hentry => exact hm.update hentry _ _
  | updated _ hentry => exact hm.update hentry _ _

theorem named_call {c : KeyCall} {r : Except Exc Unit} (h : Runs (KeyStep exchange write) (c.body py m) w (r, m') w')
    (hm : Named m.ports) : Named m'.ports := by
  cases c with
  | create port name password method =>
    obtain ⟨r₀, h, -⟩ := runs_discard h
    obtain ⟨target, r₁, h, -⟩ := runs_handle_create_key h
    exact h.named hm
  | delete port =>
    rcases runs_handle_delete_key h with ⟨-, -, rfl, rfl⟩ | ⟨entry, r₀, -, h, -⟩
    · exact hm
    · exact h.named hm
  | put_name port name => exact (runs_handle_put_name h).named hm
  | lock_ip port ip => exact (runs_handle_lock_ip h).named hm
  | unlock_ip port => exact (runs_handle_clear_lock_ip h).named hm
  | cli_add_key name port password =>
    obtain ⟨r₀, h, -⟩ := runs_discard h
    exact (runs_add_key h).named hm
  | cli_del_key name =>
    obtain ⟨r₀, h, -⟩ := runs_discard h
    exact (runs_delete_key h).named hm
  | cli_lock_key name ip => exact (runs_set_lock_ip h).named hm
  | cli_unlock_key name => exact (runs_clear_lock_ip h).named hm

theorem named_reach {s : KeyManager × KeyWorld} (h : (keyApi py).Reach s) : Named s.1.ports := by
  refine h.invariant (I := fun s : KeyManager × KeyWorld => Named s.1.ports) ?_ ?_
  · intro s hs port entry hentry
    rw [hs] at hentry
    cases hentry
  · rintro s c s' - hs ⟨-, r, hrun⟩
    exact named_call hrun hs

end

/-! ### Resolving the name -/

section
variable {py : Python} {ports : Ports} {port : Int} {entry : Entry}

theorem asStr_eq_ok {v : Value} {text : Text} : asStr v = .ok text ↔ v = .str text := by
  constructor
  · intro h
    unfold asStr at h
    split at h
    · rename_i hs
      cases h
      exact Value.ext hs
    · cases h
  · rintro rfl
    rfl

/-- The lookup of a name finds the key exactly if no entry before it has the name. -/
theorem find_by_name_eq_some {text : Text} : find_by_name py ports text = some (port, entry) ↔
    entryName py entry = py.lower (strip text) ∧
      ∃ before after, ports.items = before ++ (port, entry) :: after ∧
        ∀ q ∈ before, entryName py q.2 ≠ py.lower (strip text) := by
  rw [find_by_name, List.find?_eq_some_iff_append]
  simp [entryName]

/-- The name that the handler hands to `delete_key` leads to the key. -/
theorem leadsBack_iff (hnamed : "name".toList ∈ entry.keys) :
    LeadsBack py ports port entry ↔
      ∃ text, asStr (entry.getD "name".toList (.str (strInt port))) = .ok text ∧
        find_by_name py ports text = some (port, entry) := by
  obtain ⟨name, hname⟩ := Dict.mem_keys.1 hnamed
  have hget : ∀ d, entry.getD "name".toList d = name := fun d => by rw [Dict.getD, hname, Option.getD_some]
  have hentry : ∀ text, name = .str text → entryName py entry = py.lower text := by
    rintro text rfl
    rw [entryName, hget]
    rfl
  rw [hget]
  constructor
  · rintro ⟨text, ht, hlower, before, after, hitems, hbefore⟩
    rw [hname] at ht
    cases ht
    refine ⟨text, asStr_eq_ok.2 rfl, find_by_name_eq_some.2 ⟨?_, before, after, hitems, ?_⟩⟩
    · rw [hentry text rfl, hlower]
    · rw [← hlower]
      exact hbefore
  · rintro ⟨text, ht, hfound⟩
    have hn := asStr_eq_ok.1 ht
    obtain ⟨hown, before, after, hitems, hbefore⟩ := find_by_name_eq_some.1 hfound
    rw [hentry text hn] at hown
    refine ⟨text, by rw [hname, hn], hown, before, after, hitems, ?_⟩
    rw [hown]
    exact hbefore

end

section
variable {py : Python} {m m' : KeyManager} {w w' : KeyWorld} {port : Int} {entry : Entry} {r : Except Exc Unit}

/-- What `DELETE` does where the manager replies `ok`: nothing, or it erases the entry that the name leads to. -/
theorem runs_delete_willing (hentry : m.ports.get? port = some entry)
    (h : Runs WillingStep (handle_delete_key py port m) w (r, m') w') :
    ((∀ text, asStr (entry.getD "name".toList (.str (strInt port))) = .ok text → find_by_name py m.ports text = none) ∧
        m' = m) ∨
      ∃ text q e, asStr (entry.getD "name".toList (.str (strInt port))) = .ok text ∧
        find_by_name py m.ports text = some (q, e) ∧ Removed m w m' w' q := by
  rcases runs_handle_delete_key h with ⟨hnone, -⟩ | ⟨entry', r₀, hentry', h, -⟩
  · rw [hentry] at hnone
    cases hnone
  rw [hentry] at hentry'
  cases hentry'
  cases h with
  | rejected e hnone => exact .inl ⟨hnone, rfl⟩
  | refused _ _ hx hok => exact absurd hx hok
  | unsaved _ _ _ _ hwrite => cases hwrite
  | @deleted text q e x htext hfound _ hok =>
    refine .inr ⟨text, q, e, htext, hfound, rfl, fun p => ?_⟩
    rw [hok.1]
    simp [Acted.table]

/-- For every reachable state and every stored key. -/
theorem delete_removes_iff (h : (keyApi py).Reach (m, w)) (hentry : m.ports.get? port = some entry)
    (hrun : Runs WillingStep (handle_delete_key py port m) w (r, m') w') :
    Removed m w m' w' port ↔ LeadsBack py m.ports port entry := by
  rw [leadsBack_iff (named_reach h port entry hentry)]
  have hmem : port ∈ m.ports.keys := Dict.mem_keys.2 ⟨_, hentry⟩
  have hkeys : ∀ {ports : Ports}, ports = m.ports.erase port → port ∉ ports.keys := by
    rintro ports rfl hp
    exact (Dict.mem_keys_erase.1 hp).2 rfl
  rcases runs_delete_willing hentry hrun with ⟨hnone, rfl⟩ | ⟨text, q, e, htext, hfound, hremoved⟩
  · refine iff_of_false (fun hr => hkeys hr.ports hmem) ?_
    rintro ⟨text, htext, hfound⟩
    rw [hnone text htext] at hfound
    cases hfound
  · constructor
    · intro hr
      -- the two erased the same port
      have hq : q = port := by
        by_contra hne
        refine hkeys (hremoved.ports.symm.trans hr.ports) ?_
        exact Dict.mem_keys_erase.2 ⟨hmem, fun heq => hne heq.symm⟩
      subst hq
      have he : e = entry := Option.some.inj ((find_by_name_mem hfound).symm.trans hentry)
      exact ⟨text, htext, he ▸ hfound⟩
    · rintro ⟨text', htext', hfound'⟩
      rw [htext] at htext'
      cases htext'
      rw [hfound] at hfound'
      cases hfound'
      exact hremoved

end

/-! ### Two keys of one name -/

/-- The state after a request. -/
def serve (c : KeyCall) (s : KeyManager × KeyWorld) : KeyManager × KeyWorld :=
  let ran := (c.body asciiPython s.1).exec (answered ⟨.done, true⟩ true) s.2
  (ran.1.2, ran.2)

theorem willingStep_answered (o : KeyOp) (w : KeyWorld) :
    WillingStep w o (answered ⟨.done, true⟩ true o w).1 (answered ⟨.done, true⟩ true o w).2 :=
  keyStep_answered (fun _ x => x.Ok) (· = true) (fun _ => ⟨rfl, rfl⟩) rfl o w

theorem step_serve {c : KeyCall} (hc : c.IsRequest) (s : KeyManager × KeyWorld) :
    (keyApi asciiPython).step s c (serve c s) :=
  ⟨hc, _, Runs.of_exec willingStep_answered _ _⟩

def freshApi : KeyManager × KeyWorld := (⟨DEFAULT_PORT_START, DEFAULT_PORT_END, Dict.empty⟩, ⟨none, []⟩)

def createB : KeyCall := .create .null (.str "b".toList) (.str "y".toList) DEFAULT_METHOD

/-- `a` in 444 and `b` in 445. -/
def twoKeys : KeyManager × KeyWorld := serve createB (serve createA freshApi)

theorem reach_twoKeys : (keyApi asciiPython).Reach twoKeys := by
  have hinit : (keyApi asciiPython).init freshApi := rfl
  exact .step (.step (.init hinit) (step_serve (c := createA) trivial _)) (step_serve (c := createB) trivial _)

theorem delete_removes_iff_445 : Removed twoKeys.1 twoKeys.2 (serve (.delete 445) twoKeys).1
    (serve (.delete 445) twoKeys).2 445 := by
  have hrun := Runs.of_exec willingStep_answered (handle_delete_key asciiPython 445 twoKeys.1) twoKeys.2
  refine ((@delete_removes_iff _ _ _ _ _ _ (newEntry (.str "y".toList) DEFAULT_METHOD "b".toList)) reach_twoKeys rfl
    hrun).2 ?_
  refine ⟨"b".toList, rfl, rfl, [(444, newEntry (.str "x".toList) DEFAULT_METHOD "a".toList)], [], rfl, ?_⟩
  rintro q hq
  cases List.mem_singleton.1 hq
  decide +kernel

/-- `b` is renamed to `a`: `DELETE` of 445 removes 444. -/
theorem delete_removes_other : ∃ m w m' w' entry r, (keyApi asciiPython).Reach (m, w) ∧
    m.ports.get? 445 = some entry ∧ Runs WillingStep (handle_delete_key asciiPython 445 m) w (r, m') w' ∧
    ¬ Removed m w m' w' 445 := by
  let renamed := serve (.put_name 445 (some (.str "a".toList))) twoKeys
  have hreach : (keyApi asciiPython).Reach renamed := 
    reach_twoKeys.step (step_serve (c := .put_name 445 (some (.str "a".toList))) trivial _)
  refine ⟨renamed.1, renamed.2, _, _, newEntry (.str "y".toList) DEFAULT_METHOD "a".toList, _, hreach, rfl,
    Runs.of_exec willingStep_answered _ _, ?_⟩
  intro h
  have hkeys : (renamed.1.ports.erase 445).keys = [445] := by
    rw [← h.ports]
    rfl
  revert hkeys
  decide +kernel

end OutlineServer
