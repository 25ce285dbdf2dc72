import OutlineServer.KeyStoreSpec

/-!
# Atomicity of the key store

Three copies of the presence of a port: the map in memory, `ports.json` and the manager's table. `Atomic` says
what a call of `add_key` or `delete_key` should do to them; it does so exactly if it goes through or if the
copies agree on its port and the manager leaves it alone (`atomic_iff`).
-/

namespace OutlineServer
open Prog

inductive StoreCall
  | add_key (name : Value) (port : Option Int) (password method : Value)
  | delete_key (name : Value)

def StoreCall.body (py : Python) : StoreCall → KeyMethod KeyPayload
  | .add_key name port password method => OutlineServer.add_key py name port password method
  | .delete_key name => OutlineServer.delete_key py name

/-- The port is in `ports.json`. -/
def InFile (file : Option ByteArray) (port : Int) : Prop :=
  ∃ ms, _load_ports file = .ok (.obj ms) ∧ strInt port ∈ ms.map Prod.fst

structure Agree (m : KeyManager) (w : KeyWorld) (port : Int) : Prop where
  file : port ∈ m.ports.keys ↔ InFile w.file port
  table : port ∈ m.ports.keys ↔ port ∈ w.table

structure Unchanged (m : KeyManager) (w : KeyWorld) (m' : KeyManager) (w' : KeyWorld) (port : Int) : Prop where
  memory : port ∈ m'.ports.keys ↔ port ∈ m.ports.keys
  file : InFile w'.file port ↔ InFile w.file port
  table : port ∈ w'.table ↔ port ∈ w.table

/-- The key that the call is about, if it gets as far as the manager. -/
def StoreCall.target (py : Python) (m : KeyManager) : StoreCall → Option Int
  | .add_key name port _ _ => addTarget py m name port
  | .delete_key name =>
    match asStr name with
    | .ok text => (find_by_name py m.ports text).map Prod.fst
    | .error _ => none

/-- The port in the arguments. -/
def StoreCall.asked : StoreCall → Option Int
  | .add_key _ port _ _ => port
  | .delete_key _ => none

/-- The port that the call is about: that of the key, else the one in the arguments. -/
def StoreCall.port (py : Python) (m : KeyManager) (c : StoreCall) : Option Int :=
  (c.target py m).or c.asked

/-- If the call raises its port has not come or gone and the copies agree on it; if it returns they all have the
port that has been added, or all lack the port that has been deleted. -/
def Atomic (py : Python) (m : KeyManager) (w : KeyWorld) (c : StoreCall) (r : Except Exc KeyPayload) (m' : KeyManager)
    (w' : KeyWorld) : Prop :=
  match r, c with
  | .error _, c => ∀ port, c.port py m = some port → Unchanged m w m' w' port ∧ Agree m' w' port
  | .ok key, .add_key .. => key.port ∈ m'.ports.keys ∧ InFile w'.file key.port ∧ key.port ∈ w'.table
  | .ok key, .delete_key _ => key.port ∉ m'.ports.keys ∧ ¬ InFile w'.file key.port ∧ key.port ∉ w'.table

/-- A key that is deleted has a password to return. -/
def StoreCall.Payable (m : KeyManager) (c : StoreCall) (port : Int) : Prop :=
  match c with
  | .add_key .. => True
  | .delete_key _ => ∃ entry, m.ports.get? port = some entry ∧ "password".toList ∈ entry.keys

/-- The exchange of `add` or `remove`; `clear_ip` may do anything. -/
def exchangeIs (x : Exchange) : Command → Exchange → Prop
  | .add .., y | .remove _, y => y = x
  | _, _ => True

/-- The call goes through. -/
def StoreCall.Completes (py : Python) (m : KeyManager) (c : StoreCall) (x : Exchange) (saved : Bool) : Prop :=
  ∃ port, c.target py m = some port ∧ x.Ok ∧ saved = true ∧ c.Payable m port

/-- The manager lists the port of an `add`, whether or not it starts the server, or drops that of a `remove`. -/
def StoreCall.Acts (c : StoreCall) (x : Exchange) : Prop :=
  match c with
  | .add_key .. => x.acted = .done ∨ x.acted = .unstarted
  | .delete_key _ => x.acted = .done

/-- The manager does nothing. -/
def StoreCall.Idle (py : Python) (m : KeyManager) (c : StoreCall) (x : Exchange) : Prop :=
  c.target py m = none ∨ ¬ c.Acts x

/-- The copies agree on the port of the call. -/
def StoreCall.Agrees (py : Python) (m : KeyManager) (w : KeyWorld) (c : StoreCall) : Prop :=
  ∀ port, c.port py m = some port → Agree m w port

/-! ### The copies -/

theorem inFile_saved {ports : Ports} {port : Int} : InFile (some (portsText ports).utf8Encode) port ↔
    port ∈ ports.keys := by
  have hkeys : ∀ ps : List (Int × Entry),
      strInt port ∈ (ps.map fun p => (strInt p.1, Entry.toJson p.2)).map Prod.fst ↔ port ∈ ps.map Prod.fst := by
    intro ps
    rw [List.map_map, List.mem_map, List.mem_map]
    exact ⟨fun ⟨p, hp, h⟩ => ⟨p, hp, strInt_injective h⟩, fun ⟨p, hp, h⟩ => ⟨p, hp, congrArg strInt h⟩⟩
  unfold InFile
  rw [load_saved]
  constructor
  · rintro ⟨ms, h, hport⟩
    cases h
    exact (hkeys _).1 hport
  · exact fun hport => ⟨_, rfl, (hkeys _).2 hport⟩

theorem mem_table_add {acted : Acted} (h : acted = .done ∨ acted = .unstarted) {port p : Int}
    {password method : Value} {table : List Int} :
    p ∈ acted.table (.add port password method) table ↔ p = port ∨ p ∈ table := by
  have htable : acted.table (.add port password method) table = port :: table.filter (· ≠ port) := by
    rcases h with rfl | rfl <;> rfl
  rw [htable, List.mem_cons, List.mem_filter, decide_eq_true_eq]
  by_cases hp : p = port <;> simp [hp]

theorem mem_table_remove {port p : Int} {table : List Int} :
    p ∈ Acted.done.table (.remove port) table ↔ p ∈ table ∧ p ≠ port := by
  simp [Acted.table]

/-- A manager that does not list the port of an `add` has at most taken it out of the table. -/
theorem mem_table_add_not_listed {acted : Acted} (h : ¬ (acted = .done ∨ acted = .unstarted)) {port p : Int}
    {password method : Value} {table : List Int} (hport : port ∉ table) :
    p ∈ acted.table (.add port password method) table ↔ p ∈ table := by
  cases acted with
  | done => exact absurd (.inl rfl) h
  | unstarted => exact absurd (.inr rfl) h
  | refused => rfl
  | notReceived => rfl
  | unavailable =>
    simp only [Acted.table, List.mem_filter, decide_eq_true_eq]
    exact and_iff_left_of_imp fun hp heq => hport (heq ▸ hp)

theorem table_remove_not_done {acted : Acted} (h : acted ≠ .done) {port : Int} {table : List Int} :
    acted.table (.remove port) table = table := by
  cases acted with
  | done => exact absurd rfl h
  | _ => rfl

theorem key_payload_port {port : Int} {entry : Entry} {key : KeyPayload} (h : key_payload port entry = .ok key) :
    key.port = port := by
  unfold key_payload at h
  split at h
  · cases h
  · cases h
    rfl

/-- The payload of an entry fails for the lack of a password only. -/
theorem key_payload_ok_iff {port : Int} {entry : Entry} :
    (∃ key, key_payload port entry = .ok key) ↔ "password".toList ∈ entry.keys := by
  unfold key_payload
  rw [Dict.mem_keys]
  cases entry.get? "password".toList with
  | none => exact iff_of_false (fun ⟨key, h⟩ => by cases h) fun ⟨v, h⟩ => by cases h
  | some password => exact ⟨fun _ => ⟨password, rfl⟩, fun _ => ⟨_, rfl⟩⟩

section
variable {py : Python} {m m' : KeyManager} {w w' : KeyWorld} {x : Exchange} {saved : Bool} {c : StoreCall}

/-! ### How a call fails -/

theorem port_of_target {port : Int} (h : c.target py m = some port) : c.port py m = some port := by
  rw [StoreCall.port, h, Option.some_or]

/-- A call that raises and leaves its port in the table as it was. -/
theorem atomic_idle {e : Exc} {table : List Int}
    (h : ∀ port, c.port py m = some port → Agree m w port → (port ∈ table ↔ port ∈ w.table)) :
    Atomic py m w c (.error e) m { w with table } ↔ c.Agrees py m w := by
  constructor
  · intro hatomic port hport
    obtain ⟨⟨-, -, htable⟩, hfile, hagree⟩ := hatomic port hport
    exact ⟨hfile, hagree.trans htable⟩
  · intro hagree port hport
    have htable := h port hport (hagree port hport)
    exact ⟨⟨.rfl, .rfl, htable⟩, (hagree port hport).file, (hagree port hport).table.trans htable.symm⟩

/-- A call that raises and has changed the map. -/
theorem not_atomic_of_memory {e : Exc} {port : Int} (hport : c.target py m = some port)
    (h : ¬ (port ∈ m'.ports.keys ↔ port ∈ m.ports.keys)) : ¬ Atomic py m w c (.error e) m' w' :=
  fun hatomic => h (hatomic port (port_of_target hport)).1.memory

/-- A call that raises while the manager has done what was asked. -/
theorem not_atomic_of_table {e : Exc} {port : Int} (hport : c.target py m = some port)
    (h : ¬ (port ∈ m'.ports.keys ↔ port ∈ w'.table)) : ¬ Atomic py m w c (.error e) m' w' :=
  fun hatomic => h (hatomic port (port_of_target hport)).2.table

theorem not_completes_of_refused (h : ¬ x.Ok) : ¬ c.Completes py m x saved := fun ⟨_, _, hok, _⟩ => h hok

theorem not_completes_of_unsaved : ¬ c.Completes py m x false := fun ⟨_, _, _, hsaved, _⟩ => by cases hsaved

theorem not_idle {port : Int} (ht : c.target py m = some port) (h : c.Acts x) : ¬ c.Idle py m x := by
  rintro (hnone | hacts)
  · rw [ht] at hnone
    cases hnone
  · exact hacts h

/-- The manager has done what an exchange that is answered `ok` asks for. -/
theorem acts_of_ok (h : x.Ok) : c.Acts x := by
  cases c with
  | add_key name port password method => exact .inl h.1
  | delete_key name => exact h.1

theorem add_atomic_iff {name : Value} {port : Option Int} {password method : Value} {r : Except Exc KeyPayload}
    (h : AddOutcome (exchangeIs x) (· = saved) py (addTarget py m name port) m w r m' w') :
    Atomic py m w (.add_key name port password method) r m' w' ↔
      StoreCall.Completes py m (.add_key name port password method) x saved ∨
        StoreCall.Agrees py m w (.add_key name port password method) ∧
          StoreCall.Idle py m (.add_key name port password method) x := by
  have htarget : (StoreCall.add_key name port password method).target py m = addTarget py m name port := rfl
  cases h with
  | rejected e hnone =>
    have hnot : ¬ StoreCall.Completes py m (.add_key name port password method) x saved := by
      rintro ⟨p, hp, -⟩
      rw [htarget, hnone] at hp
      cases hp
    rw [or_iff_right hnot, and_iff_left (.inl hnone)]
    exact atomic_idle fun _ _ _ => .rfl
  | @refused p _ _ _ hp hnew hx hok =>
    cases hx
    rw [← htarget] at hp
    rw [or_iff_right (not_completes_of_refused hok)]
    by_cases hacted : x.acted = .done ∨ x.acted = .unstarted
    · refine iff_of_false (not_atomic_of_table hp ?_) fun h => not_idle hp hacted h.2
      rw [mem_table_add hacted]
      simp [hnew]
    · rw [and_iff_left (.inr hacted)]
      refine atomic_idle fun q hq hagree => mem_table_add_not_listed hacted fun hport => ?_
      obtain rfl : p = q := Option.some.inj ((port_of_target hp).symm.trans hq)
      exact hnew (hagree.table.2 hport)
  | @unsaved p _ _ _ _ hp hnew hx hok hwrite file =>
    cases hx
    cases hwrite
    rw [← htarget] at hp
    rw [or_iff_right not_completes_of_unsaved]
    refine iff_of_false (not_atomic_of_memory hp ?_) fun h => not_idle hp (acts_of_ok hok) h.2
    simp [hnew]
  | @added p _ _ _ _ key hp hnew _ _ hx hok hwrite hpayload =>
    cases hx
    refine iff_of_true ?_ (.inl ⟨p, hp, hok, hwrite.symm, trivial⟩)
    cases key_payload_port hpayload
    exact ⟨by simp, inFile_saved.2 (by simp), (mem_table_add (.inl hok.1)).2 (.inl rfl)⟩

theorem delete_atomic_iff {name : Value} {r : Except Exc KeyPayload}
    (h : DeleteOutcome (exchangeIs x) (· = saved) py name m w r m' w') :
    Atomic py m w (.delete_key name) r m' w' ↔
      StoreCall.Completes py m (.delete_key name) x saved ∨
        StoreCall.Agrees py m w (.delete_key name) ∧ StoreCall.Idle py m (.delete_key name) x := by
  have htarget : ∀ {text port entry}, asStr name = .ok text → find_by_name py m.ports text = some (port, entry) →
      (StoreCall.delete_key name).target py m = some port := by
    intro text port entry htext hfound
    simp only [StoreCall.target, htext, hfound]
    rfl
  cases h with
  | rejected e hnone =>
    have hnot : (StoreCall.delete_key name).target py m = none := by
      rw [StoreCall.target]
      split
      · rw [hnone _ ‹_›]
        rfl
      · rfl
    rw [or_iff_right (fun ⟨p, hp, _⟩ => by rw [hnot] at hp; cases hp), and_iff_left (.inl hnot)]
    exact atomic_idle fun _ _ _ => .rfl
  | @refused text p entry _ htext hfound hx hok =>
    cases hx
    have hmem : p ∈ m.ports.keys := Dict.mem_keys.2 ⟨_, find_by_name_mem hfound⟩
    have hp := htarget htext hfound
    rw [or_iff_right (not_completes_of_refused hok)]
    by_cases hacted : x.acted = .done
    · refine iff_of_false (not_atomic_of_table hp ?_) fun h => not_idle hp hacted h.2
      rw [hacted, mem_table_remove]
      simp [hmem]
    · rw [and_iff_left (.inr hacted), table_remove_not_done hacted]
      exact atomic_idle fun _ _ _ => .rfl
  | @unsaved text p entry _ htext hfound hx hok hwrite file =>
    cases hx
    cases hwrite
    have hmem : p ∈ m.ports.keys := Dict.mem_keys.2 ⟨_, find_by_name_mem hfound⟩
    have hp := htarget htext hfound
    rw [or_iff_right not_completes_of_unsaved]
    refine iff_of_false (not_atomic_of_memory hp ?_) fun h => not_idle hp (acts_of_ok hok) h.2
    simp [hmem]
  | @deleted text p entry _ htext hfound hx hok hwrite =>
    cases hx
    have hentry : m.ports.get? p = some entry := find_by_name_mem hfound
    have hp := htarget htext hfound
    cases hpayload : key_payload p entry with
    | ok key =>
      have hpw := key_payload_ok_iff.1 ⟨key, hpayload⟩
      refine iff_of_true ?_ (.inl ⟨p, hp, hok, hwrite.symm, entry, hentry, hpw⟩)
      cases key_payload_port hpayload
      refine ⟨by simp, fun hfile => by simpa using inFile_saved.1 hfile, ?_⟩
      rw [hok.1, mem_table_remove]
      exact fun h => h.2 rfl
    | error e =>
      refine iff_of_false (not_atomic_of_memory hp ?_) ?_
      · simp [Dict.mem_keys.2 ⟨_, hentry⟩]
      · rintro (⟨q, hq, -, -, entry', hentry', hpw⟩ | h)
        · cases hp.symm.trans hq
          cases hentry.symm.trans hentry'
          obtain ⟨key, hkey⟩ := key_payload_ok_iff.2 hpw
          rw [hpayload] at hkey
          cases hkey
        · exact not_idle hp (acts_of_ok hok) h.2

/-- For every state of the three copies and every outcome of the exchange and of saving. -/
theorem atomic_iff {r : Except Exc KeyPayload}
    (h : Runs (KeyStep (exchangeIs x) (· = saved)) (c.body py m) w (r, m') w') :
    Atomic py m w c r m' w' ↔ c.Completes py m x saved ∨ c.Agrees py m w ∧ c.Idle py m x := by
  cases c with
  | add_key name port password method => exact add_atomic_iff (runs_add_key h)
  | delete_key name => exact delete_atomic_iff (runs_delete_key h)

end

/-! ### A lost reply -/

def emptyStore : KeyManager := ⟨DEFAULT_PORT_START, DEFAULT_PORT_END, Dict.empty⟩

def emptyWorld : KeyWorld := ⟨none, []⟩

theorem agree_empty (port : Int) : Agree emptyStore emptyWorld port := by
  have hno : port ∉ emptyStore.ports.keys := List.not_mem_nil
  refine ⟨iff_of_false hno ?_, iff_of_false hno List.not_mem_nil⟩
  rintro ⟨ms, h, hport⟩
  cases h
  exact List.not_mem_nil hport

def addA : StoreCall := .add_key (.str "a".toList) none (.str "x".toList) DEFAULT_METHOD

/-- What comes of adding `a`. -/
def addedA (x : Exchange) (saved : Bool) : (Except Exc KeyPayload × KeyManager) × KeyWorld :=
  (addA.body asciiPython emptyStore).exec (answered x saved) emptyWorld

theorem runs_addedA (x : Exchange) (saved : Bool) : Runs (KeyStep (exchangeIs x) (· = saved))
    (addA.body asciiPython emptyStore) emptyWorld (addedA x saved).1 (addedA x saved).2 :=
  Runs.of_exec (keyStep_answered (exchangeIs x) (· = saved) (fun c => by cases c <;> trivial) rfl) _ _

theorem atomic_iff_added : Atomic asciiPython emptyStore emptyWorld addA (addedA ⟨.done, true⟩ true).1.1
    (addedA ⟨.done, true⟩ true).1.2 (addedA ⟨.done, true⟩ true).2 :=
  (atomic_iff (runs_addedA ⟨.done, true⟩ true)).2 (.inl ⟨444, by decide +kernel, ⟨rfl, rfl⟩, rfl, trivial⟩)

/-- The manager adds the port and its reply is lost: the call raises, the manager alone has the port. -/
theorem add_reply_lost : ∃ r m' w', (∀ port, Agree emptyStore emptyWorld port) ∧
    Runs (KeyStep (exchangeIs ⟨.done, false⟩) (· = true)) (addA.body asciiPython emptyStore) emptyWorld (r, m') w' ∧
    ¬ Atomic asciiPython emptyStore emptyWorld addA r m' w' := by
  refine ⟨.error .runtimeError, _, _, agree_empty, runs_addedA ⟨.done, false⟩ true, ?_⟩
  exact not_atomic_of_table (show addA.target asciiPython emptyStore = some 444 by decide +kernel) (by decide +kernel)

end OutlineServer
