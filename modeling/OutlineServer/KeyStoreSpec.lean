import OutlineServer.KeyStore

/-!
# What the methods of the key store do

The file is read back as the map that `save` wrote (`load_saved`). Every method either leaves the map and the
file as they are, or makes one edit of the map and saves it; the run lemmas say which commands the manager has
got by then.
-/

namespace OutlineServer
open Prog

/-! ### The file -/

theorem strInt_injective {m n : Int} (h : strInt m = strInt n) : m = n := Decimal.ofInt_injective h

theorem Value.ext {v v' : Value} (h : v.json = v'.json) : v = v' := by
  cases v
  cases v'
  cases h
  rfl

theorem Entry.toJson_injective {e e' : Entry} (h : e.toJson = e'.toJson) : e = e' := by
  refine Dict.ext (List.map_injective_iff.2 ?_ (Json.obj.inj h))
  rintro ⟨k, v⟩ ⟨k', v'⟩ hp
  obtain ⟨rfl, hv⟩ := Prod.mk.inj hp
  exact congrArg (k, ·) (Value.ext hv)

theorem Ports.toJson_injective {m m' : Ports} (h : m.toJson = m'.toJson) : m = m' := by
  refine Dict.ext (List.map_injective_iff.2 ?_ (Json.obj.inj h))
  rintro ⟨k, e⟩ ⟨k', e'⟩ hp
  obtain ⟨hk, he⟩ := Prod.mk.inj hp
  exact Prod.ext (strInt_injective hk) (Entry.toJson_injective he)

theorem wellFormedMembers {ms : List (Text × Json)} (h : ∀ m ∈ ms, m.2.WellFormed) : Json.WellFormedMembers ms := by
  induction ms with
  | nil => trivial
  | cons m ms ih => exact ⟨h m List.mem_cons_self, ih fun d hd => h d (List.mem_cons_of_mem _ hd)⟩

theorem Ports.wellFormed (ports : Ports) : ports.toJson.WellFormed := by
  refine wellFormedMembers fun m hm => ?_
  obtain ⟨p, -, rfl⟩ := List.mem_map.1 hm
  refine wellFormedMembers fun m hm => ?_
  obtain ⟨q, -, rfl⟩ := List.mem_map.1 hm
  exact q.2.wf

theorem read_text_utf8Encode (s : Text) : read_text s.utf8Encode = .ok s := by
  simp [read_text]

theorem parse_portsText (ports : Ports) : Json.parse (portsText ports) = some ports.toJson :=
  Json.parse_of_spells (Json.spells_dumps 0 _ ports.wellFormed) rfl (Json.stops_cons rfl _)

theorem load_saved (ports : Ports) : _load_ports (some (portsText ports).utf8Encode) = .ok ports.toJson := by
  simp only [_load_ports, read_text_utf8Encode, json_loads, parse_portsText]

/-! ### Runs -/

section
variable {exchange : Command → Exchange → Prop} {write : Bool → Prop} {m m' : KeyManager} {w w' : KeyWorld}

/-- The exchange of a command that is answered `ok`. -/
def Exchange.Ok (x : Exchange) : Prop := x.acted = .done ∧ x.replied = true

theorem Exchange.reply_eq_ok {x : Exchange} : x.reply = some "ok".toList ↔ x.Ok := by
  obtain ⟨acted, replied⟩ := x
  cases acted <;> cases replied <;> simp [reply, Ok]

theorem runs_command {c : Command} {r : Except Exc Text}
    (h : Runs (KeyStep exchange write) (_command c m) w (r, m') w') :
    m' = m ∧ ∃ x, exchange c x ∧ w' = { w with table := x.acted.table c w.table } ∧
      r = x.reply.elim (.error .runtimeError) .ok := by
  obtain ⟨a, w₁, hs, h⟩ := Method.runs_op_bind.1 h
  cases hs with
  | @send _ x _ hx =>
    cases hreply : x.reply with
    | none =>
      rw [hreply] at h
      obtain ⟨rfl, rfl, rfl⟩ := Method.runs_raise.1 h
      exact ⟨rfl, x, hx, rfl, by rw [hreply]; rfl⟩
    | some data =>
      rw [hreply] at h
      obtain ⟨rfl, rfl, rfl⟩ := Method.runs_pure.1 h
      exact ⟨rfl, x, hx, rfl, by rw [hreply]; rfl⟩

theorem runs_checked {c : Command} {r : Except Exc Unit}
    (h : Runs (KeyStep exchange write) (checked c m) w (r, m') w') :
    m' = m ∧ ∃ x, exchange c x ∧ w' = { w with table := x.acted.table c w.table } ∧
      (x.Ok ∧ r = .ok () ∨ ¬ x.Ok ∧ r = .error .runtimeError) := by
  rcases Method.runs_bind.1 h with ⟨resp, m₁, w₁, hc, h⟩ | ⟨e, rfl, hc⟩
  · obtain ⟨rfl, x, hx, rfl, hresp⟩ := runs_command hc
    have hreply : x.reply = some resp := by
      cases hreply : x.reply with
      | none =>
        rw [hreply] at hresp
        cases hresp
      | some data =>
        rw [hreply] at hresp
        cases hresp
        rfl
    unfold _check_response at h
    split at h
    · rename_i hok
      obtain ⟨rfl, rfl, rfl⟩ := Method.runs_pure.1 h
      exact ⟨rfl, x, hx, rfl, .inl ⟨Exchange.reply_eq_ok.1 (hok ▸ hreply), rfl⟩⟩
    · rename_i hok
      obtain ⟨rfl, rfl, rfl⟩ := Method.runs_raise.1 h
      refine ⟨rfl, x, hx, rfl, .inr ⟨fun hx => hok ?_, rfl⟩⟩
      exact Option.some.inj (hreply.symm.trans (Exchange.reply_eq_ok.2 hx))
  · obtain ⟨rfl, x, hx, rfl, he⟩ := runs_command hc
    refine ⟨rfl, x, hx, rfl, .inr ⟨fun hok => ?_, ?_⟩⟩
    · rw [Exchange.reply_eq_ok.2 hok] at he
      cases he
    · cases hreply : x.reply with
      | none =>
        rw [hreply] at he
        cases he
        rfl
      | some data =>
        rw [hreply] at he
        cases he

theorem runs_save {r : Except Exc Unit} (h : Runs (KeyStep exchange write) (save m) w (r, m') w') :
    m' = m ∧ w'.table = w.table ∧
      (write true ∧ r = .ok () ∧ w'.file = some (portsText m.ports).utf8Encode ∨
        write false ∧ r = .error .osError) := by
  obtain ⟨b, w₁, hs, h⟩ := Method.runs_op_bind.1 (Method.runs_get_bind.1 h)
  cases hs with
  | written _ _ hwrite =>
    obtain ⟨rfl, rfl, rfl⟩ := Method.runs_pure.1 h
    exact ⟨rfl, rfl, .inl ⟨hwrite, rfl, rfl⟩⟩
  | failed _ _ _ hwrite =>
    obtain ⟨rfl, rfl, rfl⟩ := Method.runs_raise.1 h
    exact ⟨rfl, rfl, .inr ⟨hwrite, rfl⟩⟩

theorem runs_setPorts_bind {ports : Ports} {β : Type} {f : Unit → KeyMethod β} {r : Except Exc β} :
    Runs (KeyStep exchange write) ((setPorts ports >>= f) m) w (r, m') w' ↔
      Runs (KeyStep exchange write) (f () { m with ports }) w (r, m') w' := by
  constructor
  · intro h
    rcases Method.runs_bind.1 h with ⟨a, m₁, w₁, hs, h⟩ | ⟨e, -, hs⟩
    · obtain ⟨-, rfl, rfl⟩ := Method.runs_set.1 (Method.runs_get_bind.1 hs)
      exact h
    · cases (Method.runs_set.1 (Method.runs_get_bind.1 hs)).1
  · exact fun h => Method.runs_bind.2 (.inl ⟨(), _, w, .ret _ _, h⟩)

/-- What follows a `save`: it has written the file, or it has raised. -/
theorem runs_save_bind {β : Type} {f : Unit → KeyMethod β} {r : Except Exc β}
    (h : Runs (KeyStep exchange write) ((save >>= f) m) w (r, m') w') :
    (write true ∧
      Runs (KeyStep exchange write) (f () m) { w with file := some (portsText m.ports).utf8Encode } (r, m') w') ∨
      write false ∧ r = .error .osError ∧ m' = m ∧ w'.table = w.table := by
  rcases Method.runs_bind.1 h with ⟨a, m₁, w₁, hs, h⟩ | ⟨e, rfl, hs⟩
  · obtain ⟨rfl, htable, ⟨hwrite, -, hfile⟩ | ⟨-, he⟩⟩ := runs_save hs
    · obtain ⟨file, table⟩ := w₁
      cases htable
      cases hfile
      exact .inl ⟨hwrite, h⟩
    · cases he
  · obtain ⟨rfl, htable, ⟨-, he, -⟩ | ⟨hwrite, he⟩⟩ := runs_save hs
    · cases he
    · cases he
      exact .inr ⟨hwrite, rfl, rfl, htable⟩

end

/-! ### Adding a key -/

/-- The port that `add_key` asks the manager for, if it gets that far. -/
def addTarget (py : Python) (m : KeyManager) (name : Value) (port : Option Int) : Option Int :=
  match asStr name with
  | .ok text =>
    if strip text = [] ∨ (find_by_name py m.ports (strip text)).isSome then none
    else (m.allocate_port port).toOption
  | .error _ => none

/-- How `add_key` can end. -/
inductive AddOutcome (exchange : Command → Exchange → Prop) (write : Bool → Prop) (py : Python) (target : Option Int)
    (m : KeyManager) (w : KeyWorld) : Except Exc KeyPayload → KeyManager → KeyWorld → Prop
  /-- before anything is sent -/
  | rejected (e : Exc) (htarget : target = none) : AddOutcome exchange write py target m w (.error e) m w
  | refused {port : Int} {password method : Value} {x : Exchange} (htarget : target = some port)
      (hport : port ∉ m.ports.keys) (hx : exchange (.add port password method) x) (hok : ¬ x.Ok) :
      AddOutcome exchange write py target m w (.error .runtimeError) m
        { w with table := x.acted.table (.add port password method) w.table }
  | unsaved {port : Int} {password method : Value} {name : Text} {x : Exchange} (htarget : target = some port)
      (hport : port ∉ m.ports.keys) (hx : exchange (.add port password method) x) (hok : x.Ok) (hwrite : write false)
      (file : Option ByteArray) :
      AddOutcome exchange write py target m w (.error .osError)
        { m with ports := m.ports.set port (newEntry password method name) }
        ⟨file, x.acted.table (.add port password method) w.table⟩
  | added {port : Int} {password method : Value} {name : Text} {x : Exchange} {payload : KeyPayload}
      (htarget : target = some port) (hport : port ∉ m.ports.keys) (hname : name ≠ [])
      (hnew : find_by_name py m.ports name = none) (hx : exchange (.add port password method) x) (hok : x.Ok)
      (hwrite : write true)
      (hpayload : key_payload port (newEntry password method name) = .ok payload) :
      AddOutcome exchange write py target m w (.ok payload)
        { m with ports := m.ports.set port (newEntry password method name) }
        ⟨some (portsText (m.ports.set port (newEntry password method name))).utf8Encode,
          x.acted.table (.add port password method) w.table⟩

theorem firstFree_notMem {used : List Int} {n : Nat} {port p : Int} (h : firstFree used n port = some p) :
    p ∉ used := by
  induction n generalizing port with
  | zero => cases h
  | succ n ih =>
    rw [firstFree] at h
    split at h
    · exact ih h
    · cases h
      assumption

/-- No port that the map has is chosen. -/
theorem allocate_port_notMem {m : KeyManager} {preferred : Option Int} {p : Int}
    (h : m.allocate_port preferred = .ok p) : p ∉ m.ports.keys := by
  simp only [KeyManager.allocate_port] at h
  split at h
  · split at h
    · cases h
    · split at h
      · cases h
        assumption
      · cases h
  · split at h
    · cases h
      exact firstFree_notMem ‹_›
    · cases h

/-- A new entry has a password. -/
theorem key_payload_newEntry (port : Int) (password method : Value) (name : Text) :
    ∃ payload, key_payload port (newEntry password method name) = .ok payload := by
  have hpw : (newEntry password method name).get? "password".toList = some password := by
    unfold newEntry
    rw [Dict.get?_set, if_neg (by decide), Dict.get?_set, if_neg (by decide), Dict.get?_set, if_neg (by decide),
      Dict.get?_set_self]
  unfold key_payload
  rw [hpw]
  exact ⟨_, rfl⟩

section
variable {exchange : Command → Exchange → Prop} {write : Bool → Prop} {m m' : KeyManager} {w w' : KeyWorld}
  {py : Python}

theorem runs_choosePassword_bind {password : Value} {β : Type} {f : Value → KeyMethod β} {r : Except Exc β}
    (h : Runs (KeyStep exchange write) ((choosePassword password >>= f) m) w (r, m') w') :
    ∃ p, Runs (KeyStep exchange write) (f p m) w (r, m') w' := by
  rw [Method.runs_bind] at h
  unfold choosePassword at h
  split at h
  · rcases h with ⟨a, m₁, w₁, hp, h⟩ | ⟨e, -, hp⟩
    · obtain ⟨-, rfl, rfl⟩ := Method.runs_pure.1 hp
      exact ⟨a, h⟩
    · cases (Method.runs_pure.1 hp).1
  · rcases h with ⟨a, m₁, w₁, hp, h⟩ | ⟨e, -, hp⟩
    · obtain ⟨s, w₂, hs, hp⟩ := Method.runs_op_bind.1 hp
      cases hs
      obtain ⟨-, rfl, rfl⟩ := Method.runs_pure.1 hp
      exact ⟨a, h⟩
    · obtain ⟨s, w₂, -, hp⟩ := Method.runs_op_bind.1 hp
      cases (Method.runs_pure.1 hp).1

theorem runs_add_key {name password method : Value} {port : Option Int} {r : Except Exc KeyPayload}
    (h : Runs (KeyStep exchange write) (add_key py name port password method m) w (r, m') w') :
    AddOutcome exchange write py (addTarget py m name port) m w r m' w' := by
  unfold add_key at h
  rcases Method.runs_ofExcept_bind.1 h with ⟨text, htext, h⟩ | ⟨e, he, rfl, rfl, rfl⟩
  swap
  · exact .rejected e (by simp only [addTarget, he])
  replace h := Method.runs_get_bind.1 h
  split at h
  · rename_i hname
    obtain ⟨rfl, rfl, rfl⟩ := Method.runs_raise.1 h
    exact .rejected _ (by simp only [addTarget, htext, if_pos hname])
  rename_i hname
  obtain ⟨hne, hnew⟩ := not_or.1 hname
  have htarget : addTarget py m name port = (m.allocate_port port).toOption := by
    simp only [addTarget, htext, if_neg hname]
  rw [htarget]
  rcases Method.runs_ofExcept_bind.1 h with ⟨p, hp, h⟩ | ⟨e, he, rfl, rfl, rfl⟩
  swap
  · exact .rejected e (by rw [he]; rfl)
  have hport := allocate_port_notMem hp
  rw [hp]
  obtain ⟨password, h⟩ := runs_choosePassword_bind h
  rcases Method.runs_bind.1 h with ⟨a, m₁, w₁, hc, h⟩ | ⟨e, rfl, hc⟩
  · obtain ⟨rfl, x, hx, rfl, ⟨hok, -⟩ | ⟨-, he⟩⟩ := runs_checked hc
    · rcases runs_save_bind (runs_setPorts_bind.1 h) with ⟨hwrite, h⟩ | ⟨hwrite, rfl, rfl, htable⟩
      · obtain ⟨hr, rfl, rfl⟩ := Method.runs_ofExcept.1 h
        obtain ⟨payload, hpayload⟩ := key_payload_newEntry p password method (strip text)
        rw [hr, hpayload]
        exact .added rfl hport hne (by simpa using hnew) hx hok hwrite hpayload
      · obtain ⟨file, table⟩ := w'
        cases htable
        exact .unsaved rfl hport hx hok hwrite file
    · cases he
  · obtain ⟨rfl, x, hx, rfl, ⟨-, he⟩ | ⟨hok, he⟩⟩ := runs_checked hc
    · cases he
    · cases he
      exact .refused rfl hport hx hok

/-! ### Deleting a key -/

/-- How `delete_key` can end; `clear_ip` changes nothing that counts here. -/
inductive DeleteOutcome (exchange : Command → Exchange → Prop) (write : Bool → Prop) (py : Python)
    (name : Value) (m : KeyManager) (w : KeyWorld) : Except Exc KeyPayload → KeyManager → KeyWorld → Prop
  /-- before anything is sent -/
  | rejected (e : Exc) (h : ∀ text, asStr name = .ok text → find_by_name py m.ports text = none) :
      DeleteOutcome exchange write py name m w (.error e) m w
  | refused {text : Text} {port : Int} {entry : Entry} {x : Exchange} (hname : asStr name = .ok text)
      (hfound : find_by_name py m.ports text = some (port, entry)) (hx : exchange (.remove port) x) (hok : ¬ x.Ok) :
      DeleteOutcome exchange write py name m w (.error .runtimeError) m
        { w with table := x.acted.table (.remove port) w.table }
  | unsaved {text : Text} {port : Int} {entry : Entry} {x : Exchange} (hname : asStr name = .ok text)
      (hfound : find_by_name py m.ports text = some (port, entry)) (hx : exchange (.remove port) x) (hok : x.Ok)
      (hwrite : write false) (file : Option ByteArray) :
      DeleteOutcome exchange write py name m w (.error .osError) { m with ports := m.ports.erase port }
        ⟨file, x.acted.table (.remove port) w.table⟩
  | deleted {text : Text} {port : Int} {entry : Entry} {x : Exchange} (hname : asStr name = .ok text)
      (hfound : find_by_name py m.ports text = some (port, entry)) (hx : exchange (.remove port) x) (hok : x.Ok)
      (hwrite : write true) :
      DeleteOutcome exchange write py name m w (key_payload port entry) { m with ports := m.ports.erase port }
        ⟨some (portsText (m.ports.erase port)).utf8Encode, x.acted.table (.remove port) w.table⟩

theorem runs_requireName_bind {name : Value} {β : Type} {f : Int × Entry → KeyMethod β} {r : Except Exc β}
    (h : Runs (KeyStep exchange write) ((requireName py name >>= f) m) w (r, m') w') :
    (∃ text found, asStr name = .ok text ∧ find_by_name py m.ports text = some found ∧
        Runs (KeyStep exchange write) (f found m) w (r, m') w') ∨
      (∀ text, asStr name = .ok text → find_by_name py m.ports text = none) ∧ (∃ e, r = .error e) ∧ m' = m ∧
        w' = w := by
  have hreq : ∀ {r' : Except Exc (Int × Entry)} {m₁ w₁},
      Runs (KeyStep exchange write) (requireName py name m) w (r', m₁) w₁ → m₁ = m ∧ w₁ = w ∧
        ((∃ text found, asStr name = .ok text ∧ find_by_name py m.ports text = some found ∧ r' = .ok found) ∨
          (∀ text, asStr name = .ok text → find_by_name py m.ports text = none) ∧ ∃ e, r' = .error e) := by
    intro r' m₁ w₁ h
    rcases Method.runs_ofExcept_bind.1 h with ⟨text, htext, h⟩ | ⟨e, he, rfl, rfl, rfl⟩
    · replace h := Method.runs_get_bind.1 h
      cases hfind : find_by_name py m.ports text with
      | none =>
        rw [hfind] at h
        obtain ⟨rfl, rfl, rfl⟩ := Method.runs_raise.1 h
        refine ⟨rfl, rfl, .inr ⟨fun t ht => ?_, _, rfl⟩⟩
        rw [htext] at ht
        cases ht
        exact hfind
      | some found =>
        rw [hfind] at h
        obtain ⟨rfl, rfl, rfl⟩ := Method.runs_pure.1 h
        exact ⟨rfl, rfl, .inl ⟨text, found, htext, hfind, rfl⟩⟩
    · refine ⟨rfl, rfl, .inr ⟨fun t ht => ?_, e, rfl⟩⟩
      rw [he] at ht
      cases ht
  rcases Method.runs_bind.1 h with ⟨found, m₁, w₁, hr, hf⟩ | ⟨e, rfl, hr⟩
  · obtain ⟨rfl, rfl, ⟨text, found', htext, hfound, hok⟩ | ⟨-, e, he⟩⟩ := hreq hr
    · cases hok
      exact .inl ⟨text, found, htext, hfound, hf⟩
    · cases he
  · obtain ⟨rfl, rfl, ⟨_, _, _, _, hok⟩ | ⟨hnone, -⟩⟩ := hreq hr
    · cases hok
    · exact .inr ⟨hnone, ⟨e, rfl⟩, rfl, rfl⟩

/-- `try: clear_ip except Exception: pass` -/
theorem runs_clear_ip_pass_bind {port : Int} {β : Type} {f : Unit → KeyMethod β} {r : Except Exc β}
    (h : Runs (KeyStep exchange write)
      ((Method.except (client_clear_ip port) (fun _ => pure ()) >>= f) m) w (r, m') w') :
    Runs (KeyStep exchange write) (f () m) w (r, m') w' := by
  have hclear : ∀ {r' : Except Exc Unit} {m₁ w₁},
      Runs (KeyStep exchange write) (client_clear_ip port m) w (r', m₁) w₁ → m₁ = m ∧ w₁ = w := by
    intro r' m₁ w₁ h
    obtain ⟨rfl, x, -, rfl, -⟩ := runs_checked h
    refine ⟨rfl, ?_⟩
    cases x.acted <;> rfl
  rcases Method.runs_bind.1 h with ⟨a, m₁, w₁, hp, hf⟩ | ⟨e, rfl, hp⟩
  · rcases Method.runs_except.1 hp with ⟨_, -, hc⟩ | ⟨_, _, _, hc, hh⟩
    · obtain ⟨rfl, rfl⟩ := hclear hc
      exact hf
    · obtain ⟨rfl, rfl⟩ := hclear hc
      obtain ⟨-, rfl, rfl⟩ := Method.runs_pure.1 hh
      exact hf
  · rcases Method.runs_except.1 hp with ⟨_, he, -⟩ | ⟨_, _, _, -, hh⟩
    · cases he
    · cases (Method.runs_pure.1 hh).1

theorem runs_delete_key {name : Value} {r : Except Exc KeyPayload}
    (h : Runs (KeyStep exchange write) (delete_key py name m) w (r, m') w') :
    DeleteOutcome exchange write py name m w r m' w' := by
  rcases runs_requireName_bind h with ⟨text, ⟨port, entry⟩, htext, hfound, h⟩ | ⟨hnone, ⟨e, rfl⟩, rfl, rfl⟩
  swap
  · exact .rejected e hnone
  replace h := runs_clear_ip_pass_bind h
  rcases Method.runs_bind.1 h with ⟨a, m₁, w₁, hc, h⟩ | ⟨e, rfl, hc⟩
  · obtain ⟨rfl, x, hx, rfl, ⟨hok, -⟩ | ⟨-, he⟩⟩ := runs_checked hc
    · rcases runs_save_bind (runs_setPorts_bind.1 (Method.runs_get_bind.1 h)) with
        ⟨hwrite, h⟩ | ⟨hwrite, rfl, rfl, htable⟩
      · obtain ⟨rfl, rfl, rfl⟩ := Method.runs_ofExcept.1 h
        exact .deleted htext hfound hx hok hwrite
      · obtain ⟨file, table⟩ := w'
        cases htable
        exact .unsaved htext hfound hx hok hwrite file
    · cases he
  · obtain ⟨rfl, x, hx, rfl, ⟨-, he⟩ | ⟨hok, he⟩⟩ := runs_checked hc
    · cases he
    · cases he
      exact .refused htext hfound hx hok

end

theorem find_by_name_mem {py : Python} {ports : Ports} {name : Text} {found : Int × Entry}
    (h : find_by_name py ports name = some found) : ports.get? found.1 = some found.2 :=
  Dict.get?_eq_some.2 (List.mem_of_find?_eq_some h)

/-! ### Changing a field -/

/-- How a method ends that gives a field of an entry a value; `U` says which. -/
inductive UpdateOutcome (write : Bool → Prop) (m : KeyManager) (w : KeyWorld)
    (U : Int → Entry → Text → Value → Prop) : Except Exc Unit → KeyManager → KeyWorld → Prop
  /-- before the entry is changed -/
  | raised (e : Exc) : UpdateOutcome write m w U (.error e) m w
  | unsaved {port : Int} {entry : Entry} {field : Text} {value : Value} (hU : U port entry field value)
      (hentry : m.ports.get? port = some entry) (hwrite : write false) (file : Option ByteArray) :
      UpdateOutcome write m w U (.error .osError) { m with ports := m.ports.set port (entry.set field value) }
        ⟨file, w.table⟩
  | updated {port : Int} {entry : Entry} {field : Text} {value : Value} (hU : U port entry field value)
      (hentry : m.ports.get? port = some entry) (hwrite : write true) :
      UpdateOutcome write m w U (.ok ()) { m with ports := m.ports.set port (entry.set field value) }
        ⟨some (portsText (m.ports.set port (entry.set field value))).utf8Encode, w.table⟩

section
variable {exchange : Command → Exchange → Prop} {write : Bool → Prop} {m m' : KeyManager} {w w' : KeyWorld}
  {py : Python} {r : Except Exc Unit} {U : Int → Entry → Text → Value → Prop}

theorem runs_updateEntry {port : Int} {entry : Entry} {field : Text} {value : Value}
    (hentry : m.ports.get? port = some entry) (hU : U port entry field value)
    (h : Runs (KeyStep exchange write) (updateEntry port entry field value m) w (r, m') w') :
    UpdateOutcome write m w U r m' w' := by
  replace h := runs_setPorts_bind.1 (Method.runs_get_bind.1 h)
  obtain ⟨rfl, htable, ⟨hwrite, rfl, hfile⟩ | ⟨hwrite, rfl⟩⟩ := runs_save h
  · obtain ⟨file, table⟩ := w'
    cases htable
    cases hfile
    exact .updated hU hentry hwrite
  · obtain ⟨file, table⟩ := w'
    cases htable
    exact .unsaved hU hentry hwrite file

/-- A command that leaves the ports of the table as they are. -/
def Command.Quiet (c : Command) : Prop := ∀ (acted : Acted) (table : List Int), acted.table c table = table

theorem quiet_set_ip (port : Int) (ip : Value) : (Command.set_ip port ip).Quiet := by
  intro acted table
  cases acted <;> rfl

theorem quiet_clear_ip (port : Int) : (Command.clear_ip port).Quiet := by
  intro acted table
  cases acted <;> rfl

/-- A command to the manager, then the change. -/
theorem runs_checked_updateEntry {c : Command} (hc : c.Quiet) {port : Int} {entry : Entry} {field : Text}
    {value : Value} (hentry : m.ports.get? port = some entry) (hU : U port entry field value)
    (h : Runs (KeyStep exchange write) ((checked c >>= fun _ => updateEntry port entry field value) m) w (r, m') w') :
    UpdateOutcome write m w U r m' w' := by
  rcases Method.runs_bind.1 h with ⟨a, m₁, w₁, hcheck, hf⟩ | ⟨e, rfl, hcheck⟩
  · obtain ⟨rfl, x, -, rfl, -⟩ := runs_checked hcheck
    rw [hc] at hf
    exact runs_updateEntry hentry hU hf
  · obtain ⟨rfl, x, -, rfl, -⟩ := runs_checked hcheck
    rw [hc]
    exact .raised e

theorem runs_set_lock_ip {name ip : Value}
    (h : Runs (KeyStep exchange write) (set_lock_ip py name ip m) w (r, m') w') :
    UpdateOutcome write m w (fun port entry field value => ∃ text, asStr name = .ok text ∧
      find_by_name py m.ports text = some (port, entry) ∧ field = "locked_ip".toList ∧ value = ip) r m' w' := by
  rcases runs_requireName_bind h with ⟨text, found, htext, hfound, h⟩ | ⟨-, ⟨e, rfl⟩, rfl, rfl⟩
  · exact runs_checked_updateEntry (quiet_set_ip _ _) (find_by_name_mem hfound) ⟨text, htext, hfound, rfl, rfl⟩ h
  · exact .raised e

theorem runs_clear_lock_ip {name : Value}
    (h : Runs (KeyStep exchange write) (clear_lock_ip py name m) w (r, m') w') :
    UpdateOutcome write m w (fun port entry field value => ∃ text, asStr name = .ok text ∧
      find_by_name py m.ports text = some (port, entry) ∧ field = "locked_ip".toList ∧ value = .null) r m' w' := by
  rcases runs_requireName_bind h with ⟨text, found, htext, hfound, h⟩ | ⟨-, ⟨e, rfl⟩, rfl, rfl⟩
  · exact runs_checked_updateEntry (quiet_clear_ip _) (find_by_name_mem hfound) ⟨text, htext, hfound, rfl, rfl⟩ h
  · exact .raised e

/-! ### Requests -/

theorem runs_requirePort_bind {port : Int} {β : Type} {f : Entry → KeyMethod β} {r : Except Exc β}
    (h : Runs (KeyStep exchange write) ((requirePort port >>= f) m) w (r, m') w') :
    (∃ entry, m.ports.get? port = some entry ∧ Runs (KeyStep exchange write) (f entry m) w (r, m') w') ∨
      m.ports.get? port = none ∧ r = .error .httpNotFound ∧ m' = m ∧ w' = w := by
  rw [Method.runs_bind] at h
  unfold requirePort at h
  rcases h with ⟨entry, m₁, w₁, hr, hf⟩ | ⟨e, rfl, hr⟩
  · replace hr := Method.runs_get_bind.1 hr
    cases hget : m.ports.get? port with
    | none =>
      rw [hget] at hr
      cases (Method.runs_raise.1 hr).1
    | some entry' =>
      rw [hget] at hr
      obtain ⟨he, rfl, rfl⟩ := Method.runs_pure.1 hr
      cases he
      exact .inl ⟨entry, rfl, hf⟩
  · replace hr := Method.runs_get_bind.1 hr
    cases hget : m.ports.get? port with
    | none =>
      rw [hget] at hr
      obtain ⟨he, rfl, rfl⟩ := Method.runs_raise.1 hr
      cases he
      exact .inr ⟨rfl, rfl, rfl, rfl⟩
    | some entry' =>
      rw [hget] at hr
      cases (Method.runs_pure.1 hr).1

theorem runs_handle_put_name {port : Int} {name : Option Value}
    (h : Runs (KeyStep exchange write) (handle_put_name port name m) w (r, m') w') :
    UpdateOutcome write m w (fun p entry field value => p = port ∧ field = "name".toList ∧
      value = name.getD (entry.getD "name".toList .null)) r m' w' := by
  rcases runs_requirePort_bind h with ⟨entry, hentry, h⟩ | ⟨-, rfl, rfl, rfl⟩
  · exact runs_updateEntry hentry ⟨rfl, rfl, rfl⟩ h
  · exact .raised _

theorem runs_handle_lock_ip {port : Int} {ip : Value}
    (h : Runs (KeyStep exchange write) (handle_lock_ip port ip m) w (r, m') w') :
    UpdateOutcome write m w (fun p _ field value => p = port ∧ field = "locked_ip".toList ∧ value = ip) r m' w' := by
  rcases runs_requirePort_bind h with ⟨entry, hentry, h⟩ | ⟨-, rfl, rfl, rfl⟩
  · split at h
    · exact runs_checked_updateEntry (quiet_set_ip _ _) hentry ⟨rfl, rfl, rfl⟩ h
    · obtain ⟨rfl, rfl, rfl⟩ := Method.runs_raise.1 h
      exact .raised _
  · exact .raised _

theorem runs_handle_clear_lock_ip {port : Int}
    (h : Runs (KeyStep exchange write) (handle_clear_lock_ip port m) w (r, m') w') :
    UpdateOutcome write m w (fun p _ field value => p = port ∧ field = "locked_ip".toList ∧ value = .null) r m' w' := by
  rcases runs_requirePort_bind h with ⟨entry, hentry, h⟩ | ⟨-, rfl, rfl, rfl⟩
  · exact runs_checked_updateEntry (quiet_clear_ip _) hentry ⟨rfl, rfl, rfl⟩ h
  · exact .raised _

theorem runs_handle_create_key {port name password method : Value} {r : Except Exc KeyPayload}
    (h : Runs (KeyStep exchange write) (handle_create_key py port name password method m) w (r, m') w') :
    ∃ target r₀, AddOutcome exchange write py target m w r₀ m' w' ∧
      (r = r₀ ∨ (∃ e, r = .error e) ∧ ∃ e, r₀ = .error e) := by
  have hadd : ∀ {r : Except Exc KeyPayload} {m₁ w₁}, Runs (KeyStep exchange write)
      ((do
        let port' ← Method.ofExcept (requestedPort py port)
        add_key py (if name.truthy then name else .str (defaultName py port)) port' password method :
          KeyMethod KeyPayload) m)
      w (r, m₁) w₁ → ∃ target, AddOutcome exchange write py target m w r m₁ w₁ := by
    intro r m₁ w₁ h
    rcases Method.runs_ofExcept_bind.1 h with ⟨port, -, h⟩ | ⟨e, -, rfl, rfl, rfl⟩
    · exact ⟨_, runs_add_key h⟩
    · exact ⟨none, .rejected e rfl⟩
  rcases Method.runs_except.1 h with ⟨payload, rfl, hb⟩ | ⟨e, m₁, w₁, hb, hh⟩
  · obtain ⟨target, ho⟩ := hadd hb
    exact ⟨target, _, ho, .inl rfl⟩
  · obtain ⟨rfl, rfl, rfl⟩ := Method.runs_raise.1 hh
    obtain ⟨target, ho⟩ := hadd hb
    exact ⟨target, _, ho, .inr ⟨⟨_, rfl⟩, e, rfl⟩⟩

theorem runs_handle_delete_key {port : Int}
    (h : Runs (KeyStep exchange write) (handle_delete_key py port m) w (r, m') w') :
    (m.ports.get? port = none ∧ r = .error .httpNotFound ∧ m' = m ∧ w' = w) ∨
      ∃ entry r₀, m.ports.get? port = some entry ∧
        DeleteOutcome exchange write py (entry.getD "name".toList (.str (strInt port))) m w r₀ m' w' ∧
        ((r = .ok () ∧ ∃ payload, r₀ = .ok payload) ∨ (∃ e, r = .error e) ∧ ∃ e, r₀ = .error e) := by
  rcases runs_requirePort_bind h with ⟨entry, hentry, h⟩ | ⟨hnone, rfl, rfl, rfl⟩
  · refine .inr ?_
    rcases Method.runs_except.1 h with ⟨_, rfl, hb⟩ | ⟨e, m₁, w₁, hb, hh⟩
    · rcases Method.runs_bind.1 hb with ⟨payload, m₁, w₁, hd, hp⟩ | ⟨e, he, -⟩
      · obtain ⟨-, rfl, rfl⟩ := Method.runs_pure.1 hp
        exact ⟨entry, _, hentry, runs_delete_key hd, .inl ⟨rfl, payload, rfl⟩⟩
      · cases he
    · obtain ⟨rfl, rfl, rfl⟩ := Method.runs_raise.1 hh
      rcases Method.runs_bind.1 hb with ⟨payload, m₂, w₂, hd, hp⟩ | ⟨e', he, hd⟩
      · cases (Method.runs_pure.1 hp).1
      · cases he
        exact ⟨entry, _, hentry, runs_delete_key hd, .inr ⟨⟨_, rfl⟩, e, rfl⟩⟩
  · exact .inl ⟨hnone, rfl, rfl, rfl⟩

end

/-! ### Answers -/

/-- Every exchange is `x`, a `write_text` succeeds if `saved` and else leaves the file. -/
def answered (x : Exchange) (saved : Bool) : (o : KeyOp) → KeyWorld → o.Res × KeyWorld
  | .send c, w => (x.reply, { w with table := x.acted.table c w.table })
  | .write_text s, w => (saved, if saved then { w with file := some (String.ofList s).toUTF8 } else w)
  | .generate_password, w => ("secret".toList, w)

theorem keyStep_answered (exchange : Command → Exchange → Prop) (write : Bool → Prop) {x : Exchange} {saved : Bool}
    (hx : ∀ c, exchange c x) (hwrite : write saved) (o : KeyOp) (w : KeyWorld) :
    KeyStep exchange write w o (answered x saved o w).1 (answered x saved o w).2 := by
  cases o with
  | send c => exact .send w (hx c)
  | write_text s =>
    cases saved with
    | true => exact .written w s hwrite
    | false => exact .failed w s w.file hwrite
  | generate_password => exact .generate_password w _

/-- What Python does with ASCII text and decoded values other than arrays and objects. -/
def asciiPython : Python where
  lower s := s.map Char.toLower
  repr v :=
    match v.json with
    | .null => "None".toList
    | .bool b => (if b then "True" else "False").toList
    | .num lexeme => lexeme
    | _ => []
  int v :=
    match v.json with
    | .bool b => some b.toNat
    | .num lexeme | .str lexeme => (String.ofList lexeme).toInt?
    | _ => none

end OutlineServer
