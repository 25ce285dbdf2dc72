import OutlineServer.KeySync

/-!
# Syncing does not disturb running ports

A run of `sync_to_manager` takes the manager's ports from the first datagram of the reply to `list` and nothing
else (`runs_managerPorts`). What one stored key does to the table and to the log of `add`s is `ItemOutcome`; a
whole run that adds what the reply does not list leaves the running ports alone exactly if the reply lists the
stored ports that run and no others (`sync_safe_iff`).
-/

namespace OutlineServer
open Prog Servers

/-- The key of the table that the manager makes of a port number is in the table. -/
def Registered (table : List Server) (port : Int) : Prop := snprintfPort port ∈ table.map Server.port

/-- The stored keys in the order of the loop up to the first that cannot be read, and what that raises. -/
def readItems (ports : Dict Text Value) : List (Int × Text) → List SyncItem × Option Exc
  | [] => ([], none)
  | key :: keys =>
    match syncItem ports key with
    | .error e => ([], some e)
    | .ok item => let r := readItems ports keys; (item :: r.1, r.2)

def stored (py : Python) (ports : Value) : List SyncItem × Option Exc :=
  match ports.asDict with
  | .error e => ([], some e)
  | .ok ports =>
    match sortedKeys py ports with
    | .error e => ([], some e)
    | .ok keys => readItems ports keys

/-- An `add` is only sent for a port that does not run, and when all replies have been `ok` every stored port is in
the table. -/
structure SyncSafe (py : Python) (ports : Value) (r : Except Exc SyncReport) (w' : SyncWorld) : Prop where
  adds : ∀ add ∈ w'.adds, ¬ Registered add.2 add.1
  table : ∀ report, r = .ok report → report.errors = [] → ∀ item ∈ (stored py ports).1, Registered w'.table item.port

/-- The reply is a JSON array with an item for the port, and the items before that can be read. -/
def Listed (py : Python) (reply : Option Text) (port : Int) : Prop :=
  ∃ text v pre item post, reply = some text ∧ loads text = .ok v ∧ v.elements = pre ++ item :: post ∧
    (∀ i ∈ pre, ∃ p, itemPort py i = .ok p) ∧ itemPort py item = .ok (some port)

/-- The manager takes the key's record. -/
def SyncItem.Valid (item : SyncItem) : Prop := (addRecord item.port item.password item.method).isSome

/-- What the reply says about the stored keys is so. -/
structure ListAgrees (py : Python) (items : List SyncItem) (complete : Prop) (table : List Server)
    (reply : Option Text) : Prop where
  running : ∀ item ∈ items, Registered table item.port → Listed py reply item.port
  once : items.Pairwise fun a b => ¬ Listed py reply a.port → a.Valid → ¬ Listed py reply b.port →
    snprintfPort a.port ≠ snprintfPort b.port
  listed : complete → (∀ item ∈ items, ¬ Listed py reply item.port → item.Valid) →
    ∀ item ∈ items, Listed py reply item.port → Registered table item.port ∨
      ∃ other ∈ items, ¬ Listed py reply other.port ∧ snprintfPort other.port = snprintfPort item.port

/-! ### The ports of the reply -/

def listedPorts (py : Python) (reply : Option Text) : List Int :=
  match reply with
  | none => []
  | some text =>
    match loads text with
    | .ok v => collectPorts py v.elements
    | .error _ => []

theorem mem_collectPorts {py : Python} {items : List Value} {port : Int} : port ∈ collectPorts py items ↔
    ∃ pre item post, items = pre ++ item :: post ∧ (∀ i ∈ pre, ∃ p, itemPort py i = .ok p) ∧
      itemPort py item = .ok (some port) := by
  induction items with
  | nil => simp [collectPorts]
  | cons item items ih =>
    have hcons : (∃ pre item' post, item :: items = pre ++ item' :: post ∧ (∀ i ∈ pre, ∃ p, itemPort py i = .ok p) ∧
        itemPort py item' = .ok (some port)) ↔ itemPort py item = .ok (some port) ∨
        (∃ p, itemPort py item = .ok p) ∧ port ∈ collectPorts py items := by
      constructor
      · rintro ⟨_ | ⟨i, pre⟩, item', post, heq, hpre, hitem⟩
        · cases heq
          exact .inl hitem
        · obtain ⟨rfl, rfl⟩ := List.cons.inj heq
          exact .inr ⟨hpre _ List.mem_cons_self,
            ih.2 ⟨pre, item', post, rfl, fun i hi => hpre i (List.mem_cons_of_mem _ hi), hitem⟩⟩
      · rintro (hitem | ⟨hread, hmem⟩)
        · exact ⟨[], item, items, rfl, by simp, hitem⟩
        · obtain ⟨pre, item', post, rfl, hpre, hitem⟩ := ih.1 hmem
          exact ⟨item :: pre, item', post, rfl, List.forall_mem_cons.2 ⟨hread, hpre⟩, hitem⟩
    rw [hcons, collectPorts]
    cases hitem : itemPort py item with
    | error e => simp
    | ok p => cases p <;> simp [eq_comm]

theorem mem_listedPorts {py : Python} {reply : Option Text} {port : Int} :
    port ∈ listedPorts py reply ↔ Listed py reply port := by
  unfold Listed
  cases reply with
  | none => simp [listedPorts]
  | some text =>
    simp only [listedPorts]
    constructor
    · intro h
      cases hl : loads text with
      | error e =>
        rw [hl] at h
        cases h
      | ok v =>
        rw [hl] at h
        obtain ⟨pre, item, post, h⟩ := mem_collectPorts.1 h
        exact ⟨text, v, pre, item, post, rfl, hl, h⟩
    · rintro ⟨text', v, pre, item, post, heq, hl, h⟩
      cases heq
      rw [hl]
      exact mem_collectPorts.2 ⟨pre, item, post, h⟩

/-! ### Commands -/

section
variable {ω : Type} {step : ω → (o : KeyOp) → o.Res → ω → Prop} {m m' : KeyManager} {w w' : ω}

theorem runs_command_iff {c : Command} {r : Except Exc Text} : Runs step (_command c m) w (r, m') w' ↔
    m' = m ∧ ∃ reply, step w (.send c) reply w' ∧
      r = match reply with
        | some data => .ok data
        | none => .error .runtimeError := by
  rw [_command, _send, Method.runs_op_bind]
  constructor
  · rintro ⟨reply, w₁, hs, h⟩
    cases reply with
    | none =>
      obtain ⟨rfl, rfl, rfl⟩ := Method.runs_raise.1 h
      exact ⟨rfl, none, hs, rfl⟩
    | some data =>
      obtain ⟨rfl, rfl, rfl⟩ := Method.runs_pure.1 h
      exact ⟨rfl, some data, hs, rfl⟩
  · rintro ⟨rfl, reply, hs, rfl⟩
    cases reply with
    | none => exact ⟨none, w', hs, Method.runs_raise.2 ⟨rfl, rfl, rfl⟩⟩
    | some data => exact ⟨some data, w', hs, Method.runs_pure.2 ⟨rfl, rfl, rfl⟩⟩

theorem runs_checked_iff {c : Command} {r : Except Exc Unit} : Runs step (checked c m) w (r, m') w' ↔
    m' = m ∧ ∃ reply, step w (.send c) reply w' ∧
      r = if reply = some "ok".toList then .ok () else .error .runtimeError := by
  rw [checked, Method.runs_bind]
  simp only [runs_command_iff]
  constructor
  · rintro (⟨data, m₁, w₁, ⟨rfl, reply, hs, heq⟩, h⟩ | ⟨e, rfl, rfl, reply, hs, heq⟩)
    · cases reply with
      | none => cases heq
      | some data' =>
        cases heq
        unfold _check_response at h
        split_ifs at h with hok
        · obtain ⟨rfl, rfl, rfl⟩ := Method.runs_pure.1 h
          exact ⟨rfl, some data, hs, by rw [hok, if_pos rfl]⟩
        · obtain ⟨rfl, rfl, rfl⟩ := Method.runs_raise.1 h
          exact ⟨rfl, some data, hs, by rw [if_neg (fun h => hok (Option.some.inj h))]⟩
    · cases reply with
      | none =>
        cases heq
        exact ⟨rfl, none, hs, rfl⟩
      | some data => cases heq
  · rintro ⟨rfl, reply, hs, rfl⟩
    cases reply with
    | none => exact .inr ⟨_, rfl, rfl, none, hs, rfl⟩
    | some data =>
      refine .inl ⟨data, m', w', ⟨rfl, some data, hs, rfl⟩, ?_⟩
      unfold _check_response
      split_ifs with hok h h
      · exact Method.runs_pure.2 ⟨rfl, rfl, rfl⟩
      · exact absurd (congrArg some hok) h
      · exact absurd (Option.some.inj h) hok
      · exact Method.runs_raise.2 ⟨rfl, rfl, rfl⟩

end

/-! ### What a call does to the table -/

section
variable {manager : ManagerCtx} {arrives : Nat → Nat → Bool} {w w' : SyncWorld} {m m' : KeyManager}

/-- The keys of a table. -/
def tableKeys (table : List Server) : List Text := table.map Server.port

theorem mem_removeServer {port k : Text} {table : List Server} :
    k ∈ tableKeys (removeServer port table) ↔ k ∈ tableKeys table ∧ k ≠ port := by
  simp only [tableKeys, removeServer, List.mem_map, List.mem_filter, decide_eq_true_eq]
  constructor
  · rintro ⟨s, ⟨hs, hne⟩, rfl⟩
    exact ⟨⟨s, hs, rfl⟩, hne⟩
  · rintro ⟨⟨s, hs, rfl⟩, hne⟩
    exact ⟨s, ⟨hs, hne⟩, rfl⟩

theorem addRecord_port {port : Int} {password method : Value} {server : Server}
    (h : addRecord port password method = some server) : server.port = snprintfPort port := by
  obtain ⟨hget, -⟩ := Option.filter_eq_some_iff.1 h
  have hcstr : cstr "server_port".toList = "server_port".toList := by decide
  have hset : Server.zero.setMember "server_port".toList (.num (strInt port)) =
      some { Server.zero with port := snprintfPort port } := by
    rw [Server.setMember, if_pos rfl]
    simp only [strInt, jsonInteger_ofInt]
  have hpayload : get_server (some (addPayload port password method)) =
      some ({ Server.zero with port := snprintfPort port }.setMembers
        [("password".toList, password.json), ("method".toList, method.json)]) := by
    unfold get_server addPayload
    simp only
    rw [Server.setMembers, hcstr, hset]
  rw [hpayload] at hget
  cases hget
  refine port_setMembers (List.forall_mem_cons.2 ⟨?_, List.forall_mem_singleton.2 ?_⟩) _
  · show cstr "password".toList ≠ _
    decide
  · show cstr "method".toList ≠ _
    decide

theorem SyncStep.quiet_world {o : KeyOp} {r : o.Res} (h : SyncStep manager arrives w o r w') (ho : o.Quiet) :
    w' = w := by
  cases h with
  | quiet => rfl
  | _ => exact absurd ho id

/-- What an `add` does to the table and to the log. -/
structure AddStep (item : SyncItem) (w w' : SyncWorld) : Prop where
  adds : w'.adds = w.adds ++ [(item.port, w.table)]
  keys : ∀ k ∈ tableKeys w'.table, k ∈ tableKeys w.table ∨ item.Valid ∧ k = snprintfPort item.port

theorem SyncStep.add {item : SyncItem} {reply : Option Text}
    (h : SyncStep manager arrives w (.send (.add item.port item.password item.method)) reply w') :
    AddStep item w w' ∧ (reply = some "ok".toList → item.Valid ∧ Registered w'.table item.port ∧
      ∀ k ∈ tableKeys w.table, k ∈ tableKeys w'.table) := by
  -- the table that has got the record
  have hput : ∀ {server : Server}, addRecord item.port item.password item.method = some server →
      item.Valid ∧ server.port = snprintfPort item.port ∧
        ∀ k ∈ tableKeys (server :: removeServer server.port w.table),
          k ∈ tableKeys w.table ∨ item.Valid ∧ k = snprintfPort item.port := by
    intro server hrec
    have hport := addRecord_port hrec
    have hvalid : item.Valid := by
      rw [SyncItem.Valid, hrec]
      rfl
    refine ⟨hvalid, hport, fun k hk => ?_⟩
    rcases List.mem_cons.1 hk with rfl | hk
    · exact .inr ⟨hvalid, hport⟩
    · exact .inl (mem_removeServer.1 hk).1
  cases h with
  | added replied hrec =>
    rename_i server
    obtain ⟨hvalid, hport, hkeys⟩ := hput hrec
    refine ⟨⟨rfl, hkeys⟩, fun _ => ⟨hvalid, ?_, fun k hk => ?_⟩⟩
    · exact List.mem_map.2 ⟨server, List.mem_cons_self, hport⟩
    · by_cases hkp : k = server.port
      · exact List.mem_map.2 ⟨server, List.mem_cons_self, hkp.symm⟩
      · exact List.mem_cons_of_mem _ (mem_removeServer.2 ⟨hk, hkp⟩)
  | unavailable replied hrec =>
    refine ⟨⟨rfl, fun k hk => .inl (mem_removeServer.1 hk).1⟩, fun hok => ?_⟩
    cases replied <;> simp at hok
  | unstarted replied hrec =>
    refine ⟨⟨rfl, (hput hrec).2.2⟩, fun hok => ?_⟩
    cases replied <;> simp at hok
  | refused replied hrec =>
    refine ⟨⟨rfl, fun k hk => .inl hk⟩, fun hok => ?_⟩
    cases replied <;> simp at hok
  | not_received => exact ⟨⟨rfl, fun k hk => .inl hk⟩, fun hok => by cases hok⟩
  | quiet _ ho => exact absurd ho id

/-- Setting the lock address leaves the table. -/
theorem runs_set_ip_world {port : Int} {ip : Value} {r : Except Exc Unit}
    (h : Runs (SyncStep manager arrives) (client_set_ip port ip m) w (r, m') w') : m' = m ∧ w' = w := by
  obtain ⟨hm, reply, hs, -⟩ := runs_checked_iff.1 h
  exact ⟨hm, hs.quiet_world trivial⟩

theorem runs_syncAdd {item : SyncItem} {r : Except Exc Unit}
    (h : Runs (SyncStep manager arrives) (syncAdd item m) w (r, m') w') :
    m' = m ∧ AddStep item w w' ∧ (r = .ok () → item.Valid ∧ Registered w'.table item.port ∧
      ∀ k ∈ tableKeys w.table, k ∈ tableKeys w'.table) := by
  rcases Method.runs_bind.1 h with ⟨_, m₁, w₁, hadd, hset⟩ | ⟨e, rfl, hadd⟩
  · obtain ⟨rfl, reply, hs, hr⟩ := runs_checked_iff.1 hadd
    obtain ⟨hstep, hok⟩ := hs.add
    have hreply : reply = some "ok".toList := by
      by_contra hne
      rw [if_neg hne] at hr
      cases hr
    split at hset
    · obtain ⟨rfl, rfl⟩ := runs_set_ip_world hset
      exact ⟨rfl, hstep, fun _ => hok hreply⟩
    · obtain ⟨rfl, rfl, rfl⟩ := Method.runs_pure.1 hset
      exact ⟨rfl, hstep, fun _ => hok hreply⟩
  · obtain ⟨rfl, reply, hs, -⟩ := runs_checked_iff.1 hadd
    exact ⟨rfl, hs.add.1, fun hok => by cases hok⟩

theorem runs_ip_status_world {port : Int} {r : Except Exc Value}
    (h : Runs (SyncStep manager arrives) (ip_status port m) w (r, m') w') : m' = m ∧ w' = w := by
  rcases Method.runs_bind.1 h with ⟨resp, m₁, w₁, hc, hrest⟩ | ⟨e, rfl, hc⟩
  · obtain ⟨rfl, reply, hs, -⟩ := runs_command_iff.1 hc
    obtain rfl := hs.quiet_world trivial
    generalize loads (if resp = [] then "\x7b\x7d".toList else resp) = status at hrest
    cases status
    all_goals
      obtain ⟨-, rfl, rfl⟩ := Method.runs_pure.1 hrest
      exact ⟨rfl, rfl⟩
  · obtain ⟨rfl, reply, hs, -⟩ := runs_command_iff.1 hc
    exact ⟨rfl, hs.quiet_world trivial⟩

theorem runs_syncLock_world {item : SyncItem} {r : Except Exc Unit}
    (h : Runs (SyncStep manager arrives) (syncLock item m) w (r, m') w') : m' = m ∧ w' = w := by
  rcases Method.runs_bind.1 h with ⟨status, m₁, w₁, hst, hrest⟩ | ⟨e, rfl, hst⟩
  · obtain ⟨rfl, rfl⟩ := runs_ip_status_world hst
    rcases Method.runs_ofExcept_bind.1 hrest with ⟨d, -, hrest⟩ | ⟨e, -, -, rfl, rfl⟩
    · rcases Method.runs_ofExcept_bind.1 hrest with ⟨current, -, hset⟩ | ⟨e, -, -, rfl, rfl⟩
      · split at hset
        · exact runs_set_ip_world hset
        · obtain ⟨-, rfl, rfl⟩ := Method.runs_pure.1 hset
          exact ⟨rfl, rfl⟩
      · exact ⟨rfl, rfl⟩
    · exact ⟨rfl, rfl⟩
  · exact runs_ip_status_world hst

/-- What the loop does for one stored key. -/
structure ItemOutcome (managerPorts : List Int) (item : SyncItem) (report report' : SyncReport) (w w' : SyncWorld) :
    Prop where
  skipped : item.port ∈ managerPorts → w' = w
  added : item.port ∉ managerPorts → AddStep item w w'
  errors : report'.errors = [] → report.errors = [] ∧ (item.port ∉ managerPorts →
    item.Valid ∧ Registered w'.table item.port ∧ ∀ k ∈ tableKeys w.table, k ∈ tableKeys w'.table)

theorem addError_ne_nil (report : SyncReport) (item : SyncItem) (lock : Bool) (e : Exc) :
    (report.addError item lock e).errors ≠ [] := by simp [SyncReport.addError]

theorem runs_syncOne {managerPorts : List Int} {item : SyncItem} {report : SyncReport} {r : Except Exc SyncReport}
    (h : Runs (SyncStep manager arrives) (syncOne managerPorts report item m) w (r, m') w') :
    m' = m ∧ ∃ report', r = .ok report' ∧ ItemOutcome managerPorts item report report' w w' := by
  unfold syncOne at h
  split at h
  · rename_i hport
    have hskip : ∀ report' : SyncReport, (report'.errors = [] → report.errors = []) →
        ItemOutcome managerPorts item report report' w w := fun report' he =>
      ⟨fun _ => rfl, fun hn => absurd hport hn, fun hnil => ⟨he hnil, fun hn => absurd hport hn⟩⟩
    split at h
    · obtain ⟨rfl, rfl, rfl⟩ := Method.runs_pure.1 h
      exact ⟨rfl, _, rfl, hskip _ id⟩
    · rcases Method.runs_except.1 h with ⟨report', rfl, hbody⟩ | ⟨e, m₁, w₁, hbody, hhandler⟩
      · rcases Method.runs_bind.1 hbody with ⟨_, m₁, w₁, hlock, hret⟩ | ⟨e, heq, -⟩
        · obtain ⟨rfl, rfl⟩ := runs_syncLock_world hlock
          obtain ⟨heq, rfl, rfl⟩ := Method.runs_pure.1 hret
          cases heq
          exact ⟨rfl, _, rfl, hskip _ id⟩
        · cases heq
      · obtain ⟨rfl, rfl, rfl⟩ := Method.runs_pure.1 hhandler
        rcases Method.runs_bind.1 hbody with ⟨_, m₂, w₂, hlock, hret⟩ | ⟨e', -, hlock⟩
        · cases (Method.runs_pure.1 hret).1
        · obtain ⟨rfl, rfl⟩ := runs_syncLock_world hlock
          exact ⟨rfl, _, rfl, hskip _ fun hnil => absurd hnil (addError_ne_nil _ item true e)⟩
  · rename_i hport
    rcases Method.runs_except.1 h with ⟨report', rfl, hbody⟩ | ⟨e, m₁, w₁, hbody, hhandler⟩
    · rcases Method.runs_bind.1 hbody with ⟨_, m₁, w₁, hadd, hret⟩ | ⟨e, heq, -⟩
      · obtain ⟨rfl, hstep, hok⟩ := runs_syncAdd hadd
        obtain ⟨heq, rfl, rfl⟩ := Method.runs_pure.1 hret
        cases heq
        exact ⟨rfl, _, rfl, fun hmem => absurd hmem hport, fun _ => hstep, fun hnil => ⟨hnil, fun _ => hok rfl⟩⟩
      · cases heq
    · obtain ⟨rfl, rfl, rfl⟩ := Method.runs_pure.1 hhandler
      rcases Method.runs_bind.1 hbody with ⟨_, m₂, w₂, hadd, hret⟩ | ⟨e', -, hadd⟩
      · cases (Method.runs_pure.1 hret).1
      · obtain ⟨rfl, hstep, -⟩ := runs_syncAdd hadd
        exact ⟨rfl, _, rfl, fun hmem => absurd hmem hport, fun _ => hstep,
          fun hnil => absurd hnil (addError_ne_nil _ item false e)⟩

/-! ### Whole runs -/

/-- The stored keys that would be added are not served, whatever the ones before them have done. -/
structure Fresh (managerPorts : List Int) (keys : List Text) (items : List SyncItem) : Prop where
  unserved : ∀ item ∈ items, item.port ∉ managerPorts → snprintfPort item.port ∉ keys
  once : items.Pairwise fun a b => a.port ∉ managerPorts → a.Valid → b.port ∉ managerPorts →
    snprintfPort a.port ≠ snprintfPort b.port

theorem Fresh.step {managerPorts : List Int} {keys keys' : List Text} {item : SyncItem} {items : List SyncItem}
    (h : Fresh managerPorts keys (item :: items)) (hkeys : ∀ k ∈ keys', k ∈ keys ∨
      (item.port ∉ managerPorts ∧ item.Valid) ∧ k = snprintfPort item.port) : Fresh managerPorts keys' items := by
  obtain ⟨hitem, hrest⟩ := List.pairwise_cons.1 h.once
  refine ⟨fun other hother hport hk => ?_, hrest⟩
  rcases hkeys _ hk with hk | ⟨⟨hn, hv⟩, heq⟩
  · exact h.unserved other (List.mem_cons_of_mem _ hother) hport hk
  · exact hitem other hother hn hv hport heq.symm

/-- What a run of the loop keeps: every `add` of a fresh key meets a table without it. -/
theorem runs_syncLoop_adds {ports : Dict Text Value} {managerPorts : List Int} {keys : List (Int × Text)}
    {report : SyncReport} {r : Except Exc SyncReport}
    (h : Runs (SyncStep manager arrives) (syncLoop ports managerPorts keys report m) w (r, m') w')
    (hfresh : Fresh managerPorts (tableKeys w.table) (readItems ports keys).1)
    (hadds : ∀ add ∈ w.adds, ¬ Registered add.2 add.1) : ∀ add ∈ w'.adds, ¬ Registered add.2 add.1 := by
  induction keys generalizing w m report with
  | nil =>
    obtain ⟨-, -, rfl⟩ := Method.runs_pure.1 h
    exact hadds
  | cons key keys ih =>
    rcases Method.runs_ofExcept_bind.1 h with ⟨item, hitem, hrest⟩ | ⟨e, -, -, -, rfl⟩
    · rw [readItems, hitem] at hfresh
      simp only at hfresh
      rcases Method.runs_bind.1 hrest with ⟨report₁, m₁, w₁, hone, hloop⟩ | ⟨e, rfl, hone⟩
      · obtain ⟨rfl, report', heq, hout⟩ := runs_syncOne hone
        by_cases hport : item.port ∈ managerPorts
        · obtain rfl := hout.skipped hport
          exact ih hloop (hfresh.step fun k hk => .inl hk) hadds
        · have hadd := hout.added hport
          refine ih hloop (hfresh.step fun k hk => ?_) ?_
          · exact (hadd.keys k hk).imp id fun hv => ⟨⟨hport, hv.1⟩, hv.2⟩
          · rw [hadd.adds]
            refine List.forall_mem_append.2 ⟨hadds, List.forall_mem_singleton.2 ?_⟩
            exact hfresh.unserved item List.mem_cons_self hport
      · obtain ⟨-, report', heq, -⟩ := runs_syncOne hone
        cases heq
    · exact hadds

/-- A run without errors has read every key, and serves those that were served and those that it has added. -/
theorem runs_syncLoop_table {ports : Dict Text Value} {managerPorts : List Int} {keys : List (Int × Text)}
    {report report' : SyncReport}
    (h : Runs (SyncStep manager arrives) (syncLoop ports managerPorts keys report m) w (.ok report', m') w')
    (herr : report'.errors = []) :
    report.errors = [] ∧ (readItems ports keys).2 = none ∧
      (∀ item ∈ (readItems ports keys).1, item.port ∉ managerPorts → item.Valid) ∧
      ∀ k, k ∈ tableKeys w'.table ↔ k ∈ tableKeys w.table ∨
        ∃ item ∈ (readItems ports keys).1, item.port ∉ managerPorts ∧ k = snprintfPort item.port := by
  induction keys generalizing w m report with
  | nil =>
    obtain ⟨heq, -, rfl⟩ := Method.runs_pure.1 h
    cases heq
    exact ⟨herr, rfl, by simp [readItems], by simp [readItems]⟩
  | cons key keys ih =>
    rcases Method.runs_ofExcept_bind.1 h with ⟨item, hitem, hrest⟩ | ⟨e, -, heq, -, -⟩
    · rcases Method.runs_bind.1 hrest with ⟨report₁, m₁, w₁, hone, hloop⟩ | ⟨e, heq, -⟩
      · obtain ⟨rfl, report₂, heq, hout⟩ := runs_syncOne hone
        cases heq
        obtain ⟨herr₁, hfail, hvalid, hkeys⟩ := ih hloop
        obtain ⟨herr₀, hserved⟩ := hout.errors herr₁
        rw [readItems, hitem]
        simp only [List.forall_mem_cons, List.exists_mem_cons_iff]
        refine ⟨herr₀, hfail, ⟨fun hn => (hserved hn).1, hvalid⟩, fun k => ?_⟩
        rw [hkeys]
        by_cases hport : item.port ∈ managerPorts
        · rw [hout.skipped hport]
          simp [hport]
        · obtain ⟨hv, hserve, hsub⟩ := hserved hport
          have hadd := hout.added hport
          have hk : k ∈ tableKeys w₁.table ↔ k ∈ tableKeys w.table ∨ k = snprintfPort item.port := by
            constructor
            · exact fun hk => (hadd.keys k hk).imp id And.right
            · rintro (hk | rfl)
              · exact hsub k hk
              · exact hserve
          rw [hk, or_assoc]
          simp [hport]
      · cases heq
    · cases heq

/-- The ports come from the reply to `list` alone. -/
theorem runs_managerPorts {py : Python} {r : Except Exc (List Int)}
    (h : Runs (SyncStep manager arrives) (managerPorts py m) w (r, m') w') :
    r = .ok (listedPorts py (listReply manager arrives w.table)) ∧ m' = m ∧ w' = w := by
  have hlist : ∀ {r m₁ w₁}, Runs (SyncStep manager arrives) (list_ports m) w (r, m₁) w₁ → m₁ = m ∧ w₁ = w ∧
      listedPorts py (listReply manager arrives w.table) =
        match r with
        | .ok v => collectPorts py v.elements
        | .error _ => [] := by
    intro r m₁ w₁ hr
    have hsend : ∀ {reply w₂}, SyncStep manager arrives w (.send .list) reply w₂ →
        reply = listReply manager arrives w.table ∧ w₂ = w := by
      intro reply w₂ hs
      cases hs with
      | list => exact ⟨rfl, rfl⟩
      | quiet _ ho => exact absurd ho id
    rcases Method.runs_bind.1 hr with ⟨resp, m₂, w₂, hc, hrest⟩ | ⟨e, rfl, hc⟩
    · obtain ⟨rfl, reply, hs, heq⟩ := runs_command_iff.1 hc
      obtain ⟨rfl, rfl⟩ := hsend hs
      cases hreply : listReply manager arrives w₂.table with
      | none =>
        rw [hreply] at heq
        cases heq
      | some text =>
        rw [hreply] at heq
        cases heq
        split at hrest
        · rename_i hnil
          obtain ⟨rfl, rfl, rfl⟩ := Method.runs_pure.1 hrest
          subst hnil
          exact ⟨rfl, rfl, rfl⟩
        · obtain ⟨rfl, rfl, rfl⟩ := Method.runs_ofExcept.1 hrest
          refine ⟨rfl, rfl, ?_⟩
          rw [listedPorts]
    · obtain ⟨rfl, reply, hs, heq⟩ := runs_command_iff.1 hc
      obtain ⟨rfl, rfl⟩ := hsend hs
      refine ⟨rfl, rfl, ?_⟩
      cases hreply : listReply manager arrives w₁.table with
      | none => rfl
      | some text =>
        rw [hreply] at heq
        cases heq
  rcases Method.runs_except.1 h with ⟨ports, rfl, hbody⟩ | ⟨e, m₁, w₁, hbody, hhandler⟩
  · rcases Method.runs_bind.1 hbody with ⟨v, m₁, w₁, hl, hret⟩ | ⟨e, heq, -⟩
    · obtain ⟨rfl, rfl, heq⟩ := hlist hl
      obtain ⟨hr, rfl, rfl⟩ := Method.runs_pure.1 hret
      rw [heq, hr]
      exact ⟨rfl, rfl, rfl⟩
    · cases heq
  · obtain ⟨rfl, rfl, rfl⟩ := Method.runs_pure.1 hhandler
    rcases Method.runs_bind.1 hbody with ⟨v, m₂, w₂, hl, hret⟩ | ⟨e', heq, hl⟩
    · cases (Method.runs_pure.1 hret).1
    · obtain ⟨rfl, rfl, hports⟩ := hlist hl
      rw [hports]
      exact ⟨rfl, rfl, rfl⟩

/-- After the list the loop runs over the stored keys, or nothing more is done. -/
theorem runs_sync {step : SyncWorld → (o : KeyOp) → o.Res → SyncWorld → Prop}
    (hstep : ∀ {w o r w'}, step w o r w' → SyncStep manager arrives w o r w') {py : Python} {ports : Value}
    {r : Except Exc SyncReport} (h : Runs step (sync_to_manager py ports m) w (r, m') w') :
    (∃ d keys, stored py ports = readItems d keys ∧
      Runs step (syncLoop d (listedPorts py (listReply manager arrives w.table)) keys
        ⟨d.items.length, 0, 0, []⟩ m) w (r, m') w') ∨
      ∃ e, stored py ports = ([], some e) ∧ r = .error e ∧ w' = w := by
  rcases Method.runs_bind.1 h with ⟨listedPs, m₁, w₁, hl, hrest⟩ | ⟨e, -, hl⟩
  · obtain ⟨heq, rfl, rfl⟩ := runs_managerPorts (hl.mono hstep)
    cases heq
    rcases Method.runs_ofExcept_bind.1 hrest with ⟨d, hd, hrest⟩ | ⟨e, hd, rfl, rfl, rfl⟩
    · rcases Method.runs_ofExcept_bind.1 hrest with ⟨keys, hkeys, hloop⟩ | ⟨e, hkeys, rfl, rfl, rfl⟩
      · refine .inl ⟨d, keys, ?_, hloop⟩
        simp only [stored, hd, hkeys]
      · refine .inr ⟨e, ?_, rfl, rfl⟩
        simp only [stored, hd, hkeys]
    · refine .inr ⟨e, ?_, rfl, rfl⟩
      simp only [stored, hd]
  · cases (runs_managerPorts (hl.mono hstep)).1

/-! ### A run with a willing manager -/

/-- A valid `add` and every lock are answered with `ok`. -/
def WillingReply : (o : KeyOp) → o.Res → Prop
  | .send (.add port password method), reply =>
    (addRecord port password method).isSome → reply = some "ok".toList
  | .send (.set_ip ..), reply => reply = some "ok".toList
  | .send (.ip_status _), reply => reply = some "\x7b\x7d".toList
  | _, _ => True

def Willing (manager : ManagerCtx) (arrives : Nat → Nat → Bool) (w : SyncWorld) (o : KeyOp) (r : o.Res)
    (w' : SyncWorld) : Prop :=
  SyncStep manager arrives w o r w' ∧ WillingReply o r

def willing (manager : ManagerCtx) (arrives : Nat → Nat → Bool) : (o : KeyOp) → SyncWorld → o.Res × SyncWorld
  | .send .list, w => (listReply manager arrives w.table, w)
  | .send (.add port password method), w =>
    match addRecord port password method with
    | some server => (some "ok".toList, { w.log port with table := server :: removeServer server.port w.table })
    | none => (some "err".toList, w.log port)
  | .send (.remove port), w => (some "ok".toList, { w with table := removeServer (snprintfPort port) w.table })
  | .send (.ip_status _), w => (some "\x7b\x7d".toList, w)
  | .send (.set_ip ..), w => (some "ok".toList, w)
  | .send (.clear_ip _), w => (some "ok".toList, w)
  | .write_text _, w => (true, w)
  | .generate_password, w => ([], w)

theorem willing_step (o : KeyOp) (w : SyncWorld) :
    Willing manager arrives w o (willing manager arrives o w).1 (willing manager arrives o w).2 := by
  rcases o with c | s | _
  · cases c with
    | list => exact ⟨.list w, trivial⟩
    | add port password method =>
      simp only [willing]
      split
      · rename_i server h
        exact ⟨.added w true h, fun _ => rfl⟩
      · rename_i h
        refine ⟨.refused w true h, fun hv => ?_⟩
        rw [h] at hv
        cases hv
    | remove port => exact ⟨.remove w port true, trivial⟩
    | ip_status port => exact ⟨.quiet w _ trivial, rfl⟩
    | set_ip port ip => exact ⟨.quiet w _ trivial, rfl⟩
    | clear_ip port => exact ⟨.quiet w _ trivial, trivial⟩
  · exact ⟨.quiet w _ trivial, trivial⟩
  · exact ⟨.quiet w _ trivial, trivial⟩

theorem willing_set_ip {port : Int} {ip : Value} {r : Except Exc Unit}
    (h : Runs (Willing manager arrives) (client_set_ip port ip m) w (r, m') w') : r = .ok () := by
  obtain ⟨-, reply, ⟨-, hreply⟩, hr⟩ := runs_checked_iff.1 h
  cases hreply
  exact hr

theorem willing_ip_status {port : Int} {r : Except Exc Value}
    (h : Runs (Willing manager arrives) (ip_status port m) w (r, m') w') :
    ∃ status, r = .ok status ∧ status.asDict = .ok Dict.empty := by
  rcases Method.runs_bind.1 h with ⟨resp, m₁, w₁, hc, hrest⟩ | ⟨e, rfl, hc⟩
  · obtain ⟨-, reply, ⟨-, hreply⟩, hr⟩ := runs_command_iff.1 hc
    cases hreply
    cases hr
    obtain ⟨rfl, -, -⟩ := Method.runs_pure.1 hrest
    exact ⟨_, rfl, rfl⟩
  · obtain ⟨-, reply, ⟨-, hreply⟩, hr⟩ := runs_command_iff.1 hc
    cases hreply
    cases hr

theorem willing_syncLock {item : SyncItem} {r : Except Exc Unit}
    (h : Runs (Willing manager arrives) (syncLock item m) w (r, m') w') : r = .ok () := by
  rcases Method.runs_bind.1 h with ⟨status, m₁, w₁, hst, hrest⟩ | ⟨e, -, hst⟩
  · obtain ⟨status', heq, hd⟩ := willing_ip_status hst
    cases heq
    rw [hd] at hrest
    rcases Method.runs_ofExcept_bind.1 hrest with ⟨d, heq, hrest⟩ | ⟨e, heq, -, -, -⟩
    · cases heq
      rcases Method.runs_ofExcept_bind.1 hrest with ⟨current, -, hset⟩ | ⟨e, heq, -, -, -⟩
      · split at hset
        · exact willing_set_ip hset
        · exact (Method.runs_pure.1 hset).1
      · cases heq
    · cases heq
  · obtain ⟨status', heq, -⟩ := willing_ip_status hst
    cases heq

theorem willing_syncAdd {item : SyncItem} {r : Except Exc Unit}
    (h : Runs (Willing manager arrives) (syncAdd item m) w (r, m') w') :
    (item.Valid → r = .ok () ∧ Registered w'.table item.port) ∧ ∀ k ∈ tableKeys w.table, k ∈ tableKeys w'.table := by
  have hadd : ∀ {m₁ : KeyManager} {w₁} {r₁ : Except Exc Unit}, Runs (Willing manager arrives)
      (add_port item.port item.password item.method m) w (r₁, m₁) w₁ →
      (item.Valid → r₁ = .ok () ∧ Registered w₁.table item.port) ∧ ∀ k ∈ tableKeys w.table, k ∈ tableKeys w₁.table := by
    intro m₁ w₁ r₁ hr
    obtain ⟨-, reply, ⟨hs, hreply⟩, hr₁⟩ := runs_checked_iff.1 hr
    refine ⟨fun hv => ⟨by rw [hr₁, if_pos (hreply hv)], (hs.add.2 (hreply hv)).2.1⟩, ?_⟩
    by_cases hv : item.Valid
    · exact (hs.add.2 (hreply hv)).2.2
    · have hnone : addRecord item.port item.password item.method = none := by
        rwa [SyncItem.Valid, Option.not_isSome_iff_eq_none] at hv
      cases hs with
      | added _ hrec => rw [hnone] at hrec; cases hrec
      | unavailable _ hrec => rw [hnone] at hrec; cases hrec
      | unstarted _ hrec => rw [hnone] at hrec; cases hrec
      | refused => exact fun k hk => hk
      | not_received => exact fun k hk => hk
      | quiet _ ho => exact absurd ho id
  rcases Method.runs_bind.1 h with ⟨_, m₁, w₁, ha, hset⟩ | ⟨e, rfl, ha⟩
  · obtain ⟨hok, hkeys⟩ := hadd ha
    split at hset
    · obtain ⟨-, rfl⟩ := runs_set_ip_world (hset.mono And.left)
      exact ⟨fun hv => ⟨willing_set_ip hset, (hok hv).2⟩, hkeys⟩
    · obtain ⟨hr, -, rfl⟩ := Method.runs_pure.1 hset
      exact ⟨fun hv => ⟨hr, (hok hv).2⟩, hkeys⟩
  · exact hadd ha

theorem willing_syncOne {managerPorts : List Int} {item : SyncItem} {report report' : SyncReport}
    (h : Runs (Willing manager arrives) (syncOne managerPorts report item m) w (.ok report', m') w') :
    (∀ k ∈ tableKeys w.table, k ∈ tableKeys w'.table) ∧
      (item.port ∉ managerPorts → item.Valid → Registered w'.table item.port) ∧
      ((item.port ∉ managerPorts → item.Valid) → report'.errors = report.errors) := by
  unfold syncOne at h
  split at h
  · rename_i hport
    split at h
    · obtain ⟨heq, -, rfl⟩ := Method.runs_pure.1 h
      cases heq
      exact ⟨fun k hk => hk, fun hn => absurd hport hn, fun _ => rfl⟩
    · have hlock : ∀ {r : Except Exc Unit} {m₁ w₁}, Runs (Willing manager arrives) (syncLock item m) w (r, m₁) w₁ →
          r = .ok () ∧ w₁ = w := fun hr => ⟨willing_syncLock hr, (runs_syncLock_world (hr.mono And.left)).2⟩
      rcases Method.runs_except.1 h with ⟨report', heq, hbody⟩ | ⟨e, m₁, w₁, hbody, -⟩
      · cases heq
        rcases Method.runs_bind.1 hbody with ⟨_, m₁, w₁, hl, hret⟩ | ⟨e, heq, -⟩
        · obtain ⟨-, rfl⟩ := hlock hl
          obtain ⟨heq, -, rfl⟩ := Method.runs_pure.1 hret
          cases heq
          exact ⟨fun k hk => hk, fun hn => absurd hport hn, fun _ => rfl⟩
        · cases heq
      · rcases Method.runs_bind.1 hbody with ⟨_, m₂, w₂, -, hret⟩ | ⟨e', -, hl⟩
        · cases (Method.runs_pure.1 hret).1
        · cases (hlock hl).1
  · rename_i hport
    rcases Method.runs_except.1 h with ⟨report', heq, hbody⟩ | ⟨e, m₁, w₁, hbody, hhandler⟩
    · cases heq
      rcases Method.runs_bind.1 hbody with ⟨_, m₁, w₁, hadd, hret⟩ | ⟨e, heq, -⟩
      · obtain ⟨heq, -, rfl⟩ := Method.runs_pure.1 hret
        cases heq
        obtain ⟨hok, hkeys⟩ := willing_syncAdd hadd
        exact ⟨hkeys, fun _ hv => (hok hv).2, fun _ => rfl⟩
      · cases heq
    · obtain ⟨heq, -, rfl⟩ := Method.runs_pure.1 hhandler
      cases heq
      rcases Method.runs_bind.1 hbody with ⟨_, m₂, w₂, hadd, hret⟩ | ⟨e', -, hadd⟩
      · cases (Method.runs_pure.1 hret).1
      · obtain ⟨hok, hkeys⟩ := willing_syncAdd hadd
        exact ⟨hkeys, fun _ hv => (hok hv).2, fun hv => by cases (hok (hv hport)).1⟩

theorem Fresh.cons {managerPorts : List Int} {keys keys' : List Text} {item : SyncItem} {items : List SyncItem}
    (h : Fresh managerPorts keys' items) (hkeys : ∀ k ∈ keys, k ∈ keys')
    (hitem : item.port ∉ managerPorts → snprintfPort item.port ∉ keys)
    (hadded : item.port ∉ managerPorts → item.Valid → snprintfPort item.port ∈ keys') :
    Fresh managerPorts keys (item :: items) := by
  refine ⟨List.forall_mem_cons.2 ⟨hitem, fun other hother hport hk => h.unserved other hother hport (hkeys _ hk)⟩,
    List.pairwise_cons.2 ⟨fun other hother hn hv hport heq => ?_, h.once⟩⟩
  exact h.unserved other hother hport (heq ▸ hadded hn hv)

/-- In a willing run the log says whether the keys were fresh, and only an invalid record is an error. -/
theorem willing_syncLoop {ports : Dict Text Value} {managerPorts : List Int} {keys : List (Int × Text)}
    {report : SyncReport} {r : Except Exc SyncReport}
    (h : Runs (Willing manager arrives) (syncLoop ports managerPorts keys report m) w (r, m') w') :
    (∀ add ∈ w.adds, add ∈ w'.adds) ∧
      ((∀ add ∈ w'.adds, ¬ Registered add.2 add.1) → Fresh managerPorts (tableKeys w.table) (readItems ports keys).1) ∧
      ((readItems ports keys).2 = none →
        (∀ item ∈ (readItems ports keys).1, item.port ∉ managerPorts → item.Valid) →
        ∃ report', r = .ok report' ∧ report'.errors = report.errors) := by
  induction keys generalizing w m report with
  | nil =>
    obtain ⟨rfl, -, rfl⟩ := Method.runs_pure.1 h
    exact ⟨fun add ha => ha, fun _ => ⟨by simp [readItems], .nil⟩, fun _ _ => ⟨report, rfl, rfl⟩⟩
  | cons key keys ih =>
    rcases Method.runs_ofExcept_bind.1 h with ⟨item, hitem, hrest⟩ | ⟨e, hitem, -, -, rfl⟩
    · rw [readItems, hitem]
      rcases Method.runs_bind.1 hrest with ⟨report₁, m₁, w₁, hone, hloop⟩ | ⟨e, rfl, hone⟩
      · obtain ⟨hm, report₂, heq, hout⟩ := runs_syncOne (hone.mono And.left)
        cases heq
        obtain ⟨hkeys, hserved, herr⟩ := willing_syncOne hone
        obtain ⟨hmono, hfresh, hreport⟩ := ih hloop
        have hlog : (∀ add ∈ w.adds, add ∈ w₁.adds) ∧ (item.port ∉ managerPorts → (item.port, w.table) ∈ w₁.adds) := by
          by_cases hport : item.port ∈ managerPorts
          · exact ⟨fun add ha => hout.skipped hport ▸ ha, fun hn => absurd hport hn⟩
          · rw [(hout.added hport).adds]
            exact ⟨fun add ha => List.mem_append_left _ ha, fun _ => List.mem_append_right _ List.mem_cons_self⟩
        refine ⟨fun add ha => hmono add (hlog.1 add ha), fun hadds => ?_, fun hfail hvalid => ?_⟩
        · exact (hfresh hadds).cons hkeys (fun hn => hadds _ (hmono _ (hlog.2 hn))) hserved
        · obtain ⟨hv, hvalid⟩ := List.forall_mem_cons.1 hvalid
          obtain ⟨report', heq, herr'⟩ := hreport hfail hvalid
          exact ⟨report', heq, herr'.trans (herr hv)⟩
      · obtain ⟨-, report', heq, -⟩ := runs_syncOne (hone.mono And.left)
        cases heq
    · rw [readItems, hitem]
      exact ⟨fun add ha => ha, fun _ => ⟨by simp, .nil⟩, fun hfail => by cases hfail⟩

/-! ### The condition -/

theorem ListAgrees.fresh {py : Python} {items : List SyncItem} {complete : Prop} {table : List Server}
    {reply : Option Text} (h : ListAgrees py items complete table reply) :
    Fresh (listedPorts py reply) (tableKeys table) items := by
  constructor
  · intro item hitem hn hserved
    exact hn (mem_listedPorts.2 (h.running item hitem hserved))
  · simpa only [mem_listedPorts] using h.once

/-- For every `ports.json`, every table and whatever arrives of the list: all runs, whatever is answered to the
other commands. -/
theorem sync_safe_iff {py : Python} {ports : Value} {table : List Server} :
    (∀ r m' w', Runs (SyncStep manager arrives) (sync_to_manager py ports m) ⟨table, []⟩ (r, m') w' →
      SyncSafe py ports r w') ↔
      ListAgrees py (stored py ports).1 ((stored py ports).2 = none) table (listReply manager arrives table) := by
  constructor
  · intro h
    have hrun := Runs.of_exec (@willing_step manager arrives) (sync_to_manager py ports m)
      ⟨table, []⟩
    generalize (sync_to_manager py ports m).exec (willing manager arrives) ⟨table, []⟩ = out at hrun
    obtain ⟨⟨r, m'⟩, w'⟩ := out
    have hund := h r m' w' (hrun.mono And.left)
    rcases runs_sync And.left hrun with ⟨d, keys, hst, hloop⟩ | ⟨e, hst, -, -⟩
    · obtain ⟨-, hfresh, hreport⟩ := willing_syncLoop hloop
      have hfresh := hfresh hund.adds
      rw [hst]
      refine ⟨fun item hitem hserved => ?_, ?_, fun hall hvalid item hitem hlisted => ?_⟩
      · by_contra hn
        exact hfresh.unserved item hitem (fun hmem => hn (mem_listedPorts.1 hmem)) hserved
      · simpa only [mem_listedPorts] using hfresh.once
      · obtain ⟨report, rfl, herr⟩ := hreport hall fun item hitem hn =>
          hvalid item hitem fun hl => hn (mem_listedPorts.2 hl)
        obtain ⟨-, -, -, hkeys⟩ := runs_syncLoop_table (hloop.mono And.left) herr
        rcases (hkeys _).1 (hund.table report rfl herr item (hst ▸ hitem)) with hk | ⟨other, hother, hn, heq⟩
        · exact .inl hk
        · exact .inr ⟨other, hother, fun hl => hn (mem_listedPorts.2 hl), heq.symm⟩
    · rw [hst]
      exact ⟨by simp, .nil, fun hall => by cases hall⟩
  · intro h r m' w' hrun
    rcases runs_sync id hrun with ⟨d, keys, hst, hloop⟩ | ⟨e, -, rfl, rfl⟩
    · have hfresh := h.fresh
      rw [hst] at hfresh
      refine ⟨runs_syncLoop_adds hloop hfresh (by simp), ?_⟩
      rintro report rfl herr item hitem
      obtain ⟨-, hall, hvalid, hkeys⟩ := runs_syncLoop_table hloop herr
      rw [hst] at h hitem
      refine (hkeys _).2 ?_
      by_cases hl : item.port ∈ listedPorts py (listReply manager arrives table)
      · rcases h.listed hall (fun other ho hn => hvalid other ho fun hm => hn (mem_listedPorts.1 hm)) item hitem
          (mem_listedPorts.1 hl) with hs | ⟨other, hother, hn, heq⟩
        · exact .inl hs
        · exact .inr ⟨other, hother, fun hm => hn (mem_listedPorts.1 hm), heq.symm⟩
      · exact .inr ⟨item, hitem, hl, rfl⟩
    · exact ⟨by simp, fun report hr => by cases hr⟩

end

/-- A server whose password has a quote in it. -/
def quotedPort : Server :=
  { Server.zero with port := "444".toList, password := "a\"b".toList, method := some "aes-256-gcm".toList }

/-- `ports.json` with its key. -/
def quotedPorts : Value :=
  ⟨.obj [("444".toList, .obj [("password".toList, .str "a\"b".toList), ("method".toList, .str "aes-256-gcm".toList)])],
    ⟨⟨trivial, trivial, trivial⟩, trivial⟩⟩

/-- `asciiPython`, with an `int` that reads plain decimals. -/
def decimalPython : Python :=
  { asciiPython with
    int := fun v =>
      match v.json with
      | .num lexeme | .str lexeme =>
        if Decimal.ofInt (Decimal.atoi lexeme) = lexeme then some (Decimal.atoi lexeme) else none
      | _ => none }

def syncedStore : KeyManager := ⟨DEFAULT_PORT_START, DEFAULT_PORT_END, Dict.empty⟩

/-- The list that the manager prints cannot be parsed, so the port is added again while it runs. -/
theorem quote_restarts : ∃ ports table m, ¬ ∀ r m' w', Runs (SyncStep plainManager fun _ _ => true)
    (sync_to_manager decimalPython ports m) ⟨table, []⟩ (r, m') w' → SyncSafe decimalPython ports r w' := by
  refine ⟨quotedPorts, [quotedPort], syncedStore, fun h => ?_⟩
  have hrun := (Runs.of_exec (@willing_step plainManager fun _ _ => true)
    (sync_to_manager decimalPython quotedPorts syncedStore) ⟨[quotedPort], []⟩).mono And.left
  have hlog : (((sync_to_manager decimalPython quotedPorts syncedStore).exec (willing plainManager fun _ _ => true)
      ⟨[quotedPort], []⟩).2.adds.map fun add => (add.1, add.2.map Server.port)) = [(444, ["444".toList])] := by
    decide +kernel
  generalize (sync_to_manager decimalPython quotedPorts syncedStore).exec (willing plainManager fun _ _ => true)
    ⟨[quotedPort], []⟩ = out at hrun hlog
  obtain ⟨⟨r, m'⟩, w'⟩ := out
  obtain ⟨add, hadd, heq⟩ : ∃ add ∈ w'.adds, (add.1, add.2.map Server.port) = (444, ["444".toList]) :=
    List.mem_map.1 (hlog ▸ List.mem_cons_self)
  obtain ⟨hport, htable⟩ := Prod.mk.inj heq
  refine (h r m' w' hrun).adds add hadd ?_
  rw [Registered, hport, htable]
  decide +kernel

end OutlineServer
