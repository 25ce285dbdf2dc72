import OutlineServer.Jconf

/-!
# The ports of a config file

The map `port_password` of a config file fills an array of `jconf_t`, which the loop of the manager's `main` reads up
to `port_password_num`. A value of the map that is no string leaves a hole in the array, and the counter is that of
the last string: the strings of the map are what is read if they come first (`StringsFirst`).
-/

namespace OutlineServer.Servers

/-- `conf.port_password[i]`, whose two pointers are `NULL` or not together. -/
def Jconf.portEntry (conf : Jconf) (i : Nat) : Option (Text × Text) := (conf.port_password[i]?).join

/-- The entries below the counter. -/
def Jconf.portEntries (conf : Jconf) : List (Option (Text × Text)) :=
  (List.range conf.port_password_num).map conf.portEntry

/-- A round of the loop of `main`; `none` if it reads from a `NULL` pointer. -/
def startServer (conf : Jconf) (i : Nat) : Option Server := do
  let (port, password) ← conf.portEntry i
  return { Server.zero with port := strncpy port 7, password := strncpy password 127 }

/-- The servers that `main` adds. -/
def startServers (conf : Jconf) : Option (List Server) :=
  (List.range conf.port_password_num).mapM (startServer conf)

/-- A pair of the map. -/
def pairText : Text × Json → Option (Text × Text)
  | (port, .str s) => some (cstr port, cstr s)
  | _ => none

/-- The pairs of the map whose value is a string. -/
def stringPairs (ms : List (Text × Json)) : List (Text × Text) := ms.filterMap pairText

/-- No other value comes before a string that there is room for. -/
def StringsFirst (max : Nat) (ms : List (Text × Json)) : Prop :=
  ∀ m ∈ ms.take (min max (stringPairs ms).length), (pairText m).isSome

/-- The array holds the pairs whose value is a string, as many as there is room for, and `main` can read it. -/
structure HoldsPorts (conf : Jconf) (ms : List (Text × Json)) : Prop where
  entries : conf.portEntries = ((stringPairs ms).take MAX_PORT_NUM).map some
  starts : (startServers conf).isSome

variable {α : Type} {conf conf' : Jconf} {news : List (Option α)} {ms members pre post : List (Text × Json)}
  {name key : Text} {value : Json} {num j n : Nat}

/-! ### The array and its counter -/

theorem overwrite_nil (news : List (Option α)) : overwrite news [] = news := by
  cases news <;> rfl

theorem portTexts_obj (max : Nat) (ms : List (Text × Json)) : portTexts max (.obj ms) = (ms.take max).map pairText := by
  show List.map _ _ = _
  refine List.map_congr_left fun m _ => ?_
  obtain ⟨port, value⟩ := m
  cases value <;> rfl

theorem countTexts_le (h : num ≤ j) : countTexts num j news ≤ j + news.length := by
  induction news generalizing num j with
  | nil => exact h
  | cons t news ih =>
    rw [List.length_cons]
    cases t with
    | none =>
      have hle : countTexts num (j + 1) news ≤ j + 1 + news.length := ih (Nat.le_succ_of_le h)
      show countTexts num (j + 1) news ≤ _
      omega
    | some a =>
      have hle : countTexts (j + 1) (j + 1) news ≤ j + 1 + news.length := ih (Nat.le_refl _)
      show countTexts (j + 1) (j + 1) news ≤ _
      omega

theorem countTexts_append (num j : Nat) (news news' : List (Option α)) :
    countTexts num j (news ++ news') = countTexts (countTexts num j news) (j + news.length) news' := by
  induction news generalizing num j with
  | nil => rfl
  | cons t news ih =>
    have hj : j + 1 + news.length = j + (t :: news).length := by
      rw [List.length_cons]
      omega
    rw [← hj]
    cases t with
    | none => exact ih num (j + 1)
    | some a => exact ih (j + 1) (j + 1)

theorem countTexts_some (h : ∀ t ∈ news, t.isSome) : countTexts j j news = j + news.length := by
  induction news generalizing j with
  | nil => rfl
  | cons t news ih =>
    obtain ⟨ht, hnews⟩ := List.forall_mem_cons.1 h
    obtain ⟨a, rfl⟩ := Option.isSome_iff_exists.1 ht
    show countTexts (j + 1) (j + 1) news = _
    rw [ih hnews, List.length_cons]
    omega

theorem countTexts_none (h : ∀ t ∈ news, t = none) : countTexts num j news = num := by
  induction news generalizing j with
  | nil => rfl
  | cons t news ih =>
    obtain ⟨rfl, hnews⟩ := List.forall_mem_cons.1 h
    exact ih hnews

/-! ### The members of a file -/

theorem Jconf.setMember_ports (h : conf.setMember name value = .ok conf') (hname : name ≠ "port_password".toList) :
    conf'.port_password = conf.port_password ∧ conf'.port_password_num = conf.port_password_num := by
  unfold Jconf.setMember at h
  split_ifs at h
  · cases ht : serverTexts value with
    | error e => rw [ht] at h; cases h
    | ok t =>
      rw [ht] at h
      cases h
      exact ⟨rfl, rfl⟩
  · cases ht : to_string value with
    | error e => rw [ht] at h; cases h
    | ok t =>
      rw [ht] at h
      cases h
      exact ⟨rfl, rfl⟩
  · cases ht : boolean name value with
    | error e => rw [ht] at h; cases h
    | ok t =>
      rw [ht] at h
      cases h
      exact ⟨rfl, rfl⟩
  · cases ht : integer name value with
    | error e => rw [ht] at h; cases h
    | ok t =>
      rw [ht] at h
      cases h
      exact ⟨rfl, rfl⟩
  · cases h
    exact ⟨rfl, rfl⟩
  · cases ht : to_string value with
    | error e => rw [ht] at h; cases h
    | ok t =>
      rw [ht] at h
      cases h
      cases t <;> exact ⟨rfl, rfl⟩
  · cases h
    exact ⟨rfl, rfl⟩

theorem Jconf.setMembers_ports (h : conf.setMembers members = .ok conf')
    (hnames : ∀ m ∈ members, cstr m.1 ≠ "port_password".toList) :
    conf'.port_password = conf.port_password ∧ conf'.port_password_num = conf.port_password_num := by
  induction members generalizing conf with
  | nil =>
    cases h
    exact ⟨rfl, rfl⟩
  | cons m members ih =>
    obtain ⟨hm, hmembers⟩ := List.forall_mem_cons.1 hnames
    rw [Jconf.setMembers] at h
    cases hset : conf.setMember (cstr m.1) m.2 with
    | error e =>
      rw [hset] at h
      cases h
    | ok conf₁ =>
      rw [hset] at h
      obtain ⟨hp, hn⟩ := setMember_ports hset hm
      rw [← hp, ← hn]
      exact ih h hmembers

theorem Jconf.setMembers_append_ok {conf conf' : Jconf} {ms ms' : List (Text × Json)}
    (h : conf.setMembers (ms ++ ms') = .ok conf') :
    ∃ conf₁, conf.setMembers ms = .ok conf₁ ∧ conf₁.setMembers ms' = .ok conf' := by
  induction ms generalizing conf with
  | nil => exact ⟨conf, rfl, h⟩
  | cons m ms ih =>
    rw [List.cons_append, Jconf.setMembers] at h
    rw [Jconf.setMembers]
    cases hset : conf.setMember (cstr m.1) m.2 with
    | error e =>
      rw [hset] at h
      cases h
    | ok conf₁ =>
      rw [hset] at h
      exact ih h

/-- The one map of ports in a file is what the array and its counter come from. -/
theorem ports_of_read {file : Text} (hparse : Json.parse file = some (.obj (pre ++ (key, .obj ms) :: post)))
    (hkey : cstr key = "port_password".toList) (hpre : ∀ m ∈ pre, cstr m.1 ≠ "port_password".toList)
    (hpost : ∀ m ∈ post, cstr m.1 ≠ "port_password".toList) (hread : read_jconf file = .ok conf) :
    conf.port_password = (ms.take MAX_PORT_NUM).map pairText ∧
      conf.port_password_num = countTexts 0 0 ((ms.take MAX_PORT_NUM).map pairText) := by
  unfold read_jconf at hread
  split_ifs at hread
  rw [hparse] at hread
  obtain ⟨conf₁, h₁, hread⟩ := Jconf.setMembers_append_ok hread
  obtain ⟨hp₁, hn₁⟩ := Jconf.setMembers_ports h₁ hpre
  rw [Jconf.setMembers, hkey] at hread
  have hset : conf₁.setMember "port_password".toList (.obj ms) = .ok { conf₁ with
      port_password := (ms.take MAX_PORT_NUM).map pairText
      port_password_num := countTexts 0 0 ((ms.take MAX_PORT_NUM).map pairText) } := by
    rw [Jconf.setMember, if_neg (by decide), if_pos rfl, hp₁, hn₁, portTexts_obj]
    show Except.ok _ = _
    rw [show Jconf.zero.port_password = [] from rfl, overwrite_nil]
    rfl
  rw [hset] at hread
  exact Jconf.setMembers_ports hread hpost

/-! ### The entries that are read -/

theorem take_filterMap {β : Type} {f : α → Option β} {l : List α} (h : ∀ a ∈ l.take n, (f a).isSome) :
    ((l.filterMap f).take n).map some = (l.take n).map f := by
  induction l generalizing n with
  | nil => simp
  | cons a l ih =>
    cases n with
    | zero => rfl
    | succ n =>
      rw [List.take_succ_cons] at h
      obtain ⟨ha, hl⟩ := List.forall_mem_cons.1 h
      obtain ⟨b, hb⟩ := Option.isSome_iff_exists.1 ha
      rw [List.filterMap_cons_some hb, List.take_succ_cons, List.map_cons, ih hl, List.take_succ_cons, List.map_cons,
        hb]

/-- Behind the strings that come first there are none that are read. -/
theorem StringsFirst.texts {max : Nat} (h : StringsFirst max ms) : ∃ rest, (∀ t ∈ rest, t = none) ∧
    (ms.take max).map pairText = ((stringPairs ms).take max).map some ++ rest := by
  have hfirst : ((stringPairs ms).take (min max (stringPairs ms).length)).map some =
      (ms.take (min max (stringPairs ms).length)).map pairText := take_filterMap h
  have htake : (stringPairs ms).take (min max (stringPairs ms).length) = (stringPairs ms).take max := by simp
  rw [htake] at hfirst
  refine ⟨((ms.take max).drop (min max (stringPairs ms).length)).map pairText, ?_, ?_⟩
  · rcases Nat.le_total max (stringPairs ms).length with hle | hle
    · rw [Nat.min_eq_left hle]
      simp
    · -- the strings of `ms` are all before
      rw [Nat.min_eq_right hle, List.take_of_length_le hle] at hfirst
      rw [Nat.min_eq_right hle]
      have hsplit : stringPairs ms = (ms.take (stringPairs ms).length).filterMap pairText ++
          (ms.drop (stringPairs ms).length).filterMap pairText := by
        rw [← List.filterMap_append, List.take_append_drop]
        rfl
      have hcount : ((ms.take (stringPairs ms).length).filterMap pairText).length = (stringPairs ms).length := by
        have := congrArg (List.filterMap id) hfirst
        rw [List.filterMap_map, List.filterMap_map] at this
        show (List.filterMap (id ∘ pairText) _).length = _
        rw [← this]
        simp
      have hnil : (ms.drop (stringPairs ms).length).filterMap pairText = [] := by
        have := congrArg List.length hsplit
        rw [List.length_append, hcount] at this
        exact List.length_eq_zero_iff.1 (by omega)
      intro t ht
      obtain ⟨m, hm, rfl⟩ := List.mem_map.1 ht
      refine List.filterMap_eq_nil_iff.1 hnil m ?_
      rw [List.drop_take] at hm
      exact List.mem_of_mem_take hm
  · rw [hfirst, ← List.map_append]
    congr 1
    conv_lhs => rw [← List.take_append_drop (min max (stringPairs ms).length) (ms.take max)]
    rw [List.take_take, Nat.min_eq_left (Nat.min_le_left _ _)]

theorem portEntries_eq (h : conf.port_password_num ≤ conf.port_password.length) :
    conf.portEntries = conf.port_password.take conf.port_password_num := by
  refine List.ext_getElem (by simp [Jconf.portEntries, h]) fun i hi hi' => ?_
  have hlt : i < conf.port_password.length := by
    rw [List.length_take] at hi'
    omega
  simp [Jconf.portEntries, Jconf.portEntry, List.getElem?_eq_getElem hlt]

theorem isSome_mapM {β : Type} {f : α → Option β} {l : List α} : (l.mapM f).isSome ↔ ∀ a ∈ l, (f a).isSome := by
  induction l with
  | nil => simp
  | cons a l ih =>
    rw [List.mapM_cons, List.forall_mem_cons, ← ih]
    cases f a with
    | none => simp
    | some b => cases l.mapM f <;> simp

/-- `main` starts if no entry is `NULL`. -/
theorem startServers_isSome : (startServers conf).isSome ↔ ∀ t ∈ conf.portEntries, t.isSome := by
  unfold startServers Jconf.portEntries
  rw [isSome_mapM, List.forall_mem_map]
  refine forall₂_congr fun i _ => ?_
  unfold startServer
  cases conf.portEntry i <;> simp

/-- The array that a map fills holds its strings if and only if they come first. -/
theorem holdsPorts_iff (hports : conf.port_password = (ms.take MAX_PORT_NUM).map pairText)
    (hnum : conf.port_password_num = countTexts 0 0 ((ms.take MAX_PORT_NUM).map pairText)) :
    HoldsPorts conf ms ↔ StringsFirst MAX_PORT_NUM ms := by
  have hle : conf.port_password_num ≤ conf.port_password.length := by
    rw [hnum, hports]
    exact Nat.le_trans (countTexts_le (Nat.le_refl 0)) (by omega)
  have hentries := portEntries_eq hle
  have htake : ∀ n ≤ MAX_PORT_NUM, ((ms.take MAX_PORT_NUM).map pairText).take n = (ms.take n).map pairText := by
    intro n hn
    rw [← List.map_take, List.take_take, Nat.min_eq_left hn]
  constructor
  · -- as many entries are read as there are strings, and all of them are strings
    intro h
    have heq := h.entries
    rw [hentries] at heq
    have hlen : conf.port_password_num = min MAX_PORT_NUM (stringPairs ms).length := by
      have := congrArg List.length heq
      rw [List.length_take, List.length_map, List.length_take, Nat.min_eq_left hle] at this
      exact this
    intro m hm
    rw [← hlen] at hm
    have hmem : pairText m ∈ conf.port_password.take conf.port_password_num := by
      rw [hports, htake _ (hlen ▸ Nat.min_le_left _ _)]
      exact List.mem_map_of_mem hm
    rw [heq] at hmem
    obtain ⟨t, -, ht⟩ := List.mem_map.1 hmem
    rw [← ht]
    rfl
  · intro h
    obtain ⟨rest, hrest, htexts⟩ := h.texts
    have hcount : conf.port_password_num = ((stringPairs ms).take MAX_PORT_NUM).length := by
      have hsome : ∀ t ∈ ((stringPairs ms).take MAX_PORT_NUM).map some, t.isSome := by
        intro t ht
        obtain ⟨p, -, rfl⟩ := List.mem_map.1 ht
        rfl
      rw [hnum, htexts, countTexts_append, countTexts_some hsome, countTexts_none hrest, List.length_map, Nat.zero_add]
    have heq : conf.portEntries = ((stringPairs ms).take MAX_PORT_NUM).map some := by
      rw [hentries, hports, htexts, hcount]
      exact List.take_left' (List.length_map _)
    refine ⟨heq, startServers_isSome.2 fun t ht => ?_⟩
    rw [heq] at ht
    obtain ⟨p, -, rfl⟩ := List.mem_map.1 ht
    rfl

theorem controlFree {s : Text} (h : s.all (fun c => !Json.isControl c) = true) : ∀ c ∈ s, Json.isControl c = false := by
  intro c hc
  simpa using List.all_eq_true.1 h c hc

open Json in
/-- A config file of nothing but the map of ports. -/
theorem parse_ports {ws : List Text} {file : Text} (h : List.Forall₂ SpellsMember ws ms)
    (hfile : file =
      '\x7b' :: commaSep [member "port_password".toList ('\x7b' :: commaSep ws ++ ['\x7d'])] ++ ['\x7d']) :
    parse file = some (.obj [("port_password".toList, .obj ms)]) := by
  have hname : ∀ c ∈ "port_password".toList, isControl c = false := controlFree rfl
  have hmember : SpellsMember (member "port_password".toList ('\x7b' :: commaSep ws ++ ['\x7d']))
      ("port_password".toList, .obj ms) := ⟨hname, _, rfl, Spells.obj h⟩
  have := parse_of_spells (Spells.obj (.cons hmember .nil)) (r := []) rfl (by intro c hc; cases hc)
  rw [List.append_nil] at this
  rw [hfile, this]

def stringsFile : Text := "\x7b\"port_password\":\x7b\"8388\":\"x\",\"8389\":\"y\"\x7d\x7d".toList

def holeFile : Text := "\x7b\"port_password\":\x7b\"8388\":1,\"8389\":\"x\"\x7d\x7d".toList

/-- For every map of ports in a config file that is read. -/
theorem port_password_iff {file : Text} (hparse : Json.parse file = some (.obj (pre ++ (key, .obj ms) :: post)))
    (hkey : cstr key = "port_password".toList) (hpre : ∀ m ∈ pre, cstr m.1 ≠ "port_password".toList)
    (hpost : ∀ m ∈ post, cstr m.1 ≠ "port_password".toList) (hread : read_jconf file = .ok conf) :
    HoldsPorts conf ms ↔ StringsFirst MAX_PORT_NUM ms := by
  obtain ⟨hports, hnum⟩ := ports_of_read hparse hkey hpre hpost hread
  exact holdsPorts_iff hports hnum

theorem port_password_iff_strings : ∃ conf, read_jconf stringsFile = .ok conf ∧
    (HoldsPorts conf [("8388".toList, .str ['x']), ("8389".toList, .str ['y'])] ↔
      StringsFirst MAX_PORT_NUM [("8388".toList, .str ['x']), ("8389".toList, .str ['y'])]) := by
  have hok : (read_jconf stringsFile).toOption.isSome = true := by decide +kernel
  cases hread : read_jconf stringsFile with
  | error e =>
    rw [hread] at hok
    cases hok
  | ok conf =>
    have hparse : Json.parse stringsFile = some (.obj ([] ++ ("port_password".toList,
        .obj [("8388".toList, .str ['x']), ("8389".toList, .str ['y'])]) :: [])) :=
      parse_ports (.cons ⟨controlFree rfl, _, rfl, .str (s := ['x']) (controlFree rfl)⟩
        (.cons ⟨controlFree rfl, _, rfl, .str (s := ['y']) (controlFree rfl)⟩ .nil))
        (by decide +kernel)
    exact ⟨conf, rfl, port_password_iff hparse (by decide) (fun _ h => nomatch h) (fun _ h => nomatch h) hread⟩

/-- A number before a string: `main` reads from a `NULL` pointer. -/
theorem port_password_hole : ∃ conf,
    Json.parse holeFile =
      some (.obj [("port_password".toList, .obj [("8388".toList, .num ['1']), ("8389".toList, .str ['x'])])]) ∧
    read_jconf holeFile = .ok conf ∧ conf.port_password_num = 2 ∧ conf.portEntry 0 = none ∧
    startServers conf = none ∧ ¬ HoldsPorts conf [("8388".toList, .num ['1']), ("8389".toList, .str ['x'])] := by
  have hok : (read_jconf holeFile).toOption.map (fun conf => (conf.port_password_num, conf.portEntry 0,
      startServers conf)) = some (2, none, none) := by decide +kernel
  cases hread : read_jconf holeFile with
  | error e =>
    rw [hread] at hok
    cases hok
  | ok conf =>
    rw [hread] at hok
    obtain ⟨_, hconf, hnum, hentry, hstart⟩ : ∃ conf', some conf = some conf' ∧ conf'.port_password_num = 2 ∧
        conf'.portEntry 0 = none ∧ startServers conf' = none := by
      simpa [Except.toOption] using hok
    cases hconf
    refine ⟨conf, parse_ports (.cons ⟨controlFree rfl, ['1'], rfl, .nat 1⟩
      (.cons ⟨controlFree rfl, _, rfl, .str (s := ['x']) (controlFree rfl)⟩ .nil))
      (by decide +kernel), rfl, hnum, hentry, hstart, fun h => ?_⟩
    have := h.starts
    rw [hstart] at this
    cases this

end OutlineServer.Servers
