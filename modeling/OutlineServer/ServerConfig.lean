import Mathlib.Data.Finset.Dedup
import Mathlib.Data.Finset.Max
import OutlineServer.Jconf
import OutlineServer.Lib.JsonDump
import OutlineServer.ServerNames

/-!
# The config of a child

What the manager writes for a record against what `read_jconf` makes of it. The strings of the record stand
between quotes as they are. The longest one that would need an escape cannot be read back: what a reader finds
from any quote of the file is plain or shorter than it (`quotedIn_config`). So the child gets the record exactly
if all of them are plain, and the port is the text of its number (`round_trip_iff`).
-/

namespace OutlineServer.Servers
open Decimal Json

/-- The flag of a record, else of the manager. -/
def flagOf (s : Text) (manager : Bool) : Bool := if s = [] then manager else s = "true".toList

/-- The config that a child has read is that of the record, with the method and the flags of the manager where
the record has none, and nothing else is set. -/
structure RoundTrip (manager : ManagerCtx) (server : Server) (conf : Jconf) : Prop where
  server_port : conf.texts "server_port".toList = some server.port
  password : conf.texts "password".toList = some server.password
  method : conf.texts "method".toList = server.method.or manager.method
  plugin : conf.texts "plugin".toList = server.plugin
  plugin_opts : conf.texts "plugin_opts".toList = server.plugin_opts
  no_text : ∀ name ∉ ["server_port", "password", "method", "plugin", "plugin_opts"].map String.toList,
    conf.texts name = none
  mode : server.mode.elim (some .TCP_ONLY) modeNamed = some conf.mode
  fast_open : conf.flags "fast_open".toList = flagOf server.fast_open manager.fast_open
  no_delay : conf.flags "no_delay".toList = flagOf server.no_delay manager.no_delay
  reuse_port : conf.flags "reuse_port".toList = manager.reuse_port
  no_flag : ∀ name ∉ ["fast_open", "no_delay", "reuse_port"].map String.toList, conf.flags name = false
  no_number : ∀ name, conf.numbers name = 0
  no_remote_addr : conf.remote_addr = []
  no_port_password : conf.port_password = []
  no_dscp : conf.dscp = []

/-- What a printed option adds to the file besides its name and its text. -/
def optionLength (name : String) (marks : Nat) : Option Text → Nat
  | some s => name.toList.length + s.length + marks
  | none => 0

/-- The length of the file of a record. -/
def fileLength (manager : ManagerCtx) (server : Server) : Nat :=
  34 + server.port.length + server.password.length +
    optionLength "method" 7 (server.method.or manager.method) +
    optionLength "fast_open" 6 (flagText server.fast_open manager.fast_open) +
    optionLength "no_delay" 6 (flagText server.no_delay manager.no_delay) +
    optionLength "reuse_port" 6 (flagText [] manager.reuse_port) +
    optionLength "mode" 7 server.mode + optionLength "plugin" 7 server.plugin +
    optionLength "plugin_opts" 7 server.plugin_opts

/-- The strings that are printed between quotes. -/
def configStrings (manager : ManagerCtx) (server : Server) : List Text :=
  server.password :: ((server.method.or manager.method).toList ++ server.mode.toList ++ server.plugin.toList ++
    server.plugin_opts.toList)

/-- A record that survives being printed. -/
structure Printable (manager : ManagerCtx) (server : Server) : Prop where
  port : Canonical server.port
  plain : ∀ s ∈ configStrings manager server, Plain s
  mode : ∀ s ∈ server.mode, (modeNamed s).isSome
  plugin : server.plugin ≠ some []
  size : fileLength manager server < MAX_CONF_SIZE

/-! ### The file as a list of options -/

/-- An option as it is printed, from the line feed on. -/
def printed (name w : Text) : Text := '\n' :: '"' :: (name ++ '"' :: ':' :: w)

/-- The options of a record after its port, as they are printed and as they are read. -/
def optionTexts (name : String) (print : Text → Text) (s : Option Text) : List Text :=
  s.toList.map fun s => printed name.toList (print s)

def optionPairs (name : String) (read : Text → Json) (s : Option Text) : List (Text × Json) :=
  s.toList.map fun s => (name.toList, read s)

def flagValue (s : Text) : Json := .bool (s = "true".toList)

def configTexts (manager : ManagerCtx) (server : Server) : List Text :=
  printed "password".toList (quoted server.password) ::
    (optionTexts "method" quoted (server.method.or manager.method) ++
    optionTexts "fast_open" (' ' :: ·) (flagText server.fast_open manager.fast_open) ++
    optionTexts "no_delay" (' ' :: ·) (flagText server.no_delay manager.no_delay) ++
    optionTexts "reuse_port" (' ' :: ·) (flagText [] manager.reuse_port) ++
    optionTexts "mode" quoted server.mode ++ optionTexts "plugin" quoted server.plugin ++
    optionTexts "plugin_opts" quoted server.plugin_opts)

def configPairs (manager : ManagerCtx) (server : Server) : List (Text × Json) :=
  ("password".toList, .str server.password) ::
    (optionPairs "method" .str (server.method.or manager.method) ++
    optionPairs "fast_open" flagValue (flagText server.fast_open manager.fast_open) ++
    optionPairs "no_delay" flagValue (flagText server.no_delay manager.no_delay) ++
    optionPairs "reuse_port" flagValue (flagText [] manager.reuse_port) ++
    optionPairs "mode" .str server.mode ++ optionPairs "plugin" .str server.plugin ++
    optionPairs "plugin_opts" .str server.plugin_opts)

/-- The line of the port. -/
def portText (server : Server) : Text := printed "server_port".toList (ofInt (atoi server.port))

theorem commaSep_flatMap (w : Text) (ws : List Text) : commaSep (w :: ws) = w ++ ws.flatMap (',' :: ·) := by
  induction ws generalizing w with
  | nil => simp [commaSep]
  | cons w' ws ih => rw [commaSep_cons _ (by simp), ih, List.flatMap_cons, List.cons_append]

theorem configOption_string (name : String) (s : Option Text) :
    configOption (configString name.toList) s = (optionTexts name quoted s).flatMap (',' :: ·) := by
  cases s with
  | none => rfl
  | some s => simp [configOption, configString, optionTexts, printed, quoted]

theorem configOption_flag (name : String) (s : Option Text) :
    configOption (configFlag name.toList) s = (optionTexts name (' ' :: ·) s).flatMap (',' :: ·) := by
  cases s with
  | none => rfl
  | some s => simp [configOption, configFlag, optionTexts, printed, quoted]

theorem configText_eq (manager : ManagerCtx) (server : Server) :
    configText manager server =
      '\x7b' :: (portText server ++ (configTexts manager server).flatMap (',' :: ·)) ++ "\n\x7d\n".toList := by
  unfold configText
  simp only [configOption_string, configOption_flag]
  simp [configTexts, portText, printed, quoted, List.flatMap_append]

theorem length_optionTexts (name : String) (print : Text → Text) (marks : Nat)
    (h : ∀ s, (print s).length + 5 = s.length + marks) (s : Option Text) :
    ((optionTexts name print s).flatMap (',' :: ·)).length = optionLength name marks s := by
  cases s with
  | none => rfl
  | some s =>
    have := h s
    simp only [optionTexts, printed, optionLength, Option.toList_some, List.map_cons, List.map_nil,
      List.flatMap_cons, List.flatMap_nil, List.append_nil, List.length_cons, List.length_append]
    omega

theorem length_configText (manager : ManagerCtx) (server : Server) (h : Canonical server.port) :
    (configText manager server).length = fileLength manager server := by
  have hq : ∀ s : Text, (quoted s).length + 5 = s.length + 7 := fun s => by simp [quoted]
  have hf : ∀ s : Text, (' ' :: s).length + 5 = s.length + 6 := fun s => by simp
  rw [configText_eq]
  simp only [configTexts, portText, List.flatMap_cons, List.flatMap_append, List.length_append, List.length_cons,
    length_optionTexts _ _ _ hq, length_optionTexts _ _ _ hf, fileLength, printed, quoted, List.length_nil]
  rw [h]
  simp
  omega

/-! ### What the quotes of the file open -/

/-- A line of the file that no string of the file reaches over, and whose quotes open plain strings or ones
shorter than `bound`. -/
structure Line (bound : Nat) (p : Text) : Prop where
  head : ∃ t, p = ',' :: '\n' :: t
  quotes : ∀ {u x}, string u = none → QuotedIn (p ++ u) x → Plain x ∨ x.length < bound ∨ QuotedIn u x

theorem Line.string_none {bound : Nat} {p : Text} (h : Line bound p) (u : Text) : string (p ++ u) = none := by
  obtain ⟨t, rfl⟩ := h.head
  rw [List.cons_append, List.cons_append, string_plain (by decide) (by decide) (by decide), string_control (by decide)]
  rfl

theorem quotedIn_lines {bound : Nat} {ps : List Text} (h : ∀ p ∈ ps, Line bound p) {u : Text} (hu : string u = none) :
    string (ps.flatten ++ u) = none ∧
      ∀ {x}, QuotedIn (ps.flatten ++ u) x → Plain x ∨ x.length < bound ∨ QuotedIn u x := by
  induction ps with
  | nil => exact ⟨hu, fun hx => .inr (.inr hx)⟩
  | cons p ps ih =>
    obtain ⟨hp, hps⟩ := List.forall_mem_cons.1 h
    obtain ⟨hnone, hquotes⟩ := ih hps
    rw [List.flatten_cons, List.append_assoc]
    refine ⟨hp.string_none _, fun hx => ?_⟩
    rcases hp.quotes hnone hx with hx | hx | hx
    · exact .inl hx
    · exact .inr (.inl hx)
    · exact hquotes hx

/-- Names and numbers have no quotes in them. -/
theorem quotedIn_printed {name w u x : Text} (hname : Plain name) (hw : Plain w) (hu : string u = none)
    (h : QuotedIn (printed name w ++ u) x) : Plain x ∨ QuotedIn u x := by
  have hcol : Plain (':' :: w) := plain_cons.2 ⟨by decide, hw⟩
  have hs : string (':' :: (w ++ u)) = none := hcol.string_none hu
  simp only [printed, List.cons_append, List.append_assoc] at h
  rcases (h.append (b := ['\n']) (by decide)).name hname with hx | ⟨r, hr⟩ | hx
  · exact .inl hx
  · rw [hs] at hr
    cases hr
  · exact .inr (hx.append (b := ':' :: w) fun hc => (hcol _ hc).1 rfl)

theorem Line.plain {bound : Nat} {name w : Text} (hname : Plain name) (hw : Plain w) :
    Line bound (',' :: printed name w) := by
  refine ⟨⟨_, rfl⟩, fun hu hx => ?_⟩
  rcases quotedIn_printed hname hw hu (hx.append (b := [',']) (by decide)) with hx | hx
  · exact .inl hx
  · exact .inr (.inr hx)

theorem Line.string {bound : Nat} {name s : Text} (hname : Plain name) (hs : ¬ Plain s → s.length ≤ bound) :
    Line bound (',' :: printed name (quoted s)) := by
  refine ⟨⟨_, rfl⟩, fun {u x} hu hx => ?_⟩
  simp only [printed, quoted, List.cons_append, List.append_assoc, List.nil_append] at hx
  rcases (hx.append (b := [',', '\n']) (by decide)).name hname with hx | ⟨r, hr⟩ | hx
  · exact .inl hx
  · -- between the name and the value
    rw [string_plain (by decide) (by decide) (by decide), Json.string] at hr
    cases hr
    exact .inl (show Plain [':'] by decide)
  · rcases (hx.append (b := [':']) (by decide)).quoted hu with hx | ⟨hlt, hp⟩ | hx
    · exact .inl hx
    · exact .inr (.inl (lt_of_lt_of_le hlt (hs hp)))
    · exact .inr (.inr hx)

/-- The text of a flag is `true` or `false`. -/
def IsFlag (s : Text) : Prop := s = [] ∨ s = "true".toList ∨ s = "false".toList

theorem IsFlag.plain {s : Text} (h : IsFlag s) : Plain (' ' :: s) := by
  rcases h with rfl | rfl | rfl
  all_goals decide

theorem isFlag_flagText {s : Text} (h : IsFlag s) {manager : Bool} {t : Text} (ht : t ∈ flagText s manager) :
    IsFlag t := by
  unfold flagText at ht
  split_ifs at ht
  · cases ht
    exact h
  · cases ht
    exact .inr (.inl rfl)
  · cases ht

/-- The flags of a record. -/
structure FlagBound (server : Server) : Prop where
  fast_open : IsFlag server.fast_open
  no_delay : IsFlag server.no_delay

theorem FlagBound.setMember {server server' : Server} {name : Text} {value : Json} (h : FlagBound server)
    (hs : server.setMember name value = some server') : FlagBound server' := by
  unfold Server.setMember at hs
  repeat' split at hs
  all_goals
    cases hs <;> first
      | exact ⟨h.fast_open, h.no_delay⟩
      | exact ⟨.inr (.inl rfl), h.no_delay⟩
      | exact ⟨.inr (.inr rfl), h.no_delay⟩
      | exact ⟨h.fast_open, .inr (.inl rfl)⟩
      | exact ⟨h.fast_open, .inr (.inr rfl)⟩

theorem FlagBound.of_get_server {obj : Option Json} {server : Server} (h : get_server obj = some server) :
    FlagBound server :=
  get_server_induct (P := FlagBound) ⟨.inl rfl, .inl rfl⟩ (fun h hs => h.setMember hs) h

theorem line_optionTexts {bound : Nat} {name : String} {print : Text → Text} {s : Option Text}
    (h : ∀ t ∈ s, Line bound (',' :: printed name.toList (print t))) :
    ∀ p ∈ (optionTexts name print s).map (',' :: ·), Line bound p := by
  cases s with
  | none => simp [optionTexts]
  | some s => simpa [optionTexts] using h s rfl

theorem line_configTexts {bound : Nat} {manager : ManagerCtx} {server : Server} (hf : FlagBound server)
    (hb : ∀ s ∈ configStrings manager server, ¬ Plain s → s.length ≤ bound) :
    ∀ p ∈ (configTexts manager server).map (',' :: ·), Line bound p := by
  have hflag : ∀ {name : String} {s : Text} {b : Bool}, Plain name.toList → IsFlag s →
      ∀ p ∈ (optionTexts name (' ' :: ·) (flagText s b)).map (',' :: ·), Line bound p := fun hname hs =>
    line_optionTexts fun t ht => .plain hname (isFlag_flagText hs ht).plain
  have hstring : ∀ {name : String} {s : Option Text}, Plain name.toList →
      (∀ t ∈ s, t ∈ configStrings manager server) →
      ∀ p ∈ (optionTexts name quoted s).map (',' :: ·), Line bound p := fun hname hs =>
    line_optionTexts fun t ht => .string hname (hb t (hs t ht))
  simp only [configTexts, List.map_cons, List.map_append, List.forall_mem_cons, List.forall_mem_append]
  refine ⟨.string (by decide) (hb _ (by simp [configStrings])),
    ⟨⟨⟨⟨⟨hstring (by decide) ?_, hflag (by decide) hf.fast_open⟩, hflag (by decide) hf.no_delay⟩,
      hflag (by decide) (.inl rfl)⟩, hstring (by decide) ?_⟩, hstring (by decide) ?_⟩, hstring (by decide) ?_⟩
  all_goals
    intro t ht
    simp [configStrings, Option.mem_def.1 ht]

/-- What a reader can find from a quote of the file. -/
theorem quotedIn_config {bound : Nat} {manager : ManagerCtx} {server : Server} (hf : FlagBound server)
    (hb : ∀ s ∈ configStrings manager server, ¬ Plain s → s.length ≤ bound) {x : Text}
    (hx : QuotedIn (configText manager server) x) : Plain x ∨ x.length < bound := by
  have hend : string "\n\x7d\n".toList = none := string_control (by decide) _
  obtain ⟨hnone, hquotes⟩ := quotedIn_lines (line_configTexts hf hb) hend
  have hport := plain_ofInt (atoi server.port)
  rw [configText_eq, List.flatMap_def, List.cons_append, List.append_assoc] at hx
  rcases quotedIn_printed (by decide) hport hnone (hx.append (b := ['\x7b']) (by decide)) with hx | hx
  · exact .inl hx
  · rcases hquotes hx with hx | hx | hx
    · exact .inl hx
    · exact .inr hx
    · exact absurd (hx.append (b := "\n\x7d\n".toList) (u := []) (by decide)) QuotedIn.not_nil

/-! ### Reading plain strings -/

theorem spells_optionPairs {name : String} (hname : Plain name.toList) {print : Text → Text} {read : Text → Json}
    {s : Option Text} (h : ∀ t ∈ s, Spells (print t) (read t)) :
    List.Forall₂ SpellsPair (optionTexts name print s) (optionPairs name read s) := by
  cases s with
  | none => exact .nil
  | some s => exact .cons ⟨['\n'], name.toList, print s, rfl, by simp [Blank, isWs], hname.quotes, h s rfl⟩ .nil

theorem IsFlag.spells {s : Text} (h : IsFlag s) (hne : s ≠ []) : Spells (' ' :: s) (flagValue s) := by
  refine Spells.blank (b := [' ']) (by simp [Blank, isWs]) ?_
  rcases h with rfl | rfl | rfl
  · exact absurd rfl hne
  · exact spells_word (c := 't') rfl rfl (by decide) fun _ => rfl
  · exact spells_word (c := 'f') rfl rfl (by decide) fun _ => rfl

theorem flagText_ne_nil {s : Text} {manager : Bool} {t : Text} (ht : t ∈ flagText s manager) : t ≠ [] := by
  unfold flagText at ht
  split_ifs at ht with hs
  · cases ht
    exact hs
  · cases ht
    decide
  · cases ht

theorem spells_configPairs {manager : ManagerCtx} {server : Server} (hf : FlagBound server)
    (hp : ∀ s ∈ configStrings manager server, Plain s) :
    List.Forall₂ SpellsPair (configTexts manager server) (configPairs manager server) := by
  have hstring : ∀ (name : String) (s : Option Text), Plain name.toList →
      (∀ t ∈ s, t ∈ configStrings manager server) →
      List.Forall₂ SpellsPair (optionTexts name quoted s) (optionPairs name .str s) := fun name s hname hs =>
    spells_optionPairs hname fun t ht => (hp t (hs t ht)).spells
  have hflag : ∀ (name : String) {s : Text} (b : Bool), Plain name.toList → IsFlag s →
      List.Forall₂ SpellsPair (optionTexts name (' ' :: ·) (flagText s b))
        (optionPairs name flagValue (flagText s b)) :=
    fun name s b hname hs => spells_optionPairs hname fun t ht => (isFlag_flagText hs ht).spells (flagText_ne_nil ht)
  refine List.rel_append (hstring "password" (some server.password) (by decide) ?_) (List.rel_append (List.rel_append
    (List.rel_append (List.rel_append (List.rel_append (List.rel_append (hstring _ _ (by decide) ?_)
      (hflag _ _ (by decide) hf.fast_open)) (hflag _ _ (by decide) hf.no_delay)) (hflag _ _ (by decide) (.inl rfl)))
      (hstring _ _ (by decide) ?_)) (hstring _ _ (by decide) ?_)) (hstring _ _ (by decide) ?_))
  · intro t ht
    cases ht
    exact List.mem_cons_self
  all_goals
    intro t ht
    simp [configStrings, Option.mem_def.1 ht]

theorem parse_configText {manager : ManagerCtx} {server : Server} (hf : FlagBound server)
    (hp : ∀ s ∈ configStrings manager server, Plain s) :
    parse (configText manager server) =
      some (.obj (("server_port".toList, .num (ofInt (atoi server.port))) :: configPairs manager server)) := by
  have hport : SpellsPair (portText server) ("server_port".toList, .num (ofInt (atoi server.port))) :=
    ⟨['\n'], "server_port".toList, _, rfl, by simp [Blank, isWs], Plain.quotes (by decide), .num (isNumber_ofInt _)⟩
  have hobj := Spells.obj_blank (.cons hport (spells_configPairs hf hp)) (b := ['\n']) (by simp [Blank, isWs])
  have heq : configText manager server =
      '\x7b' :: commaSep (portText server :: configTexts manager server) ++ (['\n'] ++ ['\x7d']) ++ ['\n'] := by
    rw [configText_eq, commaSep_flatMap, List.append_assoc]
    rfl
  rw [heq]
  exact parse_of_spells hobj rfl (stops_cons rfl _)

/-! ### The config that is read from plain strings -/

namespace Jconf

def withText (conf : Jconf) (name : String) : Option Text → Jconf
  | some s => conf.setText name.toList (some s)
  | none => conf

def withPlugin (conf : Jconf) : Option Text → Jconf
  | some s => conf.setText "plugin".toList (if s = [] then none else some s)
  | none => conf

def withFlag (conf : Jconf) (name : String) : Option Text → Jconf
  | some s => conf.setFlag name.toList (s = "true".toList)
  | none => conf

def withMode (conf : Jconf) : Option Text → Jconf
  | some s => conf.setMode (some s)
  | none => conf

theorem setMembers_append {conf conf₁ conf₂ : Jconf} {ms ms' : List (Text × Json)}
    (h : conf.setMembers ms = .ok conf₁) (h' : conf₁.setMembers ms' = .ok conf₂) :
    conf.setMembers (ms ++ ms') = .ok conf₂ := by
  induction ms generalizing conf with
  | nil =>
    cases h
    exact h'
  | cons m ms ih =>
    obtain ⟨name, value⟩ := m
    rw [List.cons_append, setMembers]
    rw [setMembers] at h
    cases hm : conf.setMember (cstr name) value with
    | error e => rw [hm] at h; cases h
    | ok conf' =>
      rw [hm] at h
      exact ih h

theorem setMembers_singleton {conf conf' : Jconf} {name : Text} {value : Json}
    (h : conf.setMember (cstr name) value = .ok conf') : conf.setMembers [(name, value)] = .ok conf' := by
  rw [setMembers, h]
  rfl

end Jconf

theorem cstr_eq {s : Text} (h : Plain s) : cstr s = s := by
  refine List.takeWhile_eq_self_iff.2 fun c hc => ?_
  have hctl := (h c hc).2.2
  simp only [decide_eq_true_eq]
  rintro rfl
  cases hctl

theorem setMembers_text (conf : Jconf) {name : String} {s : Option Text} (hs : ∀ t ∈ s, Plain t)
    (h : Plain name.toList ∧ name.toList ∈ textOptions ∧ name ∉ ["plugin", "server", "port_password"]) :
    conf.setMembers (optionPairs name .str s) = .ok (conf.withText name s) := by
  obtain ⟨hname, h, hne⟩ := h
  simp only [List.mem_cons, List.not_mem_nil, or_false, not_or, ← String.toList_inj] at hne
  obtain ⟨hp, hserver, hport⟩ := hne
  cases s with
  | none => rfl
  | some s =>
    refine Jconf.setMembers_singleton ?_
    rw [cstr_eq hname, Jconf.setMember, if_neg hserver, if_neg hport, if_pos h]
    simp only [hp, false_and, ↓reduceIte, to_string, cstr_eq (hs s rfl)]
    rfl

theorem setMembers_plugin (conf : Jconf) {s : Option Text} (hs : ∀ t ∈ s, Plain t) :
    conf.setMembers (optionPairs "plugin" .str s) = .ok (conf.withPlugin s) := by
  cases s with
  | none => rfl
  | some s =>
    have hcstr : cstr "plugin".toList = "plugin".toList := by decide
    refine Jconf.setMembers_singleton ?_
    rw [hcstr, Jconf.setMember, if_neg (by decide), if_neg (by decide), if_pos (by decide), to_string,
      cstr_eq (hs s rfl)]
    change Except.ok (conf.setText _ (if _ ∧ some s = some [] then none else some s)) = _
    simp only [true_and, Option.some.injEq]
    rfl

theorem setMembers_flag (conf : Jconf) {name : String} {s : Option Text}
    (h : Plain name.toList ∧ name.toList ∈ flagOptions ∧ name.toList ∉ textOptions ∧
      name ∉ ["server", "port_password"]) :
    conf.setMembers (optionPairs name flagValue s) = .ok (conf.withFlag name s) := by
  obtain ⟨hname, h, ht, hne⟩ := h
  simp only [List.mem_cons, List.not_mem_nil, or_false, not_or, ← String.toList_inj] at hne
  obtain ⟨hserver, hport⟩ := hne
  cases s with
  | none => rfl
  | some s =>
    refine Jconf.setMembers_singleton ?_
    rw [cstr_eq hname, Jconf.setMember, if_neg hserver, if_neg hport, if_neg ht, if_pos h]
    rfl

theorem setMembers_mode (conf : Jconf) {s : Option Text} (hs : ∀ t ∈ s, Plain t) :
    conf.setMembers (optionPairs "mode" .str s) = .ok (conf.withMode s) := by
  cases s with
  | none => rfl
  | some s =>
    have hcstr : cstr "mode".toList = "mode".toList := by decide
    refine Jconf.setMembers_singleton ?_
    rw [hcstr, Jconf.setMember, if_neg (by decide), if_neg (by decide), if_neg (by decide), if_neg (by decide),
      if_neg (by decide), if_neg (by decide), if_neg (by decide), if_pos rfl, to_string, cstr_eq (hs s rfl)]
    rfl

theorem toInt_atoi {port : Text} (h : port.length ≤ 7) : toInt (atoi port) = atoi port := by
  have hlt := lt_of_lt_of_le (atoi_natAbs_lt port) (Nat.pow_le_pow_right (by decide) h : 10 ^ port.length ≤ 10 ^ 7)
  rw [toInt, Int.bmod_eq_of_le] <;> omega

theorem setMembers_port (conf : Jconf) {server : Server} (h : server.port.length ≤ 7) :
    conf.setMembers [("server_port".toList, .num (ofInt (atoi server.port)))] =
      .ok (conf.setText "server_port".toList (some (ofInt (atoi server.port)))) := by
  have hcstr : cstr "server_port".toList = "server_port".toList := by decide
  refine Jconf.setMembers_singleton ?_
  rw [hcstr, Jconf.setMember, if_neg (by decide), if_neg (by decide), if_pos (by decide), to_string,
    jsonInteger_ofInt]
  simp only [ss_itoa, toInt_atoi h]
  rfl

/-- The config of a child whose record has plain strings only. -/
def readConf (manager : ManagerCtx) (server : Server) : Jconf :=
  (((((((((Jconf.zero.setText "server_port".toList (some (ofInt (atoi server.port)))).withText "password"
    (some server.password)).withText "method" (server.method.or manager.method)).withFlag "fast_open"
    (flagText server.fast_open manager.fast_open)).withFlag "no_delay"
    (flagText server.no_delay manager.no_delay)).withFlag "reuse_port"
    (flagText [] manager.reuse_port)).withMode server.mode).withPlugin server.plugin).withText "plugin_opts"
    server.plugin_opts)

theorem plain_configStrings {manager : ManagerCtx} {server : Server}
    (hp : ∀ s ∈ configStrings manager server, Plain s) :
    (∀ t ∈ some server.password, Plain t) ∧ (∀ t ∈ server.method.or manager.method, Plain t) ∧
      (∀ t ∈ server.mode, Plain t) ∧ (∀ t ∈ server.plugin, Plain t) ∧ ∀ t ∈ server.plugin_opts, Plain t := by
  simpa [configStrings, or_imp, forall_and, and_assoc] using hp

theorem setMembers_config {manager : ManagerCtx} {server : Server} (hb : PortBound server)
    (hp : ∀ s ∈ configStrings manager server, Plain s) :
    Jconf.zero.setMembers (("server_port".toList, .num (ofInt (atoi server.port))) :: configPairs manager server) =
      .ok (readConf manager server) := by
  obtain ⟨hpassword, hmethod, hmode, hplugin, hopts⟩ := plain_configStrings hp
  have hlist : ("server_port".toList, Json.num (ofInt (atoi server.port))) :: configPairs manager server =
      [("server_port".toList, .num (ofInt (atoi server.port)))] ++
        (optionPairs "password" .str (some server.password) ++
        (optionPairs "method" .str (server.method.or manager.method) ++
        (optionPairs "fast_open" flagValue (flagText server.fast_open manager.fast_open) ++
        (optionPairs "no_delay" flagValue (flagText server.no_delay manager.no_delay) ++
        (optionPairs "reuse_port" flagValue (flagText [] manager.reuse_port) ++
        (optionPairs "mode" .str server.mode ++ (optionPairs "plugin" .str server.plugin ++
        optionPairs "plugin_opts" .str server.plugin_opts))))))) := by
    simp only [configPairs, List.append_assoc]
    rfl
  rw [hlist]
  refine Jconf.setMembers_append (setMembers_port _ hb.length) ?_
  refine Jconf.setMembers_append (setMembers_text _ hpassword (by decide)) ?_
  refine Jconf.setMembers_append (setMembers_text _ hmethod (by decide)) ?_
  refine Jconf.setMembers_append (setMembers_flag _ (by decide)) ?_
  refine Jconf.setMembers_append (setMembers_flag _ (by decide)) ?_
  refine Jconf.setMembers_append (setMembers_flag _ (by decide)) ?_
  refine Jconf.setMembers_append (setMembers_mode _ hmode) ?_
  refine Jconf.setMembers_append (setMembers_plugin _ hplugin) ?_
  exact setMembers_text _ hopts (by decide)

theorem read_jconf_config {manager : ManagerCtx} {server : Server} (hb : PortBound server) (hf : FlagBound server)
    (hp : ∀ s ∈ configStrings manager server, Plain s) (hlen : (configText manager server).length < MAX_CONF_SIZE) :
    read_jconf (configText manager server) = .ok (readConf manager server) := by
  have hne : configText manager server ≠ [] := by
    rw [configText_eq]
    exact List.cons_ne_nil _ _
  rw [read_jconf, if_neg (by omega), if_neg hne, parse_configText hf hp]
  exact setMembers_config hb hp

/-! ### The record that is read -/

section Fields
variable (conf : Jconf) (name : String) (s : Option Text) (k : Text)

theorem texts_setText (name : Text) : (conf.setText name s).texts k = if k = name then s else conf.texts k := rfl

theorem texts_withText :
    (conf.withText name s).texts k = if k = name.toList then s.or (conf.texts k) else conf.texts k := by
  cases s with
  | none => simp [Jconf.withText]
  | some s => rfl

theorem texts_withPlugin : (conf.withPlugin s).texts k =
    if k = "plugin".toList then s.elim (conf.texts k) (fun s => if s = [] then none else some s) else conf.texts k := by
  cases s with
  | none => simp [Jconf.withPlugin]
  | some s => rfl

theorem flags_withFlag : (conf.withFlag name s).flags k =
    if k = name.toList then s.elim (conf.flags k) (fun s => s = "true".toList) else conf.flags k := by
  cases s with
  | none => simp [Jconf.withFlag]
  | some s => rfl

@[simp] theorem texts_withFlag : (conf.withFlag name s).texts = conf.texts := by cases s <;> rfl

@[simp] theorem texts_withMode : (conf.withMode s).texts = conf.texts := by cases s <;> rfl

@[simp] theorem flags_withText : (conf.withText name s).flags = conf.flags := by cases s <;> rfl

@[simp] theorem flags_withPlugin : (conf.withPlugin s).flags = conf.flags := by cases s <;> rfl

@[simp] theorem flags_withMode : (conf.withMode s).flags = conf.flags := by cases s <;> rfl

/-- What the printed options leave as it is. -/
def Jconf.rest : (Text → Int) × List (Option Text) × List (Option (Text × Text)) × List (Option (Text × Text)) :=
  (conf.numbers, conf.remote_addr, conf.port_password, conf.dscp)

@[simp] theorem rest_withText : (conf.withText name s).rest = conf.rest := by cases s <;> rfl

@[simp] theorem rest_withPlugin : (conf.withPlugin s).rest = conf.rest := by cases s <;> rfl

@[simp] theorem rest_withFlag : (conf.withFlag name s).rest = conf.rest := by cases s <;> rfl

@[simp] theorem rest_withMode : (conf.withMode s).rest = conf.rest := by cases s <;> rfl

@[simp] theorem mode_withText : (conf.withText name s).mode = conf.mode := by cases s <;> rfl

@[simp] theorem mode_withPlugin : (conf.withPlugin s).mode = conf.mode := by cases s <;> rfl

@[simp] theorem mode_withFlag : (conf.withFlag name s).mode = conf.mode := by cases s <;> rfl

theorem mode_withMode : (conf.withMode s).mode = s.elim conf.mode fun s => (modeNamed s).getD conf.mode := by
  cases s <;> rfl

end Fields

theorem flag_elim {s : Text} (manager : Bool) :
    ((flagText s manager).elim false fun s => decide (s = "true".toList)) = flagOf s manager := by
  unfold flagText flagOf
  split_ifs with hs
  · simp_all
  all_goals simp_all

theorem texts_readConf (manager : ManagerCtx) (server : Server) (k : Text) : (readConf manager server).texts k =
    if k = "plugin_opts".toList then server.plugin_opts
    else if k = "plugin".toList then server.plugin.elim none fun s => if s = [] then none else some s
    else if k = "method".toList then server.method.or manager.method
    else if k = "password".toList then some server.password
    else if k = "server_port".toList then some (ofInt (atoi server.port))
    else none := by
  have hzero : Jconf.zero.texts k = none := rfl
  unfold readConf
  simp only [texts_withText, texts_withPlugin, texts_withFlag, texts_withMode, texts_setText, hzero, Option.some_or]
  split_ifs with h₁ h₂ h₃ h₄ h₅
  all_goals
    subst_vars
    first
      | rfl
      | simp at *

theorem flags_readConf (manager : ManagerCtx) (server : Server) (k : Text) : (readConf manager server).flags k =
    if k = "reuse_port".toList then manager.reuse_port
    else if k = "no_delay".toList then flagOf server.no_delay manager.no_delay
    else if k = "fast_open".toList then flagOf server.fast_open manager.fast_open
    else false := by
  have hzero : (Jconf.zero.setText "server_port".toList (some (ofInt (atoi server.port)))).flags k = false := rfl
  have hreuse : flagOf [] manager.reuse_port = manager.reuse_port := rfl
  unfold readConf
  simp only [flags_withText, flags_withPlugin, flags_withFlag, flags_withMode, hzero]
  split_ifs with h₁ h₂ h₃
  all_goals
    subst_vars
    first
      | simp only [flag_elim, hreuse]; done
      | simp at *

theorem rest_readConf (manager : ManagerCtx) (server : Server) : (readConf manager server).rest = Jconf.zero.rest := by
  unfold readConf
  simp only [rest_withText, rest_withPlugin, rest_withFlag, rest_withMode]
  rfl

theorem mode_readConf (manager : ManagerCtx) (server : Server) :
    (readConf manager server).mode = server.mode.elim .TCP_ONLY fun s => (modeNamed s).getD .TCP_ONLY := by
  unfold readConf
  simp only [mode_withText, mode_withPlugin, mode_withFlag, mode_withMode]
  rfl

theorem roundTrip_readConf {manager : ManagerCtx} {server : Server} :
    RoundTrip manager server (readConf manager server) ↔
      Canonical server.port ∧ (∀ s ∈ server.mode, (modeNamed s).isSome) ∧ server.plugin ≠ some [] := by
  constructor
  · intro h
    have hport := h.server_port
    have hmode := h.mode
    have hplugin := h.plugin
    rw [texts_readConf] at hport hplugin
    refine ⟨by simpa [Canonical] using hport, fun s hs => ?_, fun hnil => ?_⟩
    · rw [Option.mem_def.1 hs] at hmode
      exact Option.isSome_iff_exists.2 ⟨_, hmode⟩
    · rw [hnil] at hplugin
      simp at hplugin
  · rintro ⟨hport, hmode, hplugin⟩
    have hrest := rest_readConf manager server
    simp only [Jconf.rest, Prod.mk.injEq] at hrest
    obtain ⟨hnumbers, hremote, hports, hdscp⟩ := hrest
    refine ⟨?_, ?_, ?_, ?_, ?_, fun name hname => ?_, ?_, ?_, ?_, ?_, fun name hname => ?_, fun name => ?_, hremote,
      hports, hdscp⟩
    · rw [texts_readConf, hport]
      rfl
    · rw [texts_readConf]
      rfl
    · rw [texts_readConf]
      rfl
    · rw [texts_readConf]
      cases hs : server.plugin with
      | none => rfl
      | some s =>
        have hne : s ≠ [] := by
          rintro rfl
          exact hplugin hs
        simp [hne]
    · rw [texts_readConf]
      rfl
    · simp only [List.map_cons, List.map_nil, List.mem_cons, List.not_mem_nil, or_false, not_or] at hname
      obtain ⟨h₁, h₂, h₃, h₄, h₅⟩ := hname
      rw [texts_readConf, if_neg h₅, if_neg h₄, if_neg h₃, if_neg h₂, if_neg h₁]
    · rw [mode_readConf]
      cases hs : server.mode with
      | none => rfl
      | some s =>
        obtain ⟨m, hm⟩ := Option.isSome_iff_exists.1 (hmode s hs)
        simp [hm]
    · rw [flags_readConf]
      rfl
    · rw [flags_readConf]
      rfl
    · rw [flags_readConf]
      rfl
    · simp only [List.map_cons, List.map_nil, List.mem_cons, List.not_mem_nil, or_false, not_or] at hname
      obtain ⟨h₁, h₂, h₃⟩ := hname
      rw [flags_readConf, if_neg h₃, if_neg h₂, if_neg h₁]
    · rw [hnumbers]
      rfl

/-! ### The round trip -/

theorem modeNamed_plain {s : Text} (h : (modeNamed s).isSome) : Plain s := by
  unfold modeNamed at h
  split_ifs at h with h₁ h₂ h₃
  · exact h₁ ▸ by decide
  · exact h₂ ▸ by decide
  · exact h₃ ▸ by decide
  · cases h

/-- Every string of the record but its mode is a text of the config. -/
theorem RoundTrip.text {manager : ManagerCtx} {server : Server} {conf : Jconf} (h : RoundTrip manager server conf)
    {s : Text} (hs : s ∈ configStrings manager server) : Plain s ∨ ∃ k, conf.texts k = some s := by
  simp only [configStrings, List.mem_cons, List.mem_append, Option.mem_toList] at hs
  rcases hs with rfl | ((hs | hs) | hs) | hs
  · exact .inr ⟨_, h.password⟩
  · exact .inr ⟨_, h.method.trans hs⟩
  · have hmode := h.mode
    rw [hs] at hmode
    exact .inl (modeNamed_plain (Option.isSome_iff_exists.2 ⟨_, hmode⟩))
  · exact .inr ⟨_, h.plugin.trans hs⟩
  · exact .inr ⟨_, h.plugin_opts.trans hs⟩

/-- The longest string that needs an escape would have to be read from the file. -/
theorem RoundTrip.plain {manager : ManagerCtx} {server : Server} {conf : Jconf} (hf : FlagBound server)
    (hread : read_jconf (configText manager server) = .ok conf) (h : RoundTrip manager server conf) :
    ∀ s ∈ configStrings manager server, Plain s := by
  by_contra hbad
  push Not at hbad
  obtain ⟨s₀, hs₀, hp₀⟩ := hbad
  let bads := ((configStrings manager server).filter fun s => ¬ Plain s).toFinset
  have hmem : ∀ s, s ∈ bads ↔ s ∈ configStrings manager server ∧ ¬ Plain s := fun s => by simp [bads]
  obtain ⟨s, hs, hmax⟩ := bads.exists_max_image List.length ⟨s₀, (hmem s₀).2 ⟨hs₀, hp₀⟩⟩
  obtain ⟨hs, hp⟩ := (hmem s).1 hs
  obtain ⟨k, hk⟩ := (h.text hs).resolve_left hp
  rcases texts_read_jconf hread hk with ⟨x, hx, rfl⟩ | ⟨n, rfl⟩
  · have hle : (cstr x).length ≤ x.length := (List.takeWhile_prefix _).length_le
    rcases quotedIn_config hf (fun t ht hpt => hmax t ((hmem t).2 ⟨ht, hpt⟩)) hx with hpx | hlt
    · rw [cstr_eq hpx] at hp
      exact hp hpx
    · omega
  · exact hp (plain_ofInt n)

/-- For every record of a command and every manager. -/
theorem round_trip_iff {manager : ManagerCtx} {obj : Option Json} {server : Server}
    (h : get_server obj = some server) :
    (∃ conf, read_jconf (configText manager server) = .ok conf ∧ RoundTrip manager server conf) ↔
      Printable manager server := by
  have hb := PortBound.of_get_server h
  have hf := FlagBound.of_get_server h
  constructor
  · rintro ⟨conf, hread, htrip⟩
    have hplain := htrip.plain hf hread
    have hlen : (configText manager server).length < MAX_CONF_SIZE := by
      unfold read_jconf at hread
      split_ifs at hread with hlen
      omega
    rw [read_jconf_config hb hf hplain hlen] at hread
    cases hread
    obtain ⟨hport, hmode, hplugin⟩ := roundTrip_readConf.1 htrip
    exact ⟨hport, hplain, hmode, hplugin, length_configText manager server hport ▸ hlen⟩
  · intro hp
    have hlen : (configText manager server).length < MAX_CONF_SIZE := by
      rw [length_configText manager server hp.port]
      exact hp.size
    exact ⟨_, read_jconf_config hb hf hp.plain hlen, roundTrip_readConf.2 ⟨hp.port, hp.mode, hp.plugin⟩⟩

theorem round_trip_iff_8388 : ∃ conf, read_jconf (configText plainManager (serverOf "8388".toList)) = .ok conf ∧
    RoundTrip plainManager (serverOf "8388".toList) conf :=
  ((@round_trip_iff _ (some (addOf (.num "8388".toList)))) (by decide +kernel)).2
    ⟨by decide +kernel, by decide +kernel, by decide +kernel, by decide +kernel, by decide +kernel⟩

/-- A record whose password has quotes in it, and sets the user of the child. -/
def quotedServer : Server := { serverOf "8388".toList with password := "x\",\"user\":\"root".toList }

theorem quote_sets_user : ∃ obj server, accepted obj server ∧
    ¬ ∃ conf, read_jconf (configText plainManager server) = .ok conf ∧ RoundTrip plainManager server conf := by
  refine ⟨some (.obj [("server_port".toList, .num "8388".toList), ("password".toList, .str quotedServer.password)]),
    quotedServer, ⟨by decide +kernel, by decide, by decide⟩, ?_⟩
  rintro ⟨conf, hread, h⟩
  have huser : (read_jconf (configText plainManager quotedServer)).toOption.bind
      (fun conf => conf.texts "user".toList) = some "root".toList := by decide +kernel
  rw [hread] at huser
  have hnone := h.no_text "user".toList (by decide)
  exact absurd (hnone.symm.trans huser) (by simp)

end OutlineServer.Servers
