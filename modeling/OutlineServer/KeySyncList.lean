import OutlineServer.KeySyncSpec
import OutlineServer.Lib.JsonQuotes

/-!
# What the manager's list says

The entries of `list` are printed without escapes. A table whose strings need none and which fits in one datagram
is printed as the JSON array of its servers (`parse_list`), so the client finds in it the ports of the table
(`listed_iff_registered`).
-/

namespace OutlineServer
open Prog Servers Decimal Json

namespace Servers

/-- The members of an entry. -/
def listMembers (manager : ManagerCtx) (server : Server) : List Text :=
  [quoted "server_port".toList ++ ':' :: quoted server.port, quoted "password".toList ++ ':' :: quoted server.password,
    quoted "method".toList ++ ':' :: quoted (listMethod manager server)]

/-- An entry without its comma. -/
def listItem (manager : ManagerCtx) (server : Server) : Text :=
  "\n\t".toList ++ ('\x7b' :: commaSep (listMembers manager server) ++ ['\x7d'])

def listJson (manager : ManagerCtx) (server : Server) : Json :=
  .obj [("server_port".toList, .str server.port), ("password".toList, .str server.password),
    ("method".toList, .str (listMethod manager server))]

theorem listEntry_eq (manager : ManagerCtx) (server : Server) :
    listEntry manager server = listItem manager server ++ [','] := by
  unfold listEntry listItem listMembers
  simp [commaSep, quoted]

theorem listLoop_single {manager : ManagerCtx} {table : List Server} {buf : Text}
    (h : (listLoop manager table buf).1 = []) :
    (listLoop manager table buf).2 = buf ++ table.flatMap (listEntry manager) := by
  induction table generalizing buf with
  | nil => simp [listLoop]
  | cons server table ih =>
    rw [listLoop] at h ⊢
    split at h
    · cases h
    · rename_i hfull
      rw [if_neg hfull, ih h, List.flatMap_cons, List.append_assoc]

theorem flatMap_listEntry {manager : ManagerCtx} {table : List Server} (hne : table ≠ []) :
    table.flatMap (listEntry manager) = commaSep (table.map (listItem manager)) ++ [','] := by
  rw [← flatMap_comma (by simpa using hne), List.flatMap_map]
  exact List.flatMap_congr fun server _ => listEntry_eq manager server

/-- The comma behind the last entry is overwritten. -/
theorem listEnd_entries {manager : ManagerCtx} {table : List Server} (hne : table ≠ []) (buf : Text) :
    listEnd (buf ++ table.flatMap (listEntry manager)) =
      buf ++ commaSep (table.map (listItem manager)) ++ (['\n'] ++ [']']) := by
  have hpos : 0 < (commaSep (table.map (listItem manager))).length := by
    obtain ⟨server, table, rfl⟩ := List.exists_cons_of_ne_nil hne
    cases table with
    | nil => simp [commaSep, listItem]
    | cons server' table =>
      rw [List.map_cons, commaSep_cons _ (by simp), List.length_append, List.length_cons]
      omega
  have hlen : max ((buf ++ (commaSep (table.map (listItem manager)) ++ [','])).length - 1) 1 =
      (buf ++ commaSep (table.map (listItem manager))).length := by
    simp only [List.length_append, List.length_singleton]
    omega
  rw [flatMap_listEntry hne, listEnd, hlen, ← List.append_assoc, List.take_left]
  rfl

/-- One datagram for the whole table. -/
theorem list_reply_single {manager : ManagerCtx} {table : List Server} {text : Text}
    (h : list_reply manager table = [text]) :
    text = '[' :: commaSep (table.map (listItem manager)) ++ (['\n'] ++ [']']) := by
  have hone : (listLoop manager table ['[']).1 = [] := by
    have hlen := congrArg List.length h
    simp only [list_reply, List.length_append, List.length_singleton] at hlen
    exact List.length_eq_zero_iff.1 (by omega)
  have htext : listEnd (['['] ++ table.flatMap (listEntry manager)) = text := by
    rw [list_reply, hone, listLoop_single hone] at h
    exact (List.cons.inj h).1
  rw [← htext]
  cases table with
  | nil => rfl
  | cons server table => exact listEnd_entries (by simp) ['[']

theorem spells_listItem {manager : ManagerCtx} {server : Server} (hport : Plain server.port)
    (hpassword : Plain server.password) (hmethod : Plain (listMethod manager server)) :
    Spells (listItem manager server) (listJson manager server) := by
  have hpair : ∀ {name s : Text}, Plain name → Plain s → SpellsPair (quoted name ++ ':' :: quoted s) (name, .str s) :=
    fun {name s} hname hs => ⟨[], name, quoted s, by simp [quoted], blank_nil, hname.quotes, hs.spells⟩
  refine Spells.blank (by simp [Blank, isWs]) (Spells.obj_blank (b := []) ?_ blank_nil)
  exact .cons (hpair (by decide) hport) (.cons (hpair (by decide) hpassword) (.cons (hpair (by decide) hmethod) .nil))

/-- The array of a table whose strings need no escapes. -/
theorem parse_listText {manager : ManagerCtx} {table : List Server}
    (hplain : ∀ server ∈ table, Plain server.port ∧ Plain server.password ∧ Plain (listMethod manager server)) :
    parse ('[' :: commaSep (table.map (listItem manager)) ++ (['\n'] ++ [']'])) =
      some (.arr (table.map (listJson manager))) := by
  have hitems : List.Forall₂ Spells (table.map (listItem manager)) (table.map (listJson manager)) := by
    refine List.forall₂_map_left_iff.2 (List.forall₂_map_right_iff.2 (List.forall₂_same.2 fun server hs => ?_))
    obtain ⟨hport, hpassword, hmethod⟩ := hplain server hs
    exact spells_listItem hport hpassword hmethod
  have hheads : ∀ w ∈ table.map (listItem manager), ∃ c t, skipWs w = c :: t ∧ c ≠ ']' := by
    intro w hw
    obtain ⟨server, -, rfl⟩ := List.mem_map.1 hw
    exact ⟨'\x7b', _, rfl, by decide⟩
  have harr := Spells.arr_blank hitems hheads (b := ['\n']) (by simp [Blank, isWs])
  have hparse := parse_of_spells harr (r := []) rfl (by simp [Stops])
  rw [← hparse, List.append_nil]

end Servers

/-- The strings of the table can be printed as they are, and the ports are decimals. -/
structure PlainServer (manager : ManagerCtx) (server : Server) : Prop where
  port : Canonical server.port
  password : Plain server.password
  method : Plain (listMethod manager server)

section
variable {manager : ManagerCtx} {table : List Server} {text : Text}

theorem parse_list (h : list_reply manager table = [text]) (hplain : ∀ server ∈ table, PlainServer manager server) :
    parse text = some (.arr (table.map (listJson manager))) := by
  rw [list_reply_single h]
  refine parse_listText fun server hs => ?_
  have hp := hplain server hs
  exact ⟨hp.port ▸ plain_ofInt _, hp.password, hp.method⟩

theorem loads_of_parse {v : Json} (h : parse text = some v) : ∃ wf, loads text = .ok ⟨v, wf⟩ := by
  refine ⟨parse_wellFormed h, ?_⟩
  unfold loads
  split
  · rename_i v' h'
    rw [h] at h'
    cases h'
    rfl
  · rename_i h'
    rw [h] at h'
    cases h'

variable {py : Python} (hint : ∀ n, py.int (.str (ofInt n)) = some n)
include hint

theorem itemPort_list {server : Server} (hport : Canonical server.port) (h : (listJson manager server).WellFormed) :
    itemPort py ⟨listJson manager server, h⟩ = .ok (some (atoi server.port)) := by
  have hne : server.port ≠ [] := hport ▸ ofInt_ne_nil _
  have hget : (Dict.ofList (Value.membersOf [("server_port".toList, .str server.port),
      ("password".toList, .str server.password), ("method".toList, .str (listMethod manager server))] h)).get?
      "server_port".toList = some (.str server.port) := by
    simp only [Value.membersOf, Dict.ofList, List.foldl_cons, List.foldl_nil, Dict.get?_set]
    rfl
  have hread : py.int (.str server.port) = some (atoi server.port) := by
    have hn := hint (atoi server.port)
    rwa [hport] at hn
  have htruthy : (Value.str server.port).truthy = true := by simp [Value.truthy, Value.str, hne]
  have hnone : (Value.str server.port).isNone = false := rfl
  unfold itemPort listJson Value.asDict
  simp only [Bind.bind, Except.bind, hget, htruthy, hnone, hread, if_true, Bool.false_eq_true, if_false]
  rfl

theorem collectPorts_list (hport : ∀ server ∈ table, Canonical server.port)
    (h : WellFormedItems (table.map (listJson manager))) :
    collectPorts py (Value.elementsOf (table.map (listJson manager)) h) = table.map fun server => atoi server.port := by
  induction table with
  | nil => rfl
  | cons server table ih =>
    obtain ⟨hserver, htable⟩ := List.forall_mem_cons.1 hport
    simp only [List.map_cons, Value.elementsOf, collectPorts, itemPort_list hint hserver h.1, ih htable h.2]

/-- A list in one datagram names the ports of the table. -/
theorem listed_iff_registered (hone : list_reply manager table = [text])
    (hplain : ∀ server ∈ table, PlainServer manager server) {port : Int} (h0 : 0 ≤ port)
    (h7 : (ofInt port).length ≤ 7) (hbig : port < 2 ^ 64) :
    Listed py (listReply manager (fun _ _ => true) table) port ↔ Registered table port := by
  obtain ⟨wf, hloads⟩ := loads_of_parse (parse_list hone hplain)
  have hkey : snprintfPort port = ofInt port := by
    rw [snprintfPort, Int.emod_eq_of_lt h0 hbig, List.take_of_length_le h7]
  have hports : listedPorts py (listReply manager (fun _ _ => true) table) =
      table.map fun server => atoi server.port := by
    simp only [listReply, hone, sent_all, List.head?_cons, listedPorts, hloads]
    exact collectPorts_list hint (fun server hs => (hplain server hs).port) wf
  rw [← mem_listedPorts, hports, Registered, hkey, List.mem_map, List.mem_map]
  constructor
  · rintro ⟨server, hs, rfl⟩
    exact ⟨server, hs, ((hplain server hs).port).symm⟩
  · rintro ⟨server, hs, heq⟩
    refine ⟨server, hs, ?_⟩
    rw [heq, atoi_ofInt]

end

end OutlineServer
