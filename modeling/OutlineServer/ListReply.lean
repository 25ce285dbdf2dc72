import Mathlib.Data.List.Flatten
import OutlineServer.KeySyncList
import OutlineServer.Lib.JsonArrays
import OutlineServer.ServerNames

/-!
# The reply to `list` (`manager_recv_cb` of `manager.c`)

`list_reply_in` is `list_reply` with the bounds of its buffer. The allowance of fifty characters is enough for the
constant text of an entry, but `BUF_SIZE - entry_len - 50` wraps for an entry of more than 65,485 characters, and then
nothing keeps it from the end of the buffer. While there is none, and no `sendto` fails, the datagrams together are the
JSON array of the table (`list_reply_iff`). The strings of a command are much shorter, the method of the manager itself
need not be; and a datagram may have up to 65,534 characters, which is more than UDP takes.
-/

namespace OutlineServer.Servers
open Json

/-- `sprintf(buf + pos, ..)` or `strcpy`; `none` if it writes beyond the buffer. -/
def writeIn (buf : Text) (pos : Nat) (s : Text) : Option Text :=
  if pos + s.length + 1 ≤ BUF_SIZE then some (buf.take pos ++ s) else none

def listLoopIn (manager : ManagerCtx) : List Server → Text → Option (List Text × Text)
  | [], buf => some ([], buf)
  | server :: table, buf =>
    if listFull manager server buf.length then
      (writeIn [] 0 (listEntry manager server)).bind fun next =>
        (listLoopIn manager table next).map fun r => (buf :: r.1, r.2)
    else (writeIn buf buf.length (listEntry manager server)).bind (listLoopIn manager table)

def list_reply_in (manager : ManagerCtx) (table : List Server) : Option (List Text) :=
  (listLoopIn manager table ['[']).bind fun r =>
    (writeIn r.2 (max (r.2.length - 1) 1) "\n]".toList).map fun last => r.1 ++ [last]

/-- Nothing is written beyond the buffer, and the datagrams that are sent are together the array of the table. -/
def ListsAll (manager : ManagerCtx) (sendto : Nat → Nat → Bool) (table : List Server) : Prop :=
  ∃ texts, list_reply_in manager table = some texts ∧
    parse (sent sendto 0 texts).flatten = some (.arr (table.map (listJson manager)))

/-- No entry is longer than the threshold allows; behind the bracket there is room for one more character if another
entry sends it off. -/
def ListFits (manager : ManagerCtx) (table : List Server) : Prop :=
  (∀ server ∈ table, entryLen manager server ≤ 65485) ∨
    ∃ first second rest, table = first :: second :: rest ∧ entryLen manager first = 65486 ∧
      ∀ server ∈ second :: rest, entryLen manager server ≤ 65485

/-- No `sendto` fails from the `k`-th on, with `pos` characters in the buffer and entries of these lengths to come. -/
def Sends (sendto : Nat → Nat → Bool) : Nat → Nat → List Nat → Prop
  | k, pos, [] => sendto k (max (pos - 1) 1 + 2) = true
  | k, pos, len :: lens =>
    if lenFull len pos then sendto k pos = true ∧ Sends sendto (k + 1) (len + 47) lens
    else Sends sendto k (pos + len + 47) lens

/-- The strings are printed as they are. -/
structure PlainStrings (manager : ManagerCtx) (server : Server) : Prop where
  port : Plain server.port
  password : Plain server.password
  method : Plain (listMethod manager server)

variable {manager : ManagerCtx} {server : Server} {table : List Server} {buf s t : Text} {texts : List Text} {pos : Nat}
  {r : List Text × Text} {sendto : Nat → Nat → Bool}

theorem writeIn_eq_some : writeIn buf pos s = some t ↔ pos + s.length + 1 ≤ BUF_SIZE ∧ t = buf.take pos ++ s := by
  unfold writeIn
  split
  · rename_i hfits
    rw [Option.some.injEq, and_iff_right hfits, eq_comm]
  · rename_i hfits
    exact ⟨nofun, fun h => absurd h.1 hfits⟩

/-- Without a write beyond it, the buffer holds what `list_reply` says. -/
theorem listLoopIn_eq (h : listLoopIn manager table buf = some r) : r = listLoop manager table buf := by
  induction table generalizing buf r with
  | nil =>
    cases h
    rfl
  | cons server table ih =>
    rw [listLoopIn] at h
    rw [listLoop]
    split at h
    · rename_i hfull
      obtain ⟨next, hnext, h⟩ := Option.bind_eq_some_iff.1 h
      obtain ⟨r', hr', rfl⟩ := Option.map_eq_some_iff.1 h
      obtain ⟨-, rfl⟩ := writeIn_eq_some.1 hnext
      rw [if_pos hfull, ih hr']
      rfl
    · rename_i hfull
      obtain ⟨next, hnext, h⟩ := Option.bind_eq_some_iff.1 h
      obtain ⟨-, rfl⟩ := writeIn_eq_some.1 hnext
      rw [if_neg hfull, ih h, List.take_length]

theorem list_reply_in_eq (h : list_reply_in manager table = some texts) : texts = list_reply manager table := by
  obtain ⟨r, hr, h⟩ := Option.bind_eq_some_iff.1 h
  obtain ⟨last, hlast, rfl⟩ := Option.map_eq_some_iff.1 h
  obtain ⟨-, rfl⟩ := writeIn_eq_some.1 hlast
  rw [list_reply, ← listLoopIn_eq hr]
  rfl

/-! ### Entries that fit -/

/-- The loop over entries that fit; what is handed on and what is left are together what was there and the entries. -/
theorem listLoopIn_fits (h : ∀ server ∈ table, entryLen manager server ≤ 65485) (buf : Text) :
    ∃ r, listLoopIn manager table buf = some r ∧ r.1.flatten ++ r.2 = buf ++ table.flatMap (listEntry manager) ∧
      (table ≠ [] → r.2.length ≤ 65532 ∧ ∃ t, r.2 = t ++ [','] ∧ t ≠ []) := by
  induction table generalizing buf with
  | nil => exact ⟨([], buf), rfl, by simp, fun hne => absurd rfl hne⟩
  | cons server table ih =>
    obtain ⟨hserver, htable⟩ := List.forall_mem_cons.1 h
    have hlen := length_listEntry manager server
    have hbuf : BUF_SIZE = 65535 := rfl
    -- the buffer after the entry
    have hnext : ∃ texts next, listLoopIn manager (server :: table) buf =
          ((listLoopIn manager table next).map fun r => (texts ++ r.1, r.2)) ∧
        texts.flatten ++ next = buf ++ listEntry manager server ∧ next.length ≤ 65532 ∧
          ∃ t, next = t ++ listEntry manager server := by
      rw [listLoopIn]
      split
      · refine ⟨[buf], listEntry manager server, ?_, by simp, by omega, [], rfl⟩
        have hw : writeIn [] 0 (listEntry manager server) = some (listEntry manager server) :=
          writeIn_eq_some.2 ⟨by omega, rfl⟩
        rw [hw]
        rfl
      · rename_i hfull
        rw [listFull_iff] at hfull
        refine ⟨[], buf ++ listEntry manager server, ?_, by simp, ?_, buf, rfl⟩
        · have hw : writeIn buf buf.length (listEntry manager server) = some (buf ++ listEntry manager server) :=
            writeIn_eq_some.2 ⟨by omega, by rw [List.take_length]⟩
          rw [hw, Option.bind_some]
          cases listLoopIn manager table (buf ++ listEntry manager server) <;> rfl
        · rw [List.length_append]
          omega
    obtain ⟨texts, next, hloop, hflat, hnextLen, t, ht⟩ := hnext
    obtain ⟨r, hr, hrflat, hrlen⟩ := ih htable next
    refine ⟨(texts ++ r.1, r.2), ?_, ?_, fun _ => ?_⟩
    · rw [hloop, hr]
      rfl
    · rw [List.flatten_append, List.append_assoc, hrflat, ← List.append_assoc, hflat, List.flatMap_cons,
        List.append_assoc]
    · cases table with
      | nil =>
        cases hr
        refine ⟨hnextLen, t ++ listItem manager server, ?_, by simp [listItem]⟩
        rw [ht, listEntry_eq, List.append_assoc]
      | cons server' table => exact hrlen (by simp)

/-- From the second character on, an entry that does not fit goes beyond the buffer. -/
theorem listLoopIn_overflows (h : ∃ server ∈ table, 65485 < entryLen manager server) (hbuf : 2 ≤ buf.length) :
    listLoopIn manager table buf = none := by
  induction table generalizing buf with
  | nil =>
    obtain ⟨server, hserver, -⟩ := h
    cases hserver
  | cons server table ih =>
    have hlen := length_listEntry manager server
    have hsize : BUF_SIZE = 65535 := rfl
    rw [listLoopIn]
    by_cases hserver : 65485 < entryLen manager server
    · rw [if_neg (by rw [listFull_iff]; omega), writeIn, if_neg (by omega), Option.bind_none]
    · have htable : ∃ server ∈ table, 65485 < entryLen manager server := by
        obtain ⟨server', hmem, hlong⟩ := h
        rcases List.mem_cons.1 hmem with rfl | hmem
        · exact absurd hlong hserver
        · exact ⟨server', hmem, hlong⟩
      split
      · cases hw : writeIn [] 0 (listEntry manager server) with
        | none => rfl
        | some next =>
          obtain ⟨-, rfl⟩ := writeIn_eq_some.1 hw
          rw [Option.bind_some, ih htable (by simp only [List.take_nil, List.nil_append]; omega), Option.map_none]
      · cases hw : writeIn buf buf.length (listEntry manager server) with
        | none => rfl
        | some next =>
          obtain ⟨-, rfl⟩ := writeIn_eq_some.1 hw
          rw [Option.bind_some, ih htable (by rw [List.length_append, List.take_length]; omega)]

/-! ### The reply -/

/-- What is handed to `sendto`, once the loop has come to its end with room for the end of the array. -/
theorem list_reply_in_ok (hloop : listLoopIn manager table ['['] = some r)
    (hflat : r.1.flatten ++ r.2 = ['['] ++ table.flatMap (listEntry manager)) (hlen : r.2.length ≤ 65533)
    (hcomma : ∃ t, r.2 = t ++ [','] ∧ t ≠ []) (hne : table ≠ []) :
    ∃ texts, list_reply_in manager table = some texts ∧
      texts.flatten = '[' :: commaSep (table.map (listItem manager)) ++ (['\n'] ++ [']']) := by
  obtain ⟨t, ht, htne⟩ := hcomma
  have hpos := List.length_pos_iff.2 htne
  have hsize : BUF_SIZE = 65535 := rfl
  have hlen' : t.length + 1 = r.2.length := by rw [ht, List.length_append, List.length_singleton]
  have hend : "\n]".toList.length = 2 := rfl
  have hmax : max (r.2.length - 1) 1 = t.length := by omega
  have hwrite : writeIn r.2 (max (r.2.length - 1) 1) "\n]".toList = some (t ++ "\n]".toList) := by
    rw [writeIn_eq_some, hmax, ht, List.take_left]
    exact ⟨by omega, rfl⟩
  refine ⟨r.1 ++ [t ++ "\n]".toList], ?_, ?_⟩
  · rw [list_reply_in, hloop, Option.bind_some, hwrite]
    rfl
  · have hitems : table.flatMap (listEntry manager) = commaSep (table.map (listItem manager)) ++ [','] := by
      rw [← flatMap_comma (by simpa using hne), List.flatMap_map]
      exact List.flatMap_congr fun server _ => listEntry_eq manager server
    rw [ht, hitems, ← List.append_assoc, ← List.append_assoc] at hflat
    have hinit := List.append_cancel_right hflat
    rw [List.flatten_append, List.flatten_singleton, ← List.append_assoc, hinit]
    rfl

/-- The text that the datagrams are together. -/
theorem list_reply_in_fits (h : ListFits manager table) :
    ∃ texts, list_reply_in manager table = some texts ∧
      texts.flatten = '[' :: commaSep (table.map (listItem manager)) ++ (['\n'] ++ [']']) := by
  rcases h with h | ⟨first, second, rest, rfl, hfirst, hrest⟩
  · cases table with
    | nil => exact ⟨_, rfl, rfl⟩
    | cons server table =>
      obtain ⟨r, hr, hflat, hend⟩ := listLoopIn_fits h ['[']
      obtain ⟨hlen, hcomma⟩ := hend (by simp)
      exact list_reply_in_ok hr hflat (by omega) hcomma (by simp)
  · have hlen := length_listEntry manager first
    have hsize : BUF_SIZE = 65535 := rfl
    obtain ⟨r, hr, hflat, hend⟩ := listLoopIn_fits hrest (['['] ++ listEntry manager first)
    obtain ⟨hrlen, hcomma⟩ := hend (by simp)
    have hloop : listLoopIn manager (first :: second :: rest) ['['] = some r := by
      have hwrite : writeIn ['['] 1 (listEntry manager first) = some (['['] ++ listEntry manager first) :=
        writeIn_eq_some.2 ⟨by omega, rfl⟩
      rw [listLoopIn, if_neg (by rw [listFull_iff]; omega), List.length_singleton, hwrite, Option.bind_some]
      exact hr
    refine list_reply_in_ok hloop ?_ (by omega) hcomma (by simp)
    rw [hflat, List.append_assoc, ← List.flatMap_cons]

theorem list_reply_in_overflows (h : ¬ ListFits manager table) : list_reply_in manager table = none := by
  cases table with
  | nil => exact absurd (.inl (by simp)) h
  | cons first rest =>
    have hlen := length_listEntry manager first
    have hsize : BUF_SIZE = 65535 := rfl
    by_cases hrest : ∃ server ∈ rest, 65485 < entryLen manager server
    · have hnone : listLoopIn manager (first :: rest) ['['] = none := by
        rw [listLoopIn]
        split
        · cases hw : writeIn [] 0 (listEntry manager first) with
          | none => rfl
          | some next =>
            obtain ⟨-, rfl⟩ := writeIn_eq_some.1 hw
            rw [Option.bind_some, listLoopIn_overflows hrest (by simp only [List.take_nil, List.nil_append]; omega),
              Option.map_none]
        · cases hw : writeIn ['['] 1 (listEntry manager first) with
          | none => rfl
          | some next =>
            obtain ⟨-, rfl⟩ := writeIn_eq_some.1 hw
            rw [Option.bind_some, listLoopIn_overflows hrest]
            rw [List.length_append, hlen]
            omega
      rw [list_reply_in, hnone, Option.bind_none]
    · have hfits : ∀ server ∈ rest, entryLen manager server ≤ 65485 := fun server hs =>
        Nat.not_lt.1 fun hlong => hrest ⟨server, hs, hlong⟩
      have hfirst : 65485 < entryLen manager first :=
        Nat.not_le.1 fun hle => h (.inl (List.forall_mem_cons.2 ⟨hle, hfits⟩))
      have hfull : ¬ listFull manager first ['['].length = true := by
        rw [listFull_iff]
        omega
      rw [list_reply_in, listLoopIn, if_neg hfull, List.length_singleton]
      by_cases hone : entryLen manager first = 65486
      · have hnil : rest = [] := by
          cases rest with
          | nil => rfl
          | cons second rest => exact absurd (.inr ⟨first, second, rest, rfl, hone, hfits⟩) h
        subst hnil
        cases hw : writeIn ['['] 1 (listEntry manager first) with
        | none => rfl
        | some next =>
          obtain ⟨-, rfl⟩ := writeIn_eq_some.1 hw
          have hend : "\n]".toList.length = 2 := rfl
          have hnext : (['['].take 1 ++ listEntry manager first).length = 65534 := by
            rw [List.length_append, hlen, hone]
            rfl
          rw [Option.bind_some, listLoopIn, Option.bind_some]
          dsimp only
          rw [hnext, writeIn, if_neg (by omega), Option.map_none]
      · rw [writeIn, if_neg (by omega), Option.bind_none, Option.bind_none]

/-! ### What is sent -/

theorem sent_sublist (texts : List Text) (k : Nat) : (sent sendto k texts).Sublist texts := by
  induction texts generalizing k with
  | nil => exact .slnil
  | cons text texts ih =>
    rw [sent]
    split
    · exact (ih (k + 1)).cons_cons text
    · exact (ih (k + 1)).cons text

/-- The first text has been sent, and all others, if nothing is missing. -/
theorem sent_cons {k : Nat} :
    sent sendto k (t :: texts) = t :: texts ↔ sendto k t.length = true ∧ sent sendto (k + 1) texts = texts := by
  rw [sent]
  split
  · rename_i hsent
    simp [hsent]
  · rename_i hsent
    refine iff_of_false (fun h => ?_) fun h => hsent h.1
    have hsub : (sent sendto (k + 1) texts).Sublist texts := sent_sublist texts (k + 1)
    have hle := hsub.length_le
    rw [h, List.length_cons] at hle
    omega

theorem length_listEnd (hne : buf ≠ []) : (listEnd buf).length = max (buf.length - 1) 1 + 2 := by
  have hpos := List.length_pos_iff.2 hne
  have hend : "\n]".toList.length = 2 := rfl
  rw [listEnd, List.length_append, List.length_take, hend]
  omega

/-- Nothing is missing just if no `sendto` fails. -/
theorem sends_iff (hne : buf ≠ []) (k : Nat) : Sends sendto k buf.length (table.map (entryLen manager)) ↔
    sent sendto k ((listLoop manager table buf).1 ++ [listEnd (listLoop manager table buf).2]) =
      (listLoop manager table buf).1 ++ [listEnd (listLoop manager table buf).2] := by
  induction table generalizing buf k with
  | nil =>
    rw [listLoop, List.nil_append, sent_cons, length_listEnd hne]
    exact (and_iff_left rfl).symm
  | cons server table ih =>
    have hentry := length_listEntry manager server
    rw [List.map_cons, Sends, ← listFull, listLoop]
    by_cases hfull : listFull manager server buf.length = true
    · have hnext : listEntry manager server ≠ [] := List.ne_nil_of_length_pos (by omega)
      rw [if_pos hfull, if_pos hfull]
      dsimp only
      rw [List.cons_append, sent_cons, ← ih hnext, hentry]
    · have hnext : buf ++ listEntry manager server ≠ [] := by simp [hne]
      rw [if_neg hfull, if_neg hfull, ← ih hnext, List.length_append, hentry, Nat.add_assoc]

/-- Entries that leave the buffer room for another three characters are one datagram. -/
theorem sends_one {lens : List Nat} (k : Nat) (h : pos + (lens.map (· + 47)).sum + 3 ≤ BUF_SIZE) :
    Sends sendto k pos lens ↔ sendto k (max (pos + (lens.map (· + 47)).sum - 1) 1 + 2) = true := by
  induction lens generalizing pos with
  | nil => rfl
  | cons len lens ih =>
    rw [List.map_cons, List.sum_cons] at h ⊢
    rw [Sends, if_neg (by rw [lenFull_iff]; omega), ih (by omega), Nat.add_assoc pos, Nat.add_assoc pos]

/-- What the loop hands to `sendto` and what it leaves, as parts of the table. -/
inductive Parts (manager : ManagerCtx) (table : List Server) (buf : Text) : List Text × Text → Prop
  | one : Parts manager table buf ([], buf ++ table.flatMap (listEntry manager))
  | more (first : List Server) (mids : List (List Server)) (last : List Server) (hmids : ∀ mid ∈ mids, mid ≠ [])
      (hlast : last ≠ []) (htable : table = first ++ (mids.flatten ++ last)) :
      Parts manager table buf ((buf ++ first.flatMap (listEntry manager)) ::
        mids.map (·.flatMap (listEntry manager)), last.flatMap (listEntry manager))

theorem parts (manager : ManagerCtx) (table : List Server) (buf : Text) :
    Parts manager table buf (listLoop manager table buf) := by
  induction table generalizing buf with
  | nil =>
    have hone : Parts manager [] buf ([], buf ++ [].flatMap (listEntry manager)) := .one
    rwa [List.flatMap_nil, List.append_nil] at hone
  | cons server table ih =>
    rw [listLoop]
    split
    · have hloop := ih (listEntry manager server)
      generalize listLoop manager table (listEntry manager server) = r at hloop
      cases hloop with
      | one =>
        have hmore := @Parts.more manager _ buf [] [] (server :: table) (by simp) (by simp) rfl
        rwa [List.flatMap_nil, List.append_nil, List.map_nil, List.flatMap_cons] at hmore
      | more first mids last hmids hlast htable =>
        subst htable
        have hmore := @Parts.more manager _ buf [] ((server :: first) :: mids) last
          (List.forall_mem_cons.2 ⟨by simp, hmids⟩) hlast rfl
        rwa [List.flatMap_nil, List.append_nil, List.map_cons, List.flatMap_cons, List.flatten_cons, List.nil_append,
          List.append_assoc, List.cons_append] at hmore
    · have hloop := ih (buf ++ listEntry manager server)
      generalize listLoop manager table (buf ++ listEntry manager server) = r at hloop
      cases hloop with
      | one =>
        have hone : Parts manager (server :: table) buf ([], buf ++ (server :: table).flatMap (listEntry manager)) :=
          .one
        rwa [List.flatMap_cons, ← List.append_assoc] at hone
      | more first mids last hmids hlast htable =>
        subst htable
        have hmore := @Parts.more manager _ buf (server :: first) mids last hmids hlast rfl
        rwa [List.flatMap_cons, ← List.append_assoc buf, List.cons_append] at hmore

theorem spells_items (hplain : ∀ server ∈ table, PlainStrings manager server) :
    List.Forall₂ Spells (table.map (listItem manager)) (table.map (listJson manager)) := by
  refine List.forall₂_map_left_iff.2 (List.forall₂_map_right_iff.2 (List.forall₂_same.2 fun server hs => ?_))
  exact spells_listItem (hplain server hs).port (hplain server hs).password (hplain server hs).method

theorem skipWs_items (hne : table ≠ []) (s : Text) :
    ∃ t, skipWs (commaSep (table.map (listItem manager)) ++ s) = '\x7b' :: t := by
  obtain ⟨server, table, rfl⟩ := List.exists_cons_of_ne_nil hne
  cases table with
  | nil => exact ⟨_, rfl⟩
  | cons server' table => exact ⟨_, rfl⟩

/-- Entries without the bracket before them are no array. -/
theorem parse_without_bracket (hne : table ≠ []) (s : Text) {vs : List Json} :
    parse (commaSep (table.map (listItem manager)) ++ s) ≠ some (.arr vs) := by
  intro h
  rw [parse] at h
  split at h
  · rename_i v r hv
    split at h
    · cases h
      obtain ⟨ps, hps⟩ := (value_brace hv).2 (skipWs_items hne s)
      cases hps
    · cases h
  · cases h

/-- Nor are entries with no bracket behind them. -/
theorem parse_without_end (hplain : ∀ server ∈ table, PlainStrings manager server) {vs : List Json} :
    parse ('[' :: table.flatMap (listEntry manager)) ≠ some (.arr vs) := by
  intro h
  by_cases hne : table = []
  · subst hne
    cases h
  rw [flatMap_listEntry hne] at h
  obtain ⟨t, ht⟩ := @skipWs_items manager _ hne [',']
  obtain ⟨r, hr⟩ := elements_of_parse_arr (by decide) ht h
  rw [elements_trailing (spells_items hplain) (by simpa using hne) ?_ elements_nil] at hr
  · cases hr
  · simp only [List.length_cons, List.length_append, List.length_nil]
    omega

theorem flatten_parts (mids : List (List Server)) :
    (mids.map (·.flatMap (listEntry manager))).flatten = mids.flatten.flatMap (listEntry manager) := by
  induction mids with
  | nil => rfl
  | cons mid mids ih => rw [List.map_cons, List.flatten_cons, ih, List.flatten_cons, List.flatMap_append]

/-- Entries, and more of them without the last comma. -/
theorem entries_append (front : List Server) {last : List Server} (hlast : last ≠ []) :
    front.flatMap (listEntry manager) ++ commaSep (last.map (listItem manager)) =
      commaSep ((front ++ last).map (listItem manager)) := by
  refine @List.append_cancel_right _ _ [','] _ ?_
  rw [List.append_assoc, ← flatMap_listEntry hlast, ← List.flatMap_append, flatMap_listEntry (by simp [hlast])]

/-- Parts that have as many servers together are all there. -/
theorem eq_of_flatten_length {mids mids' : List (List Server)} (h : mids'.Sublist mids) (hmids : ∀ mid ∈ mids, mid ≠ [])
    (hlen : mids'.flatten.length = mids.flatten.length) : mids' = mids := by
  induction h with
  | slnil => rfl
  | @cons mids' mids mid h ih =>
    have hle := (List.Sublist.flatten h).length_le
    have hpos := List.length_pos_iff.2 (hmids mid List.mem_cons_self)
    rw [List.flatten_cons, List.length_append] at hlen
    omega
  | @cons_cons mids' mids mid h ih =>
    rw [List.flatten_cons, List.flatten_cons, List.length_append, List.length_append] at hlen
    rw [ih (fun mid' hm => hmids mid' (List.mem_cons_of_mem _ hm)) (by omega)]

/-- The array is in all that is handed to `sendto`, and in no less. -/
theorem eq_of_parse (hplain : ∀ server ∈ table, PlainStrings manager server)
    (hsub : texts.Sublist (list_reply manager table))
    (h : parse texts.flatten = some (.arr (table.map (listJson manager)))) : texts = list_reply manager table := by
  have hparts := parts manager table ['[']
  unfold list_reply at hsub ⊢
  generalize listLoop manager table ['['] = r at hparts hsub ⊢
  cases hparts with
  | one =>
    rcases List.sublist_cons_iff.1 hsub with hnil | ⟨rest, rfl, hrest⟩
    · rw [List.sublist_nil.1 hnil] at h
      cases h
    · rw [List.sublist_nil.1 hrest]
      rfl
  | more first mids last hmids hlast htable =>
    obtain ⟨front, back, rfl, hfront, hback⟩ := List.sublist_append_iff.1 hsub
    have hend : listEnd (last.flatMap (listEntry manager)) =
        commaSep (last.map (listItem manager)) ++ (['\n'] ++ [']']) :=
      listEnd_entries hlast []
    rw [List.flatten_append] at h
    -- whether the last datagram is there, and the first
    rcases List.sublist_cons_iff.1 hback with hnil | ⟨rest, rfl, hrest⟩
    · rw [List.sublist_nil.1 hnil, List.flatten_nil, List.append_nil] at h
      rcases List.sublist_cons_iff.1 hfront with hmid | ⟨front, rfl, hmid⟩
      · obtain ⟨mids', -, rfl⟩ := List.sublist_map_iff.1 hmid
        rw [flatten_parts] at h
        by_cases hne : mids'.flatten = []
        · rw [hne] at h
          cases h
        · rw [flatMap_listEntry hne] at h
          exact absurd h (parse_without_bracket hne _)
      · obtain ⟨mids', hmids', rfl⟩ := List.sublist_map_iff.1 hmid
        rw [List.flatten_cons, flatten_parts, List.append_assoc, ← List.flatMap_append] at h
        refine absurd h (parse_without_end fun server hs => hplain server ?_)
        rw [htable]
        rcases List.mem_append.1 hs with hs | hs
        · exact List.mem_append_left _ hs
        · exact List.mem_append_right _ (List.mem_append_left _ ((List.Sublist.flatten hmids').subset hs))
    · rw [List.sublist_nil.1 hrest, List.flatten_singleton, hend] at h
      rcases List.sublist_cons_iff.1 hfront with hmid | ⟨front, rfl, hmid⟩
      · obtain ⟨mids', -, rfl⟩ := List.sublist_map_iff.1 hmid
        rw [flatten_parts, ← List.append_assoc, entries_append _ hlast] at h
        exact absurd h (parse_without_bracket (by simp [hlast]) _)
      · obtain ⟨mids', hmids', rfl⟩ := List.sublist_map_iff.1 hmid
        have htext :
            (((['['] ++ first.flatMap (listEntry manager)) :: mids'.map (·.flatMap (listEntry manager))).flatten ++
            (commaSep (last.map (listItem manager)) ++ (['\n'] ++ [']']))) =
            '[' :: commaSep ((first ++ (mids'.flatten ++ last)).map (listItem manager)) ++ (['\n'] ++ [']']) := by
          rw [← entries_append first (by simp [hlast]), ← entries_append mids'.flatten hlast, List.flatten_cons,
            flatten_parts]
          simp only [List.append_assoc, List.cons_append, List.nil_append]
        rw [htext, parse_listText] at h
        · have hlen := congrArg List.length (Json.arr.inj (Option.some.inj h))
          rw [htable] at hlen
          simp only [List.length_map, List.length_append] at hlen
          rw [eq_of_flatten_length hmids' hmids (by omega), List.sublist_nil.1 hrest]
        · intro server hs
          have hmem : server ∈ table := by
            rw [htable]
            rcases List.mem_append.1 hs with hs | hs
            · exact List.mem_append_left _ hs
            · refine List.mem_append_right _ ?_
              rcases List.mem_append.1 hs with hs | hs
              · exact List.mem_append_left _ ((List.Sublist.flatten hmids').subset hs)
              · exact List.mem_append_right _ hs
          exact ⟨(hplain server hmem).port, (hplain server hmem).password, (hplain server hmem).method⟩

/-- The reply is the array of the table, without a write beyond the buffer, just if the entries fit and no datagram is
refused. -/
theorem list_reply_iff (hplain : ∀ server ∈ table, PlainStrings manager server) :
    ListsAll manager sendto table ↔ ListFits manager table ∧ Sends sendto 0 1 (table.map (entryLen manager)) := by
  have hsends := @sends_iff manager table ['['] sendto (List.cons_ne_nil '[' []) 0
  constructor
  · rintro ⟨texts, htexts, hparse⟩
    have hfits : ListFits manager table := by
      by_contra h
      rw [list_reply_in_overflows h] at htexts
      cases htexts
    rw [list_reply_in_eq htexts] at hparse
    exact ⟨hfits, hsends.2 (eq_of_parse hplain (sent_sublist _ 0) hparse)⟩
  · rintro ⟨hfits, hsent⟩
    obtain ⟨texts, htexts, hflat⟩ := list_reply_in_fits hfits
    have hall : sent sendto 0 texts = texts := by
      rw [list_reply_in_eq htexts]
      exact hsends.1 hsent
    refine ⟨texts, htexts, ?_⟩
    rw [hall, hflat]
    exact parse_listText fun server hs => ⟨(hplain server hs).port, (hplain server hs).password,
      (hplain server hs).method⟩

/-- The record of a command without a method. -/
def listServer (port : Text) : Server := { Server.zero with port, password := ['x'] }

theorem entryLen_listServer {method : Text} (hmethod : manager.method = some method) (port : Text) :
    entryLen manager (listServer port) = port.length + 1 + method.length := by
  unfold entryLen listMethod
  rw [hmethod]
  rfl

/-- `sendto` on a UDP socket -/
def udpSendto (_ n : Nat) : Bool := n ≤ 65507

theorem list_reply_iff_two : ListsAll plainManager udpSendto [listServer "8388".toList, listServer "8389".toList] := by
  have hlen : [listServer "8388".toList, listServer "8389".toList].map (entryLen plainManager) = [10, 10] := rfl
  refine (list_reply_iff (List.forall_mem_cons.2 ⟨?_, List.forall_mem_singleton.2 ?_⟩)).2
    ⟨.inl (List.forall_mem_cons.2 ⟨?_, List.forall_mem_singleton.2 ?_⟩), ?_⟩
  · exact ⟨by decide, by decide, by decide⟩
  · exact ⟨by decide, by decide, by decide⟩
  · rw [entryLen_listServer rfl]
    decide
  · rw [entryLen_listServer rfl]
    decide
  · rw [hlen, sends_one 0 (by decide)]
    decide

/-- A manager whose own method is longer than the buffer. -/
theorem list_method_long : get_server
      (some (.obj [("server_port".toList, .str "8388".toList), ("password".toList, .str ['x'])])) =
      some (listServer "8388".toList) ∧
    PlainStrings { plainManager with method := some (List.replicate 65486 'a') } (listServer "8388".toList) ∧
    ∀ sendto, ¬ ListsAll { plainManager with method := some (List.replicate 65486 'a') } sendto
      [listServer "8388".toList] := by
  have hplain : Plain (List.replicate 65486 'a') := fun c hc => by
    rw [List.eq_of_mem_replicate hc]
    decide
  refine ⟨rfl, ⟨by decide, by decide, hplain⟩, ?_⟩
  rintro sendto ⟨texts, htexts, -⟩
  have hlen := @entryLen_listServer { plainManager with method := some (List.replicate 65486 'a') } _ rfl "8388".toList
  rw [List.length_replicate] at hlen
  rw [list_reply_in_overflows] at htexts
  · cases htexts
  · rintro (h | ⟨first, second, rest, h, -⟩)
    · have hle := h _ List.mem_cons_self
      omega
    · cases h

/-! ### A datagram that is too long for UDP -/

/-- The server of port `10000 + i`, with a password of sixteen characters. -/
def longServer (i : Nat) : Server :=
  { Server.zero with
    port := Decimal.ofInt (10000 + i)
    password := List.replicate 16 'x'
    method := some "chacha20-ietf-poly1305".toList }

theorem entryLen_longServer {i : Nat} (hi : i < 728) : entryLen plainManager (longServer i) = 43 := by
  have hport : (longServer i).port.length = 5 := by
    show (10000 + i).repr.toList.length = 5
    have hle : (10000 + i).repr.length ≤ 5 := (Nat.length_repr_le_iff (by decide)).2 (by omega)
    have hgt : ¬ (10000 + i).repr.length ≤ 4 := fun h => by
      have hlt := (Nat.length_repr_le_iff (by decide)).1 h
      omega
    rw [String.length_toList]
    omega
  rw [entryLen, hport]
  rfl

/-- 728 servers make one datagram of 65,522 bytes. -/
theorem list_too_long : ¬ ListsAll plainManager udpSendto ((List.range 728).map longServer) := by
  have hlens : ((List.range 728).map longServer).map (entryLen plainManager) = List.replicate 728 43 := by
    rw [List.map_map, List.eq_replicate_iff]
    refine ⟨by simp, fun n hn => ?_⟩
    obtain ⟨i, hi, rfl⟩ := List.mem_map.1 hn
    exact entryLen_longServer (List.mem_range.1 hi)
  have hplain : ∀ server ∈ (List.range 728).map longServer, PlainStrings plainManager server := by
    intro server hs
    obtain ⟨i, -, rfl⟩ := List.mem_map.1 hs
    have hport : (longServer i).port = Decimal.ofInt (10000 + (i : Int)) := rfl
    refine ⟨?_, (by decide : Plain (List.replicate 16 'x')), (by decide : Plain "chacha20-ietf-poly1305".toList)⟩
    rw [hport]
    exact Decimal.plain_ofInt _
  have hsum : ((List.replicate 728 43).map (· + 47)).sum = 65520 := by
    rw [List.map_replicate, List.sum_replicate_nat]
  rw [list_reply_iff hplain, hlens, sends_one 0 (by rw [hsum]; decide), hsum]
  rintro ⟨-, hsent⟩
  cases hsent

/-! ### The tables of commands -/

theorem password_of_setMember {server' : Server} {name : Text} {value : Json}
    (hs : server.setMember name value = some server') :
    server'.password = server.password ∨ ∃ s, server'.password = strncpy s 127 := by
  unfold Server.setMember at hs
  split_ifs at hs
  all_goals
    split at hs
    all_goals
      first
      | cases hs
        first
        | exact .inl rfl
        | exact .inr ⟨_, rfl⟩
      | split at hs
        all_goals
          cases hs
          exact .inl rfl

theorem length_password {obj : Option Json} (h : get_server obj = some server) : server.password.length ≤ 127 := by
  refine get_server_induct (P := fun server => server.password.length ≤ 127) (Nat.zero_le _) ?_ h
  intro server server' name value hle hs
  rcases password_of_setMember hs with heq | ⟨s, heq⟩
  · rw [heq]
    exact hle
  · rw [heq]
    exact List.length_take_le 127 _

/-- The port and the password of a command have 134 characters at the most. -/
theorem listFits_of_accepted (htable : ∀ server ∈ table, ∃ obj, accepted obj server)
    (hmethod : ∀ server ∈ table, (listMethod manager server).length ≤ 65351) : ListFits manager table := by
  refine .inl fun server hs => ?_
  obtain ⟨obj, haccepted⟩ := htable server hs
  have hport := (PortBound.of_accepted haccepted).length
  have hpassword := length_password haccepted.1
  have hm := hmethod server hs
  unfold entryLen
  omega

end OutlineServer.Servers
