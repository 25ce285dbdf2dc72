import OutlineServer.IpLock
import OutlineServer.Lib.Decimal

/-!
# The list of firewall sets (`server.c`)

`nftbl_init` cuts the option `--nftables-sets` into its entries. It stops at a number of sets that it computes from the
size of the array in bytes and the size of what the array's pointers point to, which is 3 of the 15 that there is room
for: a list of entries is registered if it is not longer (`nftbl_init_iff`).
-/

namespace OutlineServer.Nftables
open Decimal

/-- `struct nftbl_set_info` -/
structure SetInfo where
  family : Nat
  table : Option Text
  name : Text
  type : Nat
deriving DecidableEq

/-- The slots of `nftbl_badip_sets`, each a pointer. -/
def badip_slots : Nat := 16

def sizeof_pointer : Nat := 8

/-- `sizeof(struct nftbl_set_info)`: two pointers and two `uint32_t` with their padding -/
def sizeof_info : Nat := 32

/-- The number of sets at which the loop ends. -/
def maxSets : Nat := badip_slots * sizeof_pointer / sizeof_info - 1

/-- The descriptor of the characters from `p0` on, the colon `d` among them. -/
def newSet (cur : Text) : Option Nat → SetInfo
  | none => ⟨0, none, cur, 0⟩
  | some d => ⟨0, some (cur.take d), cur.drop (d + 1), 0⟩

/-- The loop of `nftbl_init`. `cur` is the characters from `p0` to `p` and the place of their last colon; `none` is the
inner loop, which skips white space behind a comma and leaves `p` on a character that is not looked at. -/
def scan : (cur : Option (Text × Option Nat)) → Text → List SetInfo → List SetInfo
  | none, [], sets => sets
  | none, c :: rest, sets => if isSpace c then scan none rest sets else scan (some ([c], none)) rest sets
  | some (cur, d), [], sets => sets ++ [newSet cur d]
  | some (cur, d), c :: rest, sets =>
    if c = ':' then
      scan (some (cur ++ [c], some cur.length)) rest sets
    else if c = ',' then
      if sets.length + 1 = maxSets then sets ++ [newSet cur d] else scan none rest (sets ++ [newSet cur d])
    else
      scan (some (cur ++ [c], d)) rest sets

/-- The sets that `nftbl_init` registers. -/
def nftbl_init (set_str : Text) : List SetInfo := scan (some ([], none)) set_str []

/-! ### Lists of entries -/

/-- A name of a table or a set. -/
structure SetName where
  text : Text
  ne_nil : text ≠ []
  plain : ∀ c ∈ text, c ≠ ':' ∧ c ≠ ',' ∧ isSpace c = false

/-- An entry `[table:]name`. -/
structure Entry where
  table : Option SetName
  name : SetName

def Entry.text (e : Entry) : Text :=
  match e.table with
  | none => e.name.text
  | some table => table.text ++ ':' :: e.name.text

def Entry.info (e : Entry) : SetInfo := ⟨0, e.table.map SetName.text, e.name.text, 0⟩

/-- The colon of an entry. -/
def Entry.colon (e : Entry) : Option Nat := e.table.map fun table => table.text.length

/-- The other entries of a list, each behind a comma and white space. -/
def listTail (rest : List ({s : Text // ∀ c ∈ s, isSpace c = true} × Entry)) : Text :=
  rest.flatMap fun r => ',' :: (r.1.1 ++ r.2.text)

def listText (first : Entry) (rest : List ({s : Text // ∀ c ∈ s, isSpace c = true} × Entry)) : Text :=
  first.text ++ listTail rest

variable {cur s rest t : Text} {d : Option Nat} {sets : List SetInfo} {e first : Entry} {c : Char}

theorem newSet_entry (e : Entry) : newSet e.text e.colon = e.info := by
  obtain ⟨table, name⟩ := e
  cases table with
  | none => rfl
  | some table => simp [Entry.text, Entry.colon, Entry.info, newSet]

theorem scan_name (h : ∀ c ∈ s, c ≠ ':' ∧ c ≠ ',' ∧ isSpace c = false) :
    scan (some (cur, d)) (s ++ rest) sets = scan (some (cur ++ s, d)) rest sets := by
  induction s generalizing cur with
  | nil => simp
  | cons c s ih =>
    obtain ⟨⟨hcolon, hcomma, -⟩, hs⟩ := List.forall_mem_cons.1 h
    rw [List.cons_append, scan, if_neg hcolon, if_neg hcomma, ih hs, List.append_assoc, List.singleton_append]

/-- An entry from its second character on. -/
theorem scan_entry (h : e.text = c :: t) :
    scan (some ([c], none)) (t ++ rest) sets = scan (some (e.text, e.colon)) rest sets := by
  obtain ⟨table, name⟩ := e
  cases table with
  | none =>
    have hname : name.text = c :: t := h
    have ht : ∀ x ∈ t, x ≠ ':' ∧ x ≠ ',' ∧ isSpace x = false := fun x hx =>
      name.plain x (hname ▸ List.mem_cons_of_mem c hx)
    rw [scan_name ht, h]
    rfl
  | some table =>
    obtain ⟨c', t', htable⟩ := List.exists_cons_of_ne_nil table.ne_nil
    have htext : table.text ++ ':' :: name.text = c :: t := h
    rw [htable, List.cons_append] at htext
    obtain ⟨rfl, rfl⟩ := List.cons.inj htext
    have ht : ∀ x ∈ t', x ≠ ':' ∧ x ≠ ',' ∧ isSpace x = false := fun x hx =>
      table.plain x (htable ▸ List.mem_cons_of_mem c' hx)
    have hcolon : (':' :: name.text) ++ rest = ':' :: (name.text ++ rest) := rfl
    rw [List.append_assoc, scan_name ht, hcolon, scan, if_pos rfl, scan_name name.plain]
    simp [Entry.text, Entry.colon, htable]

theorem Entry.text_cons (e : Entry) : ∃ c t, e.text = c :: t ∧ c ≠ ':' ∧ c ≠ ',' ∧ isSpace c = false := by
  obtain ⟨table, name⟩ := e
  cases table with
  | none =>
    obtain ⟨c, t, h⟩ := List.exists_cons_of_ne_nil name.ne_nil
    exact ⟨c, t, h, name.plain c (h ▸ List.mem_cons_self)⟩
  | some table =>
    obtain ⟨c, t, h⟩ := List.exists_cons_of_ne_nil table.ne_nil
    refine ⟨c, t ++ ':' :: name.text, ?_, table.plain c (h ▸ List.mem_cons_self)⟩
    show table.text ++ ':' :: name.text = _
    rw [h, List.cons_append]

theorem scan_first (e : Entry) : scan (some ([], none)) (e.text ++ rest) sets = scan
    (some (e.text, e.colon)) rest sets := by
  obtain ⟨c, t, h, hcolon, hcomma, -⟩ := e.text_cons
  have htext : scan (some ([c], none)) (t ++ rest) sets = _ := scan_entry h
  rw [← htext, h, List.cons_append, scan, if_neg hcolon, if_neg hcomma, List.nil_append]

/-- An entry behind a comma. -/
theorem scan_next (hs : ∀ c ∈ s, isSpace c = true) (e : Entry) :
    scan none (s ++ (e.text ++ rest)) sets = scan (some (e.text, e.colon)) rest sets := by
  induction s with
  | nil =>
    obtain ⟨c, t, h, -, -, hspace⟩ := e.text_cons
    have htext : scan (some ([c], none)) (t ++ rest) sets = _ := scan_entry h
    rw [← htext, h, List.nil_append, List.cons_append, scan, if_neg (by simp [hspace])]
  | cons c s ih =>
    obtain ⟨hc, hs⟩ := List.forall_mem_cons.1 hs
    rw [List.cons_append, scan, if_pos hc, ih hs]

theorem scan_list {rest : List ({s : Text // ∀ c ∈ s, isSpace c = true} × Entry)} (hlen : sets.length < maxSets) :
    scan (some (first.text, first.colon)) (listTail rest) sets =
      sets ++ (first.info :: rest.map fun r => r.2.info).take (maxSets - sets.length) := by
  induction rest generalizing first sets with
  | nil =>
    show scan _ [] _ = _
    rw [scan, newSet_entry, List.map_nil, List.take_of_length_le (by simp; omega)]
  | cons r rest ih =>
    have htail : listTail (r :: rest) = ',' :: (r.1.1 ++ (r.2.text ++ listTail rest)) := by
      simp [listTail]
    rw [htail, scan, if_neg (by decide), if_pos rfl, newSet_entry]
    split
    · rename_i hmax
      have hone : maxSets - sets.length = 1 := by omega
      rw [hone]
      rfl
    · rename_i hmax
      have hnext : (sets ++ [first.info]).length < maxSets := by
        rw [List.length_append, List.length_singleton]
        omega
      obtain ⟨n, hn⟩ : ∃ n, maxSets - sets.length = n + 1 := ⟨maxSets - sets.length - 1, by omega⟩
      have hn' : maxSets - (sets ++ [first.info]).length = n := by
        rw [List.length_append, List.length_singleton]
        omega
      rw [scan_next r.1.2, ih hnext, hn, hn', List.take_succ_cons, List.map_cons, List.append_assoc,
        List.singleton_append]

/-- For every list of entries. -/
theorem nftbl_init_iff (first : Entry) (rest : List ({s : Text // ∀ c ∈ s, isSpace c = true} × Entry)) :
    nftbl_init (listText first rest) = first.info :: rest.map (fun r => r.2.info) ↔ 1 + rest.length ≤ 3 := by
  have hscan : nftbl_init (listText first rest) = (first.info :: rest.map fun r => r.2.info).take 3 := by
    rw [nftbl_init, listText, scan_first, scan_list (by decide)]
    rfl
  rw [hscan]
  constructor
  · intro h
    have hlen := congrArg List.length h
    rw [List.length_take, List.length_cons, List.length_map] at hlen
    omega
  · intro h
    rw [List.take_of_length_le]
    rw [List.length_cons, List.length_map]
    omega

/-- The last of four sets is dropped. -/
theorem nftbl_init_four :
    nftbl_init "filter:a, b,c,d".toList =
      [⟨0, some "filter".toList, ['a'], 0⟩, ⟨0, none, ['b'], 0⟩, ⟨0, none, ['c'], 0⟩] ∧
    nftbl_init "filter:a, b,c,d".toList ≠
      [⟨0, some "filter".toList, ['a'], 0⟩, ⟨0, none, ['b'], 0⟩, ⟨0, none, ['c'], 0⟩, ⟨0, none, ['d'], 0⟩] := by
  decide

end OutlineServer.Nftables
