import OutlineServer.CorkAddress

/-!
# Hosts with ports (`parse_addr` of `jconf.c`)

A host is written as it is, with a port, and an IPv6 host in brackets. `parse_addr` finds host and port again
(`parse_addr_iff`) except where a zone is in the way: an IPv6 host with a zone and without brackets is cut at both ends.
-/

namespace OutlineServer.ParseAddr
open CorkAddress

/-! ### The code -/

/-- The loop over the colons: how many (`n`) and where the last is (`ret`, `none` for -1). -/
def colonLoop : Text → (i n : Nat) → (ret : Option Nat) → Nat × Option Nat
  | [], _, n, ret => (n, ret)
  | c :: s, i, n, ret => if c = ':' then colonLoop s (i + 1) (n + 1) (some i) else colonLoop s (i + 1) n ret

def ss_strndup (s : Text) (n : Nat) : Text := s.take n

/-- The host and the port of `addr`. -/
def parse_addr (str : Text) : Text × Option Text :=
  if cork_ip_init str then (str, none)
  else
    let (n, ret) := colonLoop str 0 0 none
    let ipv6 := decide (1 < n)
    let ret := if ipv6 then ret.filter fun r => str[r - 1]? == some ']' else ret
    match ret with
    | none => (if ipv6 then ss_strndup (str.drop 1) (str.length - 2) else str, none)
    | some r =>
      (if ipv6 then ss_strndup (str.drop 1) (r - 2) else ss_strndup str r,
        if r < str.length - 1 then some (str.drop (r + 1)) else none)

/-! ### Written hosts -/

/-- A name or a number, of any characters but a colon. -/
structure Word where
  text : Text
  ne_nil : text ≠ []
  colon : ':' ∉ text

inductive Host
  | v4 (a : V4)
  | v6 (a : V6) (zone : Option Text)
  | name (w : Word)

def zoneText : Option Text → Text
  | none => []
  | some zone => '%' :: zone

def Host.text : Host → Text
  | v4 a => a.text
  | v6 a zone => a.text ++ zoneText zone
  | name w => w.text

/-- How a host is written. -/
inductive Form
  | bare (host : Host)
  | bracketed (a : V6) (zone : Option Text)
  | withPort (host : Host) (port : Word)

def Form.text : Form → Text
  | bare host => host.text
  | bracketed a zone => '[' :: ((Host.v6 a zone).text ++ [']'])
  | withPort (.v6 a zone) port => '[' :: ((Host.v6 a zone).text ++ ']' :: ':' :: port.text)
  | withPort host port => host.text ++ ':' :: port.text

def Form.host : Form → Text
  | bare host => host.text
  | bracketed a zone => (Host.v6 a zone).text
  | withPort host _ => host.text

def Form.port : Form → Option Text
  | bare _ => none
  | bracketed _ _ => none
  | withPort _ port => some port.text

/-- The last colon of the zone stands behind a bracket. -/
def BracketColon (zone : Text) : Prop := ∃ p q, zone = p ++ ']' :: ':' :: q ∧ ':' ∉ q

/-- No zone is in the way. -/
def Form.Plain : Form → Prop
  | bare (.v6 _ zone) => zone = none
  | bracketed _ (some zone) => ¬ BracketColon zone
  | _ => True

variable {s p q : Text} {i n : Nat} {ret : Option Nat}

/-! ### The colons -/

theorem colonLoop_append (s t : Text) (i n : Nat) (ret : Option Nat) : colonLoop (s ++ t) i n ret =
    colonLoop t (i + s.length) (colonLoop s i n ret).1 (colonLoop s i n ret).2 := by
  induction s generalizing i n ret with
  | nil => rfl
  | cons c s ih =>
    rw [List.cons_append, List.length_cons, Nat.add_comm s.length, ← Nat.add_assoc, colonLoop, colonLoop]
    split <;> exact ih _ _ _

theorem colonLoop_not_mem (h : ':' ∉ s) : colonLoop s i n ret = (n, ret) := by
  induction s generalizing i with
  | nil => rfl
  | cons c s ih =>
    obtain ⟨hc, hs⟩ := not_or.1 (mt List.mem_cons.2 h)
    rw [colonLoop, if_neg (Ne.symm hc)]
    exact ih hs

theorem colonLoop_fst (s : Text) : (colonLoop s i n ret).1 = n + s.count ':' := by
  induction s generalizing i n ret with
  | nil => rfl
  | cons c s ih =>
    rw [colonLoop]
    split
    next h =>
      rw [ih, h, List.count_cons_self]
      omega
    next h => rw [ih, List.count_cons_of_ne h]

/-- The last colon is between `p` and `q`. -/
theorem colonLoop_last (hq : ':' ∉ q) : colonLoop (p ++ ':' :: q) 0 0 none = (p.count ':' + 1, some p.length) := by
  have hlast : ∀ i n ret, colonLoop (':' :: q) i n ret = (n + 1, some i) := fun i n ret => by
    rw [colonLoop, if_pos rfl, colonLoop_not_mem hq]
  rw [colonLoop_append, hlast, colonLoop_fst, Nat.zero_add, Nat.zero_add]

theorem last_colon_unique {p' q' : Text} (h : p ++ ':' :: q = p' ++ ':' :: q') (hq : ':' ∉ q) (hq' : ':' ∉ q') :
    p = p' := by
  have hloop : colonLoop (p ++ ':' :: q) 0 0 none = colonLoop (p' ++ ':' :: q') 0 0 none := by rw [h]
  rw [colonLoop_last hq, colonLoop_last hq'] at hloop
  exact List.append_inj_left h (Option.some.inj (Prod.ext_iff.1 hloop).2)

theorem exists_last_colon (h : ':' ∈ s) : ∃ p q, s = p ++ ':' :: q ∧ ':' ∉ q := by
  induction s with
  | nil => cases h
  | cons c s ih =>
    by_cases hs : ':' ∈ s
    · obtain ⟨p, q, rfl, hq⟩ := ih hs
      exact ⟨c :: p, q, rfl, hq⟩
    · rcases List.mem_cons.1 h with rfl | h
      · exact ⟨[], s, rfl, hs⟩
      · exact absurd h hs

/-! ### What `parse_addr` does -/

theorem parse_addr_init (h : cork_ip_init s = true) : parse_addr s = (s, none) := by
  rw [parse_addr, if_pos h]

theorem parse_addr_none (h : ':' ∉ s) : parse_addr s = (s, none) := by
  unfold parse_addr
  rw [colonLoop_not_mem h]
  split <;> rfl

theorem last_index_lt (p q : Text) : p.length < (p ++ ':' :: q).length - 1 ↔ q ≠ [] := by
  rw [List.length_append, List.length_cons, ← List.length_pos_iff]
  omega

theorem drop_last_colon (p q : Text) : (p ++ ':' :: q).drop (p.length + 1) = q := by
  rw [← List.drop_drop, List.drop_left]
  rfl

/-- One colon. -/
theorem parse_addr_one (hp : ':' ∉ p) (w : Word) : parse_addr (p ++ ':' :: w.text) = (p, some w.text) := by
  have hcount : (p ++ ':' :: w.text).count ':' = 1 := by
    rw [List.count_append, List.count_cons_self, List.count_eq_zero.2 hp, List.count_eq_zero.2 w.colon]
  have hinit : ¬ cork_ip_init (p ++ ':' :: w.text) = true := fun h => count_of_init h hcount
  unfold parse_addr
  rw [if_neg hinit, colonLoop_last w.colon, List.count_eq_zero.2 hp]
  show (ss_strndup _ p.length, if p.length < _ then _ else _) = _
  rw [if_pos ((last_index_lt p w.text).2 w.ne_nil), drop_last_colon, ss_strndup, List.take_left]

/-- More than one colon: the character before the last one decides. -/
theorem parse_addr_many (hinit : ¬ cork_ip_init (p ++ ':' :: q) = true) (hq : ':' ∉ q) (hp : ':' ∈ p) :
    parse_addr (p ++ ':' :: q) = if p.getLast? = some ']' then
        (ss_strndup ((p ++ ':' :: q).drop 1) (p.length - 2), if q ≠ [] then some q else none)
      else (ss_strndup ((p ++ ':' :: q).drop 1) ((p ++ ':' :: q).length - 2), none) := by
  have hmany : 1 < p.count ':' + 1 := Nat.lt_add_of_pos_left (List.count_pos_iff.2 hp)
  have hpos := List.length_pos_of_mem hp
  have hbefore : (p ++ ':' :: q)[p.length - 1]? = p.getLast? := by
    rw [List.getElem?_append_left (by omega), List.getLast?_eq_getElem?]
  unfold parse_addr
  rw [if_neg hinit, colonLoop_last hq]
  dsimp only
  rw [decide_eq_true hmany, if_pos rfl, Option.filter_some, hbefore]
  by_cases h : p.getLast? = some ']'
  · rw [if_pos h, if_pos (by rw [h]; rfl)]
    simp only [last_index_lt, drop_last_colon, if_true]
  · rw [if_neg h, if_neg (by simpa using h)]
    rfl

/-- What is kept without the brackets is never longer. -/
theorem length_ss_strndup (s : Text) (n : Nat) : (ss_strndup s n).length ≤ n := List.length_take_le n s

/-! ### The forms -/

/-- A text with a character that no literal has. -/
theorem not_init {s : Text} {c : Char} (h : c ∈ s) (hc : isLiteralChar c = false) : ¬ cork_ip_init s = true :=
  fun hinit => Bool.false_ne_true (hc.symm.trans (init_chars hinit c h))

theorem Host.two_colons (a : V6) (zone : Option Text) : 2 ≤ (Host.v6 a zone).text.count ':' := by
  have := a.two_colons
  rw [Host.text, List.count_append]
  omega

/-- The last of two colons. -/
theorem exists_two_colons (h : 2 ≤ s.count ':') : ∃ p q, s = p ++ ':' :: q ∧ ':' ∉ q ∧ ':' ∈ p := by
  obtain ⟨p, q, rfl, hq⟩ := exists_last_colon (List.count_pos_iff.1 (Nat.lt_of_lt_of_le Nat.two_pos h))
  rw [List.count_append, List.count_cons_self, List.count_eq_zero.2 hq] at h
  exact ⟨p, q, rfl, hq, List.count_pos_iff.1 (by omega)⟩

/-- An IPv6 host in brackets. -/
theorem parse_addr_brackets (hq : ':' ∉ q) (hp : ':' ∈ p) :
    parse_addr ('[' :: (p ++ ':' :: q ++ [']'])) = (p ++ ':' :: q, none) ↔ p.getLast? ≠ some ']' := by
  have htext : '[' :: (p ++ ':' :: q ++ [']']) = ('[' :: p) ++ ':' :: (q ++ [']']) := by simp
  have hlast : ('[' :: p).getLast? = p.getLast? := by
    cases p with
    | nil => cases hp
    | cons c p => rfl
  have hq' : ':' ∉ q ++ [']'] := by simp [hq]
  have hinit : ¬ cork_ip_init (('[' :: p) ++ ':' :: (q ++ [']'])) = true := not_init List.mem_cons_self rfl
  rw [htext, parse_addr_many hinit hq' (List.mem_cons_of_mem _ hp), hlast]
  by_cases h : p.getLast? = some ']'
  · rw [if_pos h]
    refine iff_of_false (fun heq => ?_) (not_not.2 h)
    have hshort := length_ss_strndup (List.drop 1 ('[' :: p ++ ':' :: (q ++ [']']))) (('[' :: p).length - 2)
    have hfst := (Prod.ext_iff.1 heq).1
    dsimp only at hfst
    rw [hfst, List.length_append, List.length_cons, List.length_cons] at hshort
    omega
  · rw [if_neg h]
    refine iff_of_true ?_ h
    have hlen : ('[' :: (p ++ ':' :: q ++ [']'])).length - 2 = (p ++ ':' :: q).length := by simp
    rw [← htext, ss_strndup, List.drop_one, List.tail_cons, hlen, List.take_left]

/-- The bracket before the last colon is one of the zone. -/
theorem getLast_iff (a : V6) {zone : Text} (h : a.text ++ '%' :: zone = p ++ ':' :: q) (hq : ':' ∉ q) :
    p.getLast? = some ']' ↔ BracketColon zone := by
  rw [List.getLast?_eq_some_iff]
  constructor
  · rintro ⟨p, rfl⟩
    rw [List.append_assoc] at h
    obtain ⟨r, -, hr⟩ | ⟨r, ha, hr⟩ := List.append_eq_append_iff.1 h
    · cases r with
      | nil => cases hr
      | cons c r => exact ⟨r, q, (List.cons.inj hr).2, hq⟩
    · cases r with
      | nil => cases hr
      | cons c r =>
        obtain rfl : ']' = c := (List.cons.inj hr).1
        have hmem : ']' ∈ a.text := ha ▸ List.mem_append_right p List.mem_cons_self
        cases a.chars hmem
  · rintro ⟨p', q', rfl, hq'⟩
    have hsplit : a.text ++ '%' :: (p' ++ ']' :: ':' :: q') = (a.text ++ '%' :: p' ++ [']']) ++ ':' :: q' := by simp
    exact ⟨_, last_colon_unique (h.symm.trans hsplit) hq hq'⟩

/-- An IPv6 host in brackets and a port. -/
theorem parse_addr_port (hs : ':' ∈ s) (port : Word) :
    parse_addr ('[' :: (s ++ ']' :: ':' :: port.text)) = (s, some port.text) := by
  have htext : '[' :: (s ++ ']' :: ':' :: port.text) = ('[' :: (s ++ [']'])) ++ ':' :: port.text := by simp
  have hinit : ¬ cork_ip_init (('[' :: (s ++ [']'])) ++ ':' :: port.text) = true := not_init List.mem_cons_self rfl
  have hmem : ':' ∈ '[' :: (s ++ [']']) := by simp [hs]
  have hlen : ('[' :: (s ++ [']'])).length - 2 = s.length := by simp
  have hlast : ('[' :: (s ++ [']'])).getLast? = some ']' := List.getLast?_eq_some_iff.2 ⟨'[' :: s, rfl⟩
  rw [htext, parse_addr_many hinit port.colon hmem, if_pos hlast, if_pos port.ne_nil, hlen, ← htext, ss_strndup,
    List.drop_one, List.tail_cons, List.take_left]

/-- An IPv6 host with a zone and without brackets. -/
theorem parse_addr_zone_ne (a : V6) (zone : Text) :
    (parse_addr (Host.v6 a (some zone)).text).1 ≠ (Host.v6 a (some zone)).text := by
  intro heq
  have hinit : ¬ cork_ip_init (Host.v6 a (some zone)).text = true :=
    not_init (List.mem_append_right _ List.mem_cons_self) rfl
  obtain ⟨p, q, htext, hq, hp⟩ := exists_two_colons (Host.two_colons a (some zone))
  have hpos := List.length_pos_of_mem hp
  rw [htext] at hinit heq
  have hlen := congrArg List.length heq
  rw [parse_addr_many hinit hq hp] at hlen
  split at hlen
  · have hle := length_ss_strndup ((p ++ ':' :: q).drop 1) (p.length - 2)
    rw [hlen, List.length_append] at hle
    omega
  · have hle := length_ss_strndup ((p ++ ':' :: q).drop 1) ((p ++ ':' :: q).length - 2)
    rw [hlen, List.length_append] at hle
    omega

theorem Form.bracketed_iff (a : V6) (zone : Option Text) :
    parse_addr (bracketed a zone).text = ((bracketed a zone).host, none) ↔ (bracketed a zone).Plain := by
  obtain ⟨p, q, htext, hq, hp⟩ := exists_two_colons (Host.two_colons a zone)
  rw [Form.text, Form.host, htext, parse_addr_brackets hq hp]
  cases zone with
  | none =>
    refine iff_of_true (fun hlast => ?_) trivial
    obtain ⟨p, rfl⟩ := List.getLast?_eq_some_iff.1 hlast
    have hmem : ']' ∈ a.text ++ [] := by
      rw [show a.text ++ [] = _ from htext]
      exact List.mem_append_left _ (List.mem_append_right p List.mem_cons_self)
    cases a.chars (List.append_nil a.text ▸ hmem)
  | some zone => exact not_congr (getLast_iff a htext hq)

/-- `parse_addr` finds the host and the port that were written unless a zone is in the way. -/
theorem parse_addr_iff (f : Form) : parse_addr f.text = (f.host, f.port) ↔ f.Plain := by
  cases f with
  | bare host =>
    cases host with
    | v4 a => exact iff_of_true (parse_addr_init (Bool.or_eq_true_iff.2 (.inl (init_v4 a)))) trivial
    | v6 a zone =>
      cases zone with
      | none =>
        refine iff_of_true ?_ rfl
        have hinit : cork_ip_init (a.text ++ []) = true := by
          rw [List.append_nil]
          exact Bool.or_eq_true_iff.2 (.inr (init_v6 a))
        exact parse_addr_init hinit
      | some zone => exact iff_of_false (fun h => parse_addr_zone_ne a zone (congrArg Prod.fst h)) nofun
    | name w => exact iff_of_true (parse_addr_none w.colon) trivial
  | bracketed a zone => exact Form.bracketed_iff a zone
  | withPort host port =>
    cases host with
    | v4 a => exact iff_of_true (parse_addr_one a.colon port) trivial
    | v6 a zone =>
      have hmem : ':' ∈ (Host.v6 a zone).text :=
        List.count_pos_iff.1 (Nat.lt_of_lt_of_le Nat.two_pos (Host.two_colons a zone))
      exact iff_of_true (parse_addr_port hmem port) trivial
    | name w => exact iff_of_true (parse_addr_one w.colon port) trivial

/-- `fe80::1`. -/
def linkLocal : V6 :=
  .compressed [⟨"fe80".toList, List.cons_ne_nil _ _, Nat.le_refl 4, List.all_eq_true.1 rfl⟩]
    [⟨"1".toList, List.cons_ne_nil _ _, Nat.succ_le_succ (Nat.zero_le 3), List.all_eq_true.1 rfl⟩] none (by decide)

/-- A zone costs the host its first and its last character. -/
theorem parse_addr_link_local : ∃ f : Form, f.text = "fe80::1%eth0".toList ∧ f.host = "fe80::1%eth0".toList ∧
    f.port = none ∧ parse_addr f.text = ("e80::1%eth".toList, none) :=
  ⟨.bare (.v6 linkLocal (some "eth0".toList)), rfl, rfl, rfl, rfl⟩

end OutlineServer.ParseAddr
