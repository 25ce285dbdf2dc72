import OutlineServer.Servers
import Mathlib.Data.List.DropRight

/-!
# The ACL file (`init_acl` and `acl_match_host` of `acl.c`)

The file is read in pieces of 255 characters at most, so that a longer line is seen as a piece that is full and has no
newline. A line of exactly 255 characters looks the same and is discarded too. Every other line is interpreted on its
own (`acl_file_iff`).
-/

namespace OutlineServer.AclFile
open Servers (cstr)

/-! ### The libraries -/

/-- `struct cork_ip` -/
inductive CorkIp
  | v4 (addr : BitVec 32)
  | v6 (addr : BitVec 128)
deriving DecidableEq

/-- The first `n` bits of both are the same. -/
def InNetwork {w : Nat} (addr : BitVec w) (n : Nat) (elem : BitVec w) : Prop :=
  n ≤ w ∧ addr >>> (w - n) = elem >>> (w - n)

/-- The sets of libcorkipset for the addresses of one family. -/
structure IpSetLib (w : Nat) where
  IpSet : Type
  init : IpSet
  add : IpSet → BitVec w → IpSet
  add_network : IpSet → BitVec w → Nat → IpSet
  contains : IpSet → BitVec w → Bool
  contains_init : ∀ elem, contains init elem = false
  contains_add : ∀ set addr elem, contains (add set addr) elem = true ↔ contains set elem = true ∨ addr = elem
  contains_add_network : ∀ set addr n elem,
    contains (add_network set addr n) elem = true ↔ contains set elem = true ∨ InNetwork addr n elem

/-- libcork, libcorkipset and PCRE2. A pattern without a compiled form matches nothing. -/
structure AclLib where
  cork_ip_init : Text → Option CorkIp
  ipv4 : IpSetLib 32
  ipv6 : IpSetLib 128
  Regex : Type
  pcre2_compile : Text → Option Regex
  pcre2_match : Regex → Text → Bool

variable {L : AclLib}

/-! ### Rules (`rule.c`) -/

structure Rule (L : AclLib) where
  pattern : Text
  pattern_re : Option L.Regex

def init_rule (pattern : Text) : Rule L := ⟨pattern, L.pcre2_compile pattern⟩

def lookup_rule (rules : List (Rule L)) (name : Text) : Option (Rule L) :=
  rules.find? fun rule => rule.pattern_re.any (L.pcre2_match · name)

/-! ### The state of `acl.c` -/

inductive Section
  | black_list
  | white_list
  | outbound_block_list
deriving DecidableEq

inductive AclMode
  | BLACK_LIST
  | WHITE_LIST
deriving DecidableEq

/-- The lists of a section. -/
structure Lists (L : AclLib) where
  list_ipv4 : L.ipv4.IpSet
  list_ipv6 : L.ipv6.IpSet
  rules : List (Rule L)

def Lists.init : Lists L := ⟨L.ipv4.init, L.ipv6.init, []⟩

/-- `current` is the section that `list_ipv4`, `list_ipv6` and `rules` point into. -/
structure Acl (L : AclLib) where
  lists : Section → Lists L
  acl_mode : AclMode
  current : Section

def Acl.init : Acl L := ⟨fun _ => .init, .BLACK_LIST, .black_list⟩

def Acl.modify (acl : Acl L) (f : Lists L → Lists L) : Acl L :=
  { acl with lists := fun s => if s = acl.current then f (acl.lists s) else acl.lists s }

/-! ### Lines -/

/-- The loop of `parse_addr_cidr` over the slashes; `ret` is the last one (`none` for -1). -/
def slashLoop : Text → (i : Nat) → (ret : Option Nat) → Option Nat
  | [], _, ret => ret
  | c :: s, i, ret => slashLoop s (i + 1) (if c = '/' then some i else ret)

/-- `host` and `cidr`. -/
def parse_addr_cidr (str : Text) : Text × Int :=
  match slashLoop str 0 none with
  | none => (str, -1)
  | some ret => (str.take ret, Decimal.atoi (str.drop (ret + 1)))

def trimwhitespace (str : Text) : Text :=
  if str.dropWhile Decimal.isSpace = [] then [] else (str.dropWhile Decimal.isSpace).rdropWhile Decimal.isSpace

/-- What `init_acl` makes of a line that is not blank. -/
def Acl.addLine (acl : Acl L) (line : Text) : Acl L :=
  if line = "[outbound_block_list]".toList then { acl with current := .outbound_block_list }
  else if line = "[black_list]".toList ∨ line = "[bypass_list]".toList then { acl with current := .black_list }
  else if line = "[white_list]".toList ∨ line = "[proxy_list]".toList then { acl with current := .white_list }
  else if line = "[reject_all]".toList ∨ line = "[bypass_all]".toList then { acl with acl_mode := .WHITE_LIST }
  else if line = "[accept_all]".toList ∨ line = "[proxy_all]".toList then { acl with acl_mode := .BLACK_LIST }
  else
    let (host, cidr) := parse_addr_cidr line
    match L.cork_ip_init host with
    | some (.v4 addr) =>
      acl.modify fun l => { l with
        list_ipv4 := if 0 ≤ cidr then L.ipv4.add_network l.list_ipv4 addr cidr.toNat else L.ipv4.add l.list_ipv4 addr }
    | some (.v6 addr) =>
      acl.modify fun l => { l with
        list_ipv6 := if 0 ≤ cidr then L.ipv6.add_network l.list_ipv6 addr cidr.toNat else L.ipv6.add l.list_ipv6 addr }
    | none => acl.modify fun l => { l with rules := l.rules ++ [init_rule line] }

/-- The line in `buf` without its newline, its comment and the white space around it. -/
def lineOf (buf : Text) : Text :=
  trimwhitespace ((if buf.getLast? = some '\n' then buf.dropLast else buf).takeWhile (· ≠ '#'))

/-- The body of the loop for a `buf` that is a whole line. -/
def Acl.readLine (acl : Acl L) (buf : Text) : Acl L :=
  if (lineOf buf).length = 0 then acl else acl.addLine (lineOf buf)

/-! ### The file -/

/-- What `fgets(buf, 256, f)` reads, call after call until the end of the file; `cur` is read already. -/
def fgetsAll : Text → (cur : Text) → List Text
  | [], cur => if cur = [] then [] else [cur]
  | c :: s, cur => if c = '\n' ∨ cur.length = 254 then (cur ++ [c]) :: fgetsAll s [] else fgetsAll s (cur ++ [c])

/-- The condition of the loop over the pieces of a long line. -/
def isLong (buf : Text) : Bool := buf.length = 255 ∧ buf[254]? ≠ some '\n'

/-- The pieces that get past that loop; `long_line` is on inside it. -/
def wholeLines : List Text → (long_line : Bool) → List Text
  | [], _ => []
  | buf :: bufs, long_line =>
    if isLong (cstr buf) then wholeLines bufs true
    else if long_line then wholeLines bufs false
    else cstr buf :: wholeLines bufs false

def init_acl (L : AclLib) (content : Text) : Acl L := (wholeLines (fgetsAll content []) false).foldl .readLine .init

def acl_match_host (acl : Acl L) (host : Text) : Int :=
  match L.cork_ip_init host with
  | none =>
    if (lookup_rule (acl.lists .black_list).rules host).isSome then 1
    else if (lookup_rule (acl.lists .white_list).rules host).isSome then -1
    else 0
  | some (.v4 addr) =>
    if L.ipv4.contains (acl.lists .black_list).list_ipv4 addr then 1
    else if L.ipv4.contains (acl.lists .white_list).list_ipv4 addr then -1
    else 0
  | some (.v6 addr) =>
    if L.ipv6.contains (acl.lists .black_list).list_ipv6 addr then 1
    else if L.ipv6.contains (acl.lists .white_list).list_ipv6 addr then -1
    else 0

/-! ### The meaning of a file -/

inductive Entry
  | address (ip : CorkIp)
  | network (ip : CorkIp) (n : Nat)
  | rule (pattern : Text)

def Entry.HasIp : Entry → CorkIp → Prop
  | address ip, ip' => ip = ip'
  | network (.v4 addr) n, .v4 elem => InNetwork addr n elem
  | network (.v6 addr) n, .v6 elem => InNetwork addr n elem
  | _, _ => False

def Entry.HasName (L : AclLib) : Entry → Text → Prop
  | rule pattern, name => ∃ re, L.pcre2_compile pattern = some re ∧ L.pcre2_match re name = true
  | _, _ => False

/-- Addresses and networks cover addresses, rules cover names. -/
def Entry.Covers (L : AclLib) (e : Entry) (host : Text) : Prop :=
  match L.cork_ip_init host with
  | some ip => e.HasIp ip
  | none => e.HasName L host

def sectionOf (line : Text) : Option Section :=
  if line = "[outbound_block_list]".toList then some .outbound_block_list
  else if line = "[black_list]".toList ∨ line = "[bypass_list]".toList then some .black_list
  else if line = "[white_list]".toList ∨ line = "[proxy_list]".toList then some .white_list
  else none

def modeOf (line : Text) : Option AclMode :=
  if line = "[reject_all]".toList ∨ line = "[bypass_all]".toList then some .WHITE_LIST
  else if line = "[accept_all]".toList ∨ line = "[proxy_all]".toList then some .BLACK_LIST
  else none

def entryOf (L : AclLib) (line : Text) : Entry :=
  match L.cork_ip_init (parse_addr_cidr line).1 with
  | none => .rule line
  | some ip => if 0 ≤ (parse_addr_cidr line).2 then .network ip (parse_addr_cidr line).2.toNat else .address ip

/-- The entries of `lines`, each with the section that it stands in. -/
def entries (L : AclLib) : Section → List Text → List (Section × Entry)
  | _, [] => []
  | s, line :: lines =>
    match sectionOf line with
    | some s' => entries L s' lines
    | none => if (modeOf line).isSome then entries L s lines else (s, entryOf L line) :: entries L s lines

/-- The mode of the last line that sets it. -/
def lastMode (lines : List Text) (mode : AclMode) : AclMode :=
  lines.foldl (fun mode line => (modeOf line).getD mode) mode

/-- The lines that are not blank, without comments and the white space around them. -/
def cleaned (bufs : List Text) : List Text := (bufs.map lineOf).filter (· ≠ [])

/-- The lines that `init_acl` interprets. -/
def interpreted (content : Text) : List Text := cleaned (wholeLines (fgetsAll content []) false)

/-- The lines that it should interpret. -/
def fileLines (content : Text) : List Text := cleaned ((content.splitOn '\n').filter (·.length ≤ 255))

/-- What the lists of a section find is what the entries cover. -/
structure Lists.Holds (l : Lists L) (es : Entry → Prop) : Prop where
  ipv4 : ∀ elem, L.ipv4.contains l.list_ipv4 elem = true ↔ ∃ e, es e ∧ e.HasIp (.v4 elem)
  ipv6 : ∀ elem, L.ipv6.contains l.list_ipv6 elem = true ↔ ∃ e, es e ∧ e.HasIp (.v6 elem)
  rules : ∀ name, (lookup_rule l.rules name).isSome = true ↔ ∃ e, es e ∧ e.HasName L name

/-- An entry of the section covers the host. -/
def Listed (L : AclLib) (lines : List Text) (s : Section) (host : Text) : Prop :=
  ∃ e, (s, e) ∈ entries L .black_list lines ∧ e.Covers L host

/-- The file means what its lines say. -/
structure Means (L : AclLib) (content : Text) : Prop where
  lines : interpreted content = fileLines content
  mode : (init_acl L content).acl_mode = lastMode (fileLines content) .BLACK_LIST
  lists : ∀ s, ((init_acl L content).lists s).Holds fun e => (s, e) ∈ entries L .black_list (fileLines content)
  black : ∀ host, acl_match_host (init_acl L content) host = 1 ↔ Listed L (fileLines content) .black_list host
  white : ∀ host, acl_match_host (init_acl L content) host = -1 ↔
    ¬ Listed L (fileLines content) .black_list host ∧ Listed L (fileLines content) .white_list host
  other : ∀ host, acl_match_host (init_acl L content) host = 0 ↔
    ¬ Listed L (fileLines content) .black_list host ∧ ¬ Listed L (fileLines content) .white_list host

variable {s cur buf line content : Text} {acc : Text} {bufs lines : List Text} {rules : List (Rule L)}

/-! ### Reading -/

theorem cleaned_cons (buf : Text) (bufs : List Text) :
    cleaned (buf :: bufs) = if lineOf buf = [] then cleaned bufs else lineOf buf :: cleaned bufs := by
  rw [cleaned, List.map_cons, List.filter_cons]
  by_cases h : lineOf buf = []
  · rw [if_pos h, if_neg (by simpa using h)]
    rfl
  · rw [if_neg h, if_pos (by simpa using h)]
    rfl

theorem lineOf_newline (h : '\n' ∉ line) : lineOf (line ++ ['\n']) = lineOf line := by
  have hlast : line.getLast? ≠ some '\n' := fun hlast => h (List.mem_of_getLast? hlast)
  rw [lineOf, lineOf, if_pos List.getLast?_concat, List.dropLast_concat, if_neg hlast]

theorem cleaned_newline (h : '\n' ∉ line) : cleaned ((line ++ ['\n']) :: bufs) = cleaned (line :: bufs) := by
  rw [cleaned_cons, cleaned_cons, lineOf_newline h]

theorem cstr_eq (h : '\x00' ∉ s) : cstr s = s :=
  List.takeWhile_eq_self_iff.2 fun c hc => by simpa using fun heq : c = '\x00' => h (heq ▸ hc)

theorem isLong_newline (h : cur.length ≤ 254) : isLong (cur ++ ['\n']) = false := by
  rw [isLong, decide_eq_false_iff_not, not_and, not_not]
  intro hlen
  rw [List.length_append, List.length_singleton] at hlen
  rw [List.getElem?_append_right (by omega), show 254 - cur.length = 0 by omega]
  rfl

theorem isLong_full {c : Char} (h : cur.length = 254) (hc : c ≠ '\n') : isLong (cur ++ [c]) = true := by
  rw [isLong, decide_eq_true_iff, List.length_append, List.length_singleton, h]
  refine ⟨rfl, ?_⟩
  rw [List.getElem?_append_right (by omega), h]
  exact fun heq => hc (Option.some.inj heq)

theorem isLong_short (h : cur.length ≤ 254) : isLong cur = false := by
  rw [isLong, decide_eq_false_iff_not]
  omega

/-- Where the reader is: `acc` is what it has read of its line, the last character first, `cur` what `fgets` has. -/
structure Reading (acc cur : Text) (long_line : Bool) : Prop where
  length_le : cur.length ≤ 254
  nul : '\x00' ∉ cur
  newline : '\n' ∉ cur
  long : long_line = true → 254 < acc.length
  short : long_line = false → acc.reverse = cur

theorem Reading.start : Reading [] [] false := ⟨Nat.zero_le _, nofun, nofun, nofun, fun _ => rfl⟩

theorem Reading.cons {long_line : Bool} {c : Char} (h : Reading acc cur long_line) (hlen : cur.length ≠ 254)
    (hc : c ≠ '\n') (hnul : c ≠ '\x00') : Reading (c :: acc) (cur ++ [c]) long_line where
  length_le := by
    have := h.length_le
    rw [List.length_append, List.length_singleton]
    omega
  nul := by simp [h.nul, Ne.symm hnul]
  newline := by simp [h.newline, Ne.symm hc]
  long hlong := Nat.lt_succ_of_lt (h.long hlong)
  short hshort := by rw [List.reverse_cons, h.short hshort]

/-- The piece is full. -/
theorem Reading.full {long_line : Bool} (h : Reading acc cur long_line) (hlen : cur.length = 254) (c : Char) :
    Reading (c :: acc) [] true where
  length_le := Nat.zero_le _
  nul := nofun
  newline := nofun
  long _ := by
    cases long_line with
    | false =>
      have hacc := congrArg List.length (h.short rfl)
      rw [List.length_reverse] at hacc
      rw [List.length_cons]
      omega
    | true => exact Nat.lt_succ_of_lt (h.long rfl)
  short := nofun

theorem wholeLines_long (hnul : '\x00' ∉ buf) (h : isLong buf = true) (long_line : Bool) :
    wholeLines (buf :: bufs) long_line = wholeLines bufs true := by
  rw [wholeLines, cstr_eq hnul, if_pos h]

theorem wholeLines_end (hnul : '\x00' ∉ buf) (h : isLong buf = false) (long_line : Bool) :
    wholeLines (buf :: bufs) long_line = if long_line then wholeLines bufs false else buf :: wholeLines bufs false := by
  rw [wholeLines, cstr_eq hnul, if_neg (by rw [h]; decide)]

/-- The end of a line. -/
theorem Reading.cleaned_end {long_line : Bool} (h : Reading acc cur long_line) (lines : List Text) :
    cleaned ((acc.reverse :: lines).filter (·.length ≤ 254)) = if long_line then cleaned (lines.filter (·.length ≤ 254))
      else cleaned (cur :: lines.filter (·.length ≤ 254)) := by
  cases long_line with
  | false => rw [h.short rfl, List.filter_cons_of_pos (by simpa using h.length_le), if_neg (by decide)]
  | true => rw [List.filter_cons_of_neg (by simpa using h.long rfl), if_pos rfl]

/-- The lines that are read are the ones of at most 254 characters. -/
theorem cleaned_wholeLines {long_line : Bool} (h : Reading acc cur long_line) (hnul : '\x00' ∉ s) :
    cleaned (wholeLines (fgetsAll s cur) long_line) =
      cleaned ((List.splitOnPPrepend (· == '\n') s acc).filter (·.length ≤ 254)) := by
  induction s generalizing acc cur long_line with
  | nil =>
    rw [List.splitOnPPrepend_nil, h.cleaned_end, fgetsAll]
    split
    next hcur =>
      subst hcur
      cases long_line <;> rfl
    next =>
      rw [wholeLines_end h.nul (isLong_short h.length_le)]
      cases long_line <;> rfl
  | cons c s ih =>
    obtain ⟨hc, hs⟩ := not_or.1 (mt List.mem_cons.2 hnul)
    rw [fgetsAll]
    by_cases hnewline : c = '\n'
    · subst hnewline
      have hpiece : '\x00' ∉ cur ++ ['\n'] := by simp [h.nul]
      rw [if_pos (.inl rfl), wholeLines_end hpiece (isLong_newline h.length_le), List.splitOnPPrepend_cons_pos rfl,
        h.cleaned_end]
      cases long_line with
      | false =>
        rw [if_neg (by decide), if_neg (by decide), cleaned_newline h.newline, cleaned_cons, cleaned_cons, ih .start hs]
        rfl
      | true => exact ih .start hs
    · rw [List.splitOnPPrepend_cons_neg (by simpa using hnewline)]
      by_cases hlen : cur.length = 254
      · have hpiece : '\x00' ∉ cur ++ [c] := by simp [h.nul, hc]
        rw [if_pos (.inr hlen), wholeLines_long hpiece (isLong_full hlen hnewline)]
        exact ih (h.full hlen c) hs
      · rw [if_neg (not_or.2 ⟨hnewline, hlen⟩)]
        exact ih (h.cons hlen hnewline (Ne.symm hc)) hs

theorem interpreted_eq (hnul : '\x00' ∉ content) :
    interpreted content = cleaned ((content.splitOn '\n').filter (·.length ≤ 254)) :=
  cleaned_wholeLines .start hnul

theorem length_cleaned_le (lines : List Text) :
    (cleaned (lines.filter (·.length ≤ 254))).length ≤ (cleaned (lines.filter (·.length ≤ 255))).length := by
  have hsub : (lines.filter (·.length ≤ 254)).Sublist (lines.filter (·.length ≤ 255)) :=
    List.monotone_filter_right lines fun line h => by
      rw [decide_eq_true_iff] at h ⊢
      omega
  exact ((hsub.map lineOf).filter _).length_le

/-- Only the lines of exactly 255 characters are lost. -/
theorem cleaned_filter_iff (lines : List Text) :
    cleaned (lines.filter (·.length ≤ 254)) = cleaned (lines.filter (·.length ≤ 255)) ↔
      ∀ line ∈ lines, line.length = 255 → lineOf line = [] := by
  induction lines with
  | nil => exact iff_of_true rfl nofun
  | cons line lines ih =>
    rw [List.forall_mem_cons, ← ih, List.filter_cons, List.filter_cons]
    rcases Nat.lt_trichotomy line.length 255 with hlt | heq | hgt
    · have h₁ : decide (line.length ≤ 254) = true := decide_eq_true (by omega)
      have h₂ : decide (line.length ≤ 255) = true := decide_eq_true (by omega)
      rw [if_pos h₁, if_pos h₂, cleaned_cons, cleaned_cons, and_iff_right fun h => absurd h (Nat.ne_of_lt hlt)]
      split
      · rfl
      · rw [List.cons_inj_right]
    · have h₁ : ¬ decide (line.length ≤ 254) = true := by
        rw [decide_eq_true_iff]
        omega
      have h₂ : decide (line.length ≤ 255) = true := decide_eq_true (by omega)
      rw [if_neg h₁, if_pos h₂, cleaned_cons]
      split
      next hblank => rw [and_iff_right fun _ => hblank]
      next hblank =>
        refine iff_of_false (fun h => ?_) fun h => hblank (h.1 heq)
        have hle := length_cleaned_le lines
        rw [h, List.length_cons] at hle
        omega
    · have h₁ : ¬ decide (line.length ≤ 254) = true := by
        rw [decide_eq_true_iff]
        omega
      have h₂ : ¬ decide (line.length ≤ 255) = true := by
        rw [decide_eq_true_iff]
        omega
      rw [if_neg h₁, if_neg h₂, and_iff_right fun h => absurd h (Nat.ne_of_gt hgt)]

/-! ### Interpreting -/

theorem foldl_readLine (acl : Acl L) (bufs : List Text) :
    bufs.foldl .readLine acl = (cleaned bufs).foldl .addLine acl := by
  induction bufs generalizing acl with
  | nil => rfl
  | cons buf bufs ih =>
    rw [cleaned_cons, List.foldl_cons, Acl.readLine, ih]
    simp only [List.length_eq_zero_iff]
    split <;> rfl

theorem init_acl_eq (L : AclLib) (content : Text) : init_acl L content = (interpreted content).foldl .addLine .init :=
  foldl_readLine .init _

/-- An entry goes into the lists of the current section. -/
def Lists.addEntry (l : Lists L) : Entry → Lists L
  | .address (.v4 addr) => { l with list_ipv4 := L.ipv4.add l.list_ipv4 addr }
  | .address (.v6 addr) => { l with list_ipv6 := L.ipv6.add l.list_ipv6 addr }
  | .network (.v4 addr) n => { l with list_ipv4 := L.ipv4.add_network l.list_ipv4 addr n }
  | .network (.v6 addr) n => { l with list_ipv6 := L.ipv6.add_network l.list_ipv6 addr n }
  | .rule pattern => { l with rules := l.rules ++ [init_rule pattern] }

/-- What a line does. -/
theorem addLine_cases (acl : Acl L) (line : Text) :
    (∃ s, sectionOf line = some s ∧ modeOf line = none ∧ acl.addLine line = { acl with current := s }) ∨
    (∃ mode, sectionOf line = none ∧ modeOf line = some mode ∧ acl.addLine line = { acl with acl_mode := mode }) ∨
    sectionOf line = none ∧ modeOf line = none ∧ acl.addLine line = acl.modify (·.addEntry (entryOf L line)) := by
  unfold Acl.addLine
  split
  next h =>
    subst h
    exact .inl ⟨_, rfl, rfl, rfl⟩
  next hout =>
    split
    next h => rcases h with rfl | rfl <;> exact .inl ⟨_, rfl, rfl, rfl⟩
    next hblack =>
      split
      next h => rcases h with rfl | rfl <;> exact .inl ⟨_, rfl, rfl, rfl⟩
      next hwhite =>
        have hsection : sectionOf line = none := by rw [sectionOf, if_neg hout, if_neg hblack, if_neg hwhite]
        split
        next h => exact .inr (.inl ⟨_, hsection, if_pos h, rfl⟩)
        next hreject =>
          split
          next h => exact .inr (.inl ⟨_, hsection, (if_neg hreject).trans (if_pos h), rfl⟩)
          next haccept =>
            refine .inr (.inr ⟨hsection, (if_neg hreject).trans (if_neg haccept), ?_⟩)
            rw [entryOf]
            dsimp only
            cases L.cork_ip_init (parse_addr_cidr line).1 with
            | none => rfl
            | some ip => cases ip <;> dsimp only <;> split <;> rfl

theorem Lists.Holds.init : (Lists.init : Lists L).Holds fun _ => False where
  ipv4 elem := by simp [Lists.init, L.ipv4.contains_init]
  ipv6 elem := by simp [Lists.init, L.ipv6.contains_init]
  rules name := by simp [Lists.init, lookup_rule]

theorem lookup_rule_append (rules : List (Rule L)) (pattern name : Text) :
    (lookup_rule (rules ++ [init_rule pattern]) name).isSome = true ↔
      (lookup_rule rules name).isSome = true ∨ (Entry.rule pattern).HasName L name := by
  simp only [lookup_rule, List.find?_isSome, List.mem_append, List.mem_singleton, or_and_right, exists_or,
    exists_eq_left, init_rule, Option.any_eq_true, Entry.HasName]

/-- One more entry. -/
theorem Lists.Holds.addEntry {l : Lists L} {es : Entry → Prop} (h : l.Holds es) (e : Entry) :
    (l.addEntry e).Holds fun e' => es e' ∨ e' = e := by
  have hor : ∀ P : Entry → Prop, (∃ e', (es e' ∨ e' = e) ∧ P e') ↔ (∃ e', es e' ∧ P e') ∨ P e := by
    intro P
    simp only [or_and_right, exists_or, exists_eq_left]
  refine ⟨fun elem => ?_, fun elem => ?_, fun name => ?_⟩
  · rw [hor, ← h.ipv4]
    cases e with
    | address ip =>
      cases ip with
      | v4 addr => simp [Lists.addEntry, L.ipv4.contains_add, Entry.HasIp]
      | v6 addr => simp [Lists.addEntry, Entry.HasIp]
    | network ip n =>
      cases ip with
      | v4 addr => simp [Lists.addEntry, L.ipv4.contains_add_network, Entry.HasIp]
      | v6 addr => simp [Lists.addEntry, Entry.HasIp]
    | rule pattern => simp [Lists.addEntry, Entry.HasIp]
  · rw [hor, ← h.ipv6]
    cases e with
    | address ip =>
      cases ip with
      | v4 addr => simp [Lists.addEntry, Entry.HasIp]
      | v6 addr => simp [Lists.addEntry, L.ipv6.contains_add, Entry.HasIp]
    | network ip n =>
      cases ip with
      | v4 addr => simp [Lists.addEntry, Entry.HasIp]
      | v6 addr => simp [Lists.addEntry, L.ipv6.contains_add_network, Entry.HasIp]
    | rule pattern => simp [Lists.addEntry, Entry.HasIp]
  · rw [hor, ← h.rules]
    cases e with
    | address ip => cases ip <;> simp [Lists.addEntry, Entry.HasName]
    | network ip n => cases ip <;> simp [Lists.addEntry, Entry.HasName]
    | rule pattern => exact lookup_rule_append l.rules pattern name

/-- The lists hold what the lines say after the entries that were there. -/
theorem holds_foldl (acl : Acl L) (es : Section → Entry → Prop) (h : ∀ s, (acl.lists s).Holds (es s)) (s : Section) :
    ((lines.foldl .addLine acl).lists s).Holds fun e => es s e ∨ (s, e) ∈ entries L acl.current lines := by
  induction lines generalizing acl es with
  | nil => simpa [entries] using h s
  | cons line lines ih =>
    rw [List.foldl_cons, entries]
    rcases addLine_cases acl line with ⟨s', hs, hm, heq⟩ | ⟨mode, hs, hm, heq⟩ | ⟨hs, hm, heq⟩
    · rw [heq, hs]
      exact ih { acl with current := s' } es h
    · rw [heq, hs, hm]
      exact ih { acl with acl_mode := mode } es h
    · rw [heq, hs, hm]
      have hstep : ∀ s, ((acl.modify (·.addEntry (entryOf L line))).lists s).Holds fun e =>
          es s e ∨ (s, e) = (acl.current, entryOf L line) := by
        intro s
        by_cases hcur : s = acl.current
        · subst hcur
          simpa [Acl.modify] using (h acl.current).addEntry (entryOf L line)
        · simpa [Acl.modify, hcur] using h s
      have hall := ih _ _ hstep
      simpa [or_assoc, Acl.modify] using hall

theorem acl_mode_foldl (acl : Acl L) (lines : List Text) :
    (lines.foldl .addLine acl).acl_mode = lastMode lines acl.acl_mode := by
  induction lines generalizing acl with
  | nil => rfl
  | cons line lines ih =>
    rw [List.foldl_cons, ih, lastMode, lastMode, List.foldl_cons]
    rcases addLine_cases acl line with ⟨s, -, hm, heq⟩ | ⟨mode, -, hm, heq⟩ | ⟨-, hm, heq⟩
    all_goals
      rw [heq, hm]
      rfl

/-! ### Matching -/

/-- The black list first. -/
theorem verdict_iff {black white : Bool} {B W : Prop} (hb : black = true ↔ B) (hw : white = true ↔ W) :
    ((if black then 1 else if white then -1 else (0 : Int)) = 1 ↔ B) ∧
      ((if black then 1 else if white then -1 else (0 : Int)) = -1 ↔ ¬ B ∧ W) ∧
      ((if black then 1 else if white then -1 else (0 : Int)) = 0 ↔ ¬ B ∧ ¬ W) := by
  rw [← hb, ← hw]
  cases black <;> cases white <;> decide

theorem acl_match_host_iff {acl : Acl L} {es : Section → Entry → Prop} (h : ∀ s, (acl.lists s).Holds (es s))
    (host : Text) :
    (acl_match_host acl host = 1 ↔ ∃ e, es .black_list e ∧ e.Covers L host) ∧
      (acl_match_host acl host = -1 ↔
        (¬ ∃ e, es .black_list e ∧ e.Covers L host) ∧ ∃ e, es .white_list e ∧ e.Covers L host) ∧
      (acl_match_host acl host = 0 ↔
        (¬ ∃ e, es .black_list e ∧ e.Covers L host) ∧ ¬ ∃ e, es .white_list e ∧ e.Covers L host) := by
  unfold acl_match_host Entry.Covers
  cases L.cork_ip_init host with
  | none => exact verdict_iff ((h _).rules host) ((h _).rules host)
  | some ip =>
    cases ip with
    | v4 addr => exact verdict_iff ((h _).ipv4 addr) ((h _).ipv4 addr)
    | v6 addr => exact verdict_iff ((h _).ipv6 addr) ((h _).ipv6 addr)

/-- What the lists hold in the end. -/
theorem init_acl_holds (L : AclLib) (content : Text) (s : Section) :
    ((init_acl L content).lists s).Holds fun e => (s, e) ∈ entries L .black_list (interpreted content) := by
  have hall := @holds_foldl L (interpreted content) .init (fun _ _ => False) (fun _ => .init) s
  simp only [false_or] at hall
  rw [init_acl_eq]
  exact hall

/-- The lines of at most 255 characters are interpreted, and the host is matched against their entries, if and only if
no line of exactly 255 characters has anything in it. -/
theorem acl_file_iff (L : AclLib) (content : Text) (hnul : '\x00' ∉ content) :
    Means L content ↔ ∀ line ∈ content.splitOn '\n', line.length = 255 → lineOf line = [] := by
  rw [← cleaned_filter_iff, ← interpreted_eq hnul]
  constructor
  · exact fun h => h.lines
  · intro hlines
    replace hlines : interpreted content = fileLines content := hlines
    have hholds := init_acl_holds L content
    rw [hlines] at hholds
    have hmatch := acl_match_host_iff hholds
    refine ⟨hlines, ?_, hholds, fun host => (hmatch host).1, fun host => (hmatch host).2.1,
      fun host => (hmatch host).2.2⟩
    rw [init_acl_eq, acl_mode_foldl, hlines]
    rfl

/-- Sets as predicates, `1.2.3.4` as the only address, and patterns that match themselves. -/
def plainSet (w : Nat) : IpSetLib w where
  IpSet := BitVec w → Bool
  init _ := false
  add set addr elem := set elem || addr == elem
  add_network set addr n elem := set elem || decide (n ≤ w ∧ addr >>> (w - n) = elem >>> (w - n))
  contains set elem := set elem
  contains_init _ := rfl
  contains_add set addr elem := by simp
  contains_add_network set addr n elem := by simp [InNetwork]

def plainLib : AclLib where
  cork_ip_init s := if s = "1.2.3.4".toList then some (.v4 0x01020304#32) else none
  ipv4 := plainSet 32
  ipv6 := plainSet 128
  Regex := Text
  pcre2_compile := some
  pcre2_match re name := re == name

/-- Two lines, the last one without a newline. -/
theorem acl_file_iff_two : Means plainLib "[white_list] # hosts\n1.2.3.4".toList :=
  (acl_file_iff plainLib "[white_list] # hosts\n1.2.3.4".toList (by decide +kernel)).2 (by decide +kernel)

/-- An address with blanks behind it, 255 characters in all. -/
def paddedAddress : Text := "1.2.3.4".toList ++ List.replicate 248 ' '

/-- The line of 255 characters is not in the list. -/
theorem acl_file_lost : paddedAddress.length = 255 ∧ '\n' ∉ paddedAddress ∧
    fileLines paddedAddress = ["1.2.3.4".toList] ∧ interpreted paddedAddress = [] ∧
    Listed plainLib (fileLines paddedAddress) .black_list "1.2.3.4".toList ∧
    acl_match_host (init_acl plainLib paddedAddress) "1.2.3.4".toList = 0 := by
  have hfile : fileLines paddedAddress = ["1.2.3.4".toList] := by decide +kernel
  refine ⟨by decide +kernel, by decide +kernel, hfile, by decide +kernel, ?_, ?_⟩
  · rw [hfile]
    exact ⟨.address (.v4 0x01020304#32), List.mem_singleton.2 rfl, rfl⟩
  · rw [init_acl_eq, show interpreted paddedAddress = [] by decide +kernel]
    rfl

end OutlineServer.AclFile
