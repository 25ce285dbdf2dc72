import Mathlib.Data.List.Induction
import OutlineServer.Servers

/-!
# The fields of a command (`manager.c`)

The handlers of `stat`, `set_ip`, `clear_ip` and `ip_status` have the extractors fill arrays on their stack. A character
of an array is `none` as long as the call has not written it. `strncpy` of seven characters leaves the last one of the
port unwritten, and `parse_traffic` succeeds without an integer member; otherwise what a handler uses has been written
and is terminated (`command_fields_iff`).
-/

namespace OutlineServer.CommandFields
open Servers Decimal

/-- A `char` array; `none` is what it held before. -/
abbrev Cells := List (Option Char)

def uninit (size : Nat) : Cells := List.replicate size none

def INET6_ADDRSTRLEN : Nat := 46

/-- `strncpy(dst, s, n)` -/
def strncpyTo (dst : Cells) (s : Text) (n : Nat) : Cells :=
  ((cstr s).take n ++ List.replicate (n - (cstr s).length) '\x00').map some ++ dst.drop n

/-- `snprintf(dst, size + 1, "%s", s)` -/
def snprintfTo (dst : Cells) (size : Nat) (s : Text) : Cells :=
  (s.take size ++ ['\x00']).map some ++ dst.drop (min s.length size + 1)

/-- `dst[0] = '\0'` -/
def clear (dst : Cells) : Cells := dst.set 0 (some '\x00')

/-- `get_data`; the command stands before the brace, so there is a character before it. -/
def get_data (buf : Text) : Option Text := (buf.findIdx? (· = '{')).map fun pos => buf.drop (pos - 1)

/-- The value of the data of a command. -/
def dataValue (json_parse : Text → Option Json) (buf : Text) : Option Json :=
  (get_data buf).bind fun data => json_parse (cstr data)

def trafficMember (r : Cells × Nat) (m : Text × Json) : Cells × Nat :=
  match m.2 with
  | .num lexeme =>
    match jsonInteger lexeme with
    | some n => (strncpyTo r.1 m.1 7, (n % 2 ^ 64).toNat)
    | none => r
  | _ => r

def parse_traffic (json_parse : Text → Option Json) (buf : Text) (port : Cells) (traffic : Nat) : Int × Cells × Nat :=
  match dataValue json_parse buf with
  | none => (-1, port, traffic)
  | some (.obj members) => (0, members.foldl trafficMember (port, traffic))
  | some _ => (0, port, traffic)

def portIpMember (r : Cells × Cells) (m : Text × Json) : Cells × Cells :=
  if cstr m.1 = "server_port".toList then
    match m.2 with
    | .str s => (strncpyTo r.1 s 7, r.2)
    | .num lexeme =>
      match jsonInteger lexeme with
      | some n => (snprintfTo r.1 7 (ofInt (n % 2 ^ 64)), r.2)
      | none => r
    | _ => r
  else if cstr m.1 = "ip".toList then
    match m.2 with
    | .str s => (r.1, strncpyTo r.2 s (INET6_ADDRSTRLEN - 1))
    | _ => r
  else r

/-- The members of the object go to `port` and `ip`. -/
def portIpMembers (obj : Json) (r : Cells × Cells) : Cells × Cells :=
  match obj with
  | .obj members => members.foldl portIpMember r
  | _ => r

def parse_port_ip (json_parse : Text → Option Json) (buf : Text) (port ip : Cells) : Int × Cells × Cells :=
  match dataValue json_parse buf with
  | none => (-1, clear port, clear ip)
  | some obj =>
    let r := portIpMembers obj (clear port, clear ip)
    (if r.1.head? = some (some '\x00') then -1 else 0, r)

def parse_port_only (json_parse : Text → Option Json) (buf : Text) (port : Cells) : Int × Cells :=
  let r := parse_port_ip json_parse buf port (uninit INET6_ADDRSTRLEN)
  (r.1, r.2.1)

/-- The array starts with a string and its NUL, all of it written. -/
def Terminated (a : Cells) : Prop := ∃ s : Text, '\x00' ∉ s ∧ (s ++ ['\x00']).map some <+: a

/-- What the handler of `stat` uses. -/
def StatFields (json_parse : Text → Option Json) (buf : Text) : Prop :=
  let r := parse_traffic json_parse buf (uninit 8) 0
  r.1 ≠ -1 → Terminated r.2.1

/-- What the handler of `set_ip` uses. -/
def SetIpFields (json_parse : Text → Option Json) (buf : Text) : Prop :=
  let r := parse_port_ip json_parse buf (uninit 8) (uninit INET6_ADDRSTRLEN)
  r.1 ≠ -1 → r.2.2.head? ≠ some (some '\x00') → Terminated r.2.1 ∧ Terminated r.2.2

/-- What the handlers of `clear_ip` and `ip_status` use. -/
def PortField (json_parse : Text → Option Json) (buf : Text) : Prop :=
  let r := parse_port_only json_parse buf (uninit 8)
  r.1 ≠ -1 → Terminated r.2

/-! ### What the members write -/

/-- The name of an integer. -/
def trafficName (m : Text × Json) : Option Text :=
  match m.2 with
  | .num lexeme => (jsonInteger lexeme).map fun _ => m.1
  | _ => none

/-- The string or the integer of a `server_port`. -/
def portOf (m : Text × Json) : Option (Text ⊕ Int) :=
  if cstr m.1 = "server_port".toList then
    match m.2 with
    | .str s => some (.inl s)
    | .num lexeme => (jsonInteger lexeme).map .inr
    | _ => none
  else none

/-- The string of an `ip`. -/
def ipOf (m : Text × Json) : Option Text :=
  if cstr m.1 = "ip".toList then
    match m.2 with
    | .str s => some s
    | _ => none
  else none

def trafficNames (members : List (Text × Json)) : List Text := members.filterMap trafficName
def ports (members : List (Text × Json)) : List (Text ⊕ Int) := members.filterMap portOf
def ips (members : List (Text × Json)) : List Text := members.filterMap ipOf

def writePort (port : Cells) : Text ⊕ Int → Cells
  | .inl s => strncpyTo port s 7
  | .inr n => snprintfTo port 7 (ofInt (n % 2 ^ 64))

/-- The text of a port. -/
def portText : Text ⊕ Int → Text
  | .inl s => cstr s
  | .inr n => ofInt (n % 2 ^ 64)

/-- The last port has room for its NUL, or it is a string and an integer of seven digits or more has ended the array
with one before. -/
def PortFits (members : List (Text × Json)) : Prop :=
  ∀ s, (ports members).getLast? = some (.inl s) →
    (cstr s).length < 7 ∨ ∃ n, .inr n ∈ ports members ∧ 7 ≤ (ofInt (n % 2 ^ 64)).length

def IpFits (members : List (Text × Json)) : Prop :=
  ∀ s, (ips members).getLast? = some s → (cstr s).length < INET6_ADDRSTRLEN - 1

/-- `set_ip` is refused: the last port or the last address is empty, or there is none. -/
def Refused (members : List (Text × Json)) : Prop :=
  (∀ p, (ports members).getLast? = some p → portText p = []) ∨ ∀ s, (ips members).getLast? = some s → cstr s = []

variable {json_parse : Text → Option Json} {buf s : Text} {a port ip : Cells} {n size : Nat}
  {members : List (Text × Json)} {p : Text ⊕ Int}

/-! ### Terminated arrays -/

theorem terminated_nul : Terminated (some '\x00' :: a) := ⟨[], by simp, by simp⟩

theorem not_terminated_none : ¬ Terminated (none :: a) := by
  rintro ⟨s, -, hs⟩
  cases s with
  | nil => simp at hs
  | cons c s => simp at hs

theorem terminated_append (hs : '\x00' ∉ s) : Terminated (s.map some ++ a) ↔ Terminated a := by
  induction s with
  | nil => rfl
  | cons c s ih =>
    obtain ⟨hc, hs⟩ := not_or.1 (mt List.mem_cons.2 hs)
    rw [← ih hs, List.map_cons, List.cons_append]
    constructor
    · rintro ⟨t, ht, htake⟩
      cases t with
      | nil =>
        simp only [List.nil_append, List.map_cons, List.map_nil, List.cons_prefix_cons, Option.some.injEq] at htake
        exact absurd htake.1 hc
      | cons d t =>
        simp only [List.cons_append, List.map_cons, List.cons_prefix_cons] at htake
        exact ⟨t, fun h => ht (List.mem_cons_of_mem d h), htake.2⟩
    · rintro ⟨t, ht, htake⟩
      refine ⟨c :: t, ?_, ?_⟩
      · rw [List.mem_cons]
        exact not_or.2 ⟨hc, ht⟩
      · simp only [List.cons_append, List.map_cons, List.cons_prefix_cons, true_and]
        exact htake

theorem nul_notMem_cstr (s : Text) : '\x00' ∉ cstr s := by
  intro h
  simpa using List.mem_takeWhile_imp h

theorem terminated_strncpyTo : Terminated (strncpyTo a s n) ↔ (cstr s).length < n ∨ Terminated (a.drop n) := by
  have hnul : '\x00' ∉ (cstr s).take n := fun h => nul_notMem_cstr s (List.mem_of_mem_take h)
  rw [strncpyTo, List.map_append, List.append_assoc, terminated_append hnul]
  by_cases hlen : (cstr s).length < n
  · obtain ⟨k, hk⟩ : ∃ k, n - (cstr s).length = k + 1 := ⟨n - (cstr s).length - 1, by omega⟩
    rw [hk, List.replicate_succ]
    exact iff_of_true terminated_nul (.inl hlen)
  · rw [Nat.sub_eq_zero_of_le (by omega), List.replicate_zero, List.map_nil, List.nil_append]
    exact ⟨.inr, fun h => h.resolve_left hlen⟩

theorem drop_strncpyTo : (strncpyTo a s n).drop n = a.drop n := by
  have hlen : (((cstr s).take n ++ List.replicate (n - (cstr s).length) '\x00').map some).length = n := by
    rw [List.length_map, List.length_append, List.length_take, List.length_replicate]
    omega
  rw [strncpyTo, List.drop_append, hlen, Nat.sub_self, List.drop_zero, List.drop_of_length_le (by rw [hlen]),
    List.nil_append]

theorem head?_strncpyTo (hn : 0 < n) : (strncpyTo a s n).head? = some (some '\x00') ↔ cstr s = [] := by
  obtain ⟨n, rfl⟩ : ∃ k, n = k + 1 := ⟨n - 1, by omega⟩
  cases hs : cstr s with
  | nil => simp [strncpyTo, hs, List.replicate_succ]
  | cons c cs =>
    have hc : c ≠ '\x00' := by
      rintro rfl
      exact nul_notMem_cstr s (hs ▸ List.mem_cons_self)
    simpa [strncpyTo, hs] using hc

theorem nul_notMem_ofInt (n : Int) : '\x00' ∉ ofInt n := by
  intro h
  rcases mem_ofInt h with hd | hd
  · cases hd
  · exact absurd hd (by decide)

theorem terminated_snprintfTo (hs : '\x00' ∉ s) : Terminated (snprintfTo a size s) := by
  rw [snprintfTo, List.map_append, List.append_assoc,
    terminated_append fun h => hs (List.mem_of_mem_take h)]
  exact terminated_nul

theorem drop_snprintfTo :
    Terminated ((snprintfTo a size s).drop size) ↔ size ≤ s.length ∨ Terminated (a.drop size) := by
  have hlen : ((s.take size ++ ['\x00']).map some).length = min s.length size + 1 := by
    simp [Nat.min_comm]
  rw [snprintfTo, List.drop_append, hlen, List.drop_drop]
  by_cases hsize : size ≤ s.length
  · rw [Nat.min_eq_right hsize, List.map_append, List.drop_append_of_le_length (by simp [hsize])]
    have hle : ((s.take size).map some).length ≤ size := by
      rw [List.length_map, List.length_take]
      exact Nat.min_le_left size _
    rw [List.drop_of_length_le hle]
    exact iff_of_true terminated_nul (.inl hsize)
  · rw [List.drop_of_length_le (by rw [hlen]; omega), List.nil_append,
      show min s.length size + 1 + (size - (min s.length size + 1)) = size by omega]
    exact ⟨.inr, fun h => h.resolve_left hsize⟩

theorem head?_snprintfTo (hs : '\x00' ∉ s) (hne : s ≠ []) (hsize : 0 < size) :
    (snprintfTo a size s).head? ≠ some (some '\x00') := by
  obtain ⟨c, t, rfl⟩ := List.exists_cons_of_ne_nil hne
  obtain ⟨k, rfl⟩ : ∃ k, size = k + 1 := ⟨size - 1, by omega⟩
  simp only [snprintfTo, List.take_succ_cons, List.cons_append, List.map_cons, List.head?_cons]
  rintro h
  exact hs (by simp_all)

/-! ### The traffic -/

theorem trafficMember_fst (r : Cells × Nat) (m : Text × Json) :
    (trafficMember r m).1 = match trafficName m with
      | some name => strncpyTo r.1 name 7
      | none => r.1 := by
  obtain ⟨name, value⟩ := m
  cases value with
  | num lexeme =>
    show (match jsonInteger lexeme with
      | some n => (strncpyTo r.1 name 7, (n % 2 ^ 64).toNat)
      | none => r).1 = match (jsonInteger lexeme).map fun _ => name with
        | some name => strncpyTo r.1 name 7
        | none => r.1
    cases jsonInteger lexeme with
    | none => rfl
    | some n => rfl
  | _ => rfl

theorem foldl_trafficMember (members : List (Text × Json)) (r : Cells × Nat) :
    (members.foldl trafficMember r).1 =
      (trafficNames members).foldl (fun port name => strncpyTo port name 7) r.1 := by
  rw [trafficNames, List.foldl_filterMap]
  refine (List.foldl_hom Prod.fst fun r m => ?_).symm
  rw [trafficMember_fst]
  cases trafficName m with
  | none => rfl
  | some name => rfl

/-- The last name is what is left, and nothing writes behind the seven characters. -/
theorem terminated_names (names : List Text) :
    Terminated (names.foldl (fun port name => strncpyTo port name 7) (uninit 8)) ↔
      ∃ name, names.getLast? = some name ∧ (cstr name).length < 7 := by
  have hdrop : ∀ names : List Text,
      (names.foldl (fun port name => strncpyTo port name 7) (uninit 8)).drop 7 = [none] := by
    intro names
    induction names using List.reverseRecOn with
    | nil => rfl
    | append_singleton names name ih => rw [List.foldl_append, List.foldl_cons, List.foldl_nil, drop_strncpyTo, ih]
  induction names using List.reverseRecOn with
  | nil => exact iff_of_false not_terminated_none (by simp)
  | append_singleton names name ih =>
    rw [List.foldl_append, List.foldl_cons, List.foldl_nil, terminated_strncpyTo, hdrop, List.getLast?_concat]
    constructor
    · rintro (hlen | h)
      · exact ⟨name, rfl, hlen⟩
      · exact absurd h not_terminated_none
    · rintro ⟨_, ⟨⟩, hlen⟩
      exact .inl hlen

theorem statFields_iff (json_parse : Text → Option Json) (buf : Text) :
    StatFields json_parse buf ↔ ∀ obj, dataValue json_parse buf = some obj →
      ∃ members, obj = .obj members ∧ ∃ name, (trafficNames members).getLast? = some name ∧ (cstr name).length < 7 := by
  unfold StatFields parse_traffic
  cases dataValue json_parse buf with
  | none => simp
  | some obj =>
    have hforall : ∀ P : Json → Prop, (∀ obj', some obj = some obj' → P obj') ↔ P obj := by simp
    rw [hforall]
    cases obj with
    | obj members =>
      simp only [Json.obj.injEq, exists_eq_left']
      rw [← terminated_names, foldl_trafficMember]
      exact ⟨fun h => h (by decide), fun h _ => h⟩
    | _ => exact iff_of_false (fun h => not_terminated_none (h (show (0 : Int) ≠ -1 by decide))) (by simp)

/-! ### The port and the address -/

theorem portIpMember_eq (r : Cells × Cells) (m : Text × Json) :
    portIpMember r m = ((match portOf m with
      | some p => writePort r.1 p
      | none => r.1), match ipOf m with
      | some s => strncpyTo r.2 s (INET6_ADDRSTRLEN - 1)
      | none => r.2) := by
  obtain ⟨name, value⟩ := m
  unfold portIpMember portOf ipOf
  by_cases hport : cstr name = "server_port".toList
  · have hip : cstr name ≠ "ip".toList := by
      rw [hport]
      decide
    simp only [if_pos hport, if_neg hip]
    cases value with
    | num lexeme =>
      dsimp only
      cases jsonInteger lexeme with
      | none => rfl
      | some n => rfl
    | _ => rfl
  · simp only [if_neg hport]
    split
    · cases value with
      | str s => rfl
      | _ => rfl
    · rfl

theorem foldl_portIpMember (members : List (Text × Json)) (r : Cells × Cells) :
    members.foldl portIpMember r = ((ports members).foldl writePort r.1,
      (ips members).foldl (fun ip s => strncpyTo ip s (INET6_ADDRSTRLEN - 1)) r.2) := by
  induction members generalizing r with
  | nil => rfl
  | cons m members ih =>
    simp only [List.foldl_cons, ih, portIpMember_eq, ports, ips, List.filterMap_cons]
    cases portOf m with
    | none =>
      cases ipOf m with
      | none => rfl
      | some s => rfl
    | some p =>
      cases ipOf m with
      | none => rfl
      | some s => rfl

theorem portText_ne (n : Int) : ofInt (n % 2 ^ 64) ≠ [] := ofInt_ne_nil _

/-- The array of the port after the members. -/
theorem ports_spec (ps : List (Text ⊕ Int)) :
    (Terminated ((ps.foldl writePort (clear (uninit 8))).drop 7) ↔
      ∃ n, .inr n ∈ ps ∧ 7 ≤ (ofInt (n % 2 ^ 64)).length) ∧
    ((ps.foldl writePort (clear (uninit 8))).head? = some (some '\x00') ↔ ∀ p, ps.getLast? = some p → portText p = []) ∧
    (Terminated (ps.foldl writePort (clear (uninit 8))) ↔ ∀ s, ps.getLast? = some (.inl s) →
      (cstr s).length < 7 ∨ ∃ n, .inr n ∈ ps ∧ 7 ≤ (ofInt (n % 2 ^ 64)).length) := by
  induction ps using List.reverseRecOn with
  | nil => exact ⟨iff_of_false not_terminated_none (by simp), by simp [clear, uninit],
      iff_of_true terminated_nul (by simp)⟩
  | append_singleton ps p ih =>
    obtain ⟨hdrop, -, -⟩ := ih
    simp only [List.foldl_append, List.foldl_cons, List.foldl_nil, List.getLast?_concat, Option.some.injEq,
      forall_eq', List.mem_append, List.mem_singleton]
    cases p with
    | inl s =>
      have hmem : (∃ n, (.inr n ∈ ps ∨ Sum.inr n = Sum.inl s) ∧ 7 ≤ (ofInt (n % 2 ^ 64)).length) ↔
          ∃ n, .inr n ∈ ps ∧ 7 ≤ (ofInt (n % 2 ^ 64)).length := by simp
      rw [hmem]
      refine ⟨?_, head?_strncpyTo (by decide), ?_⟩
      · rw [writePort, drop_strncpyTo, hdrop]
      · rw [writePort, terminated_strncpyTo, hdrop]
        simp
    | inr n =>
      refine ⟨?_, ?_, iff_of_true (terminated_snprintfTo (nul_notMem_ofInt _)) (by simp)⟩
      · rw [writePort, drop_snprintfTo, hdrop]
        simp [or_and_right, exists_or, or_comm]
      · exact iff_of_false (head?_snprintfTo (nul_notMem_ofInt _) (portText_ne n) (by decide)) (portText_ne n)

/-- The array of the address after the members. -/
theorem ips_spec (ss : List Text) :
    ((ss.foldl (fun ip s => strncpyTo ip s (INET6_ADDRSTRLEN - 1)) (clear (uninit INET6_ADDRSTRLEN))).head? =
        some (some '\x00') ↔ ∀ s, ss.getLast? = some s → cstr s = []) ∧
    (Terminated (ss.foldl (fun ip s => strncpyTo ip s (INET6_ADDRSTRLEN - 1)) (clear (uninit INET6_ADDRSTRLEN))) ↔
      ∀ s, ss.getLast? = some s → (cstr s).length < INET6_ADDRSTRLEN - 1) := by
  have hdrop : ∀ ss : List Text, (ss.foldl (fun ip s => strncpyTo ip s (INET6_ADDRSTRLEN - 1))
      (clear (uninit INET6_ADDRSTRLEN))).drop (INET6_ADDRSTRLEN - 1) = [none] := by
    intro ss
    induction ss using List.reverseRecOn with
    | nil => rfl
    | append_singleton ss s ih => rw [List.foldl_append, List.foldl_cons, List.foldl_nil, drop_strncpyTo, ih]
  induction ss using List.reverseRecOn with
  | nil => exact ⟨by simp [clear, uninit, INET6_ADDRSTRLEN], iff_of_true terminated_nul (by simp)⟩
  | append_singleton ss s ih =>
    simp only [List.foldl_append, List.foldl_cons, List.foldl_nil, List.getLast?_concat, Option.some.injEq, forall_eq']
    refine ⟨head?_strncpyTo (by decide), ?_⟩
    rw [terminated_strncpyTo, hdrop]
    exact or_iff_left not_terminated_none

theorem parse_port_ip_ret (port ip : Cells) {obj : Json} {r : Int × Cells × Cells}
    (hobj : dataValue json_parse buf = some obj) (hr : parse_port_ip json_parse buf port ip = r) :
    r.2 = portIpMembers obj (clear port, clear ip) ∧ (r.1 ≠ -1 ↔ r.2.1.head? ≠ some (some '\x00')) := by
  unfold parse_port_ip at hr
  rw [hobj] at hr
  subst hr
  refine ⟨rfl, ?_⟩
  dsimp only
  split
  · rename_i hhead
    exact iff_of_false (fun h => h rfl) fun h => h hhead
  · rename_i hhead
    exact iff_of_true (by decide) hhead

theorem setIpFields_iff (json_parse : Text → Option Json) (buf : Text) :
    SetIpFields json_parse buf ↔ ∀ members, dataValue json_parse buf = some (.obj members) →
      Refused members ∨ PortFits members ∧ IpFits members := by
  unfold SetIpFields
  cases hobj : dataValue json_parse buf with
  | none =>
    have hret : (parse_port_ip json_parse buf (uninit 8) (uninit INET6_ADDRSTRLEN)).1 = -1 := by
      rw [parse_port_ip, hobj]
    exact iff_of_true (fun h => absurd hret h) (by simp)
  | some obj =>
    obtain ⟨hr, hret⟩ := parse_port_ip_ret (uninit 8) (uninit INET6_ADDRSTRLEN) hobj rfl
    dsimp only
    rw [hret, hr]
    cases obj with
    | obj members =>
      obtain ⟨-, hhead, hport⟩ := ports_spec (ports members)
      obtain ⟨hiphead, hip⟩ := ips_spec (ips members)
      simp only [portIpMembers, foldl_portIpMember, Option.some.injEq, Json.obj.injEq, forall_eq']
      rw [ne_eq, hhead, ne_eq, hiphead, hport, hip]
      unfold Refused PortFits IpFits
      rw [or_assoc, or_iff_not_imp_left, or_iff_not_imp_left]
    | _ => exact iff_of_true (fun h => absurd rfl h) (by simp)

theorem portField_iff (json_parse : Text → Option Json) (buf : Text) :
    PortField json_parse buf ↔
      ∀ members, dataValue json_parse buf = some (.obj members) → PortFits members := by
  unfold PortField parse_port_only
  cases hobj : dataValue json_parse buf with
  | none =>
    have hret : (parse_port_ip json_parse buf (uninit 8) (uninit INET6_ADDRSTRLEN)).1 = -1 := by
      rw [parse_port_ip, hobj]
    exact iff_of_true (fun h => absurd hret h) (by simp)
  | some obj =>
    obtain ⟨hr, hret⟩ := parse_port_ip_ret (uninit 8) (uninit INET6_ADDRSTRLEN) hobj rfl
    dsimp only
    rw [hret, hr]
    cases obj with
    | obj members =>
      obtain ⟨-, hhead, hport⟩ := ports_spec (ports members)
      simp only [portIpMembers, foldl_portIpMember, Option.some.injEq, Json.obj.injEq, forall_eq']
      rw [ne_eq, hhead, hport]
      refine ⟨fun h s hs => ?_, fun h _ => h⟩
      by_cases hempty : cstr s = []
      · exact .inl (by rw [hempty]; decide)
      · refine h (fun hall => hempty (hall _ hs)) s hs
    | _ => exact iff_of_true (fun h => absurd rfl h) (by simp)

/-- Exactly when what the handlers use has been written from the datagram and is terminated. -/
theorem command_fields_iff (json_parse : Text → Option Json) (buf : Text) :
    (StatFields json_parse buf ↔ ∀ obj, dataValue json_parse buf = some obj →
      ∃ members, obj = .obj members ∧ ∃ name, (trafficNames members).getLast? = some name ∧ (cstr name).length < 7) ∧
    (SetIpFields json_parse buf ↔ ∀ members, dataValue json_parse buf = some (.obj members) →
      Refused members ∨ PortFits members ∧ IpFits members) ∧
    (PortField json_parse buf ↔
      ∀ members, dataValue json_parse buf = some (.obj members) → PortFits members) :=
  ⟨statFields_iff json_parse buf, setIpFields_iff json_parse buf, portField_iff json_parse buf⟩

/-- The members of a `set_ip` with a port of eight digits. -/
def longPort : List (Text × Json) :=
  [("server_port".toList, .str "12345678".toList), ("ip".toList, .str "10.0.0.1".toList)]

/-- That `set_ip`, and a `stat` without a port. -/
theorem command_fields_not :
    ¬ StatFields (fun _ => some (.obj [])) "stat\x00 \x7b\x7d".toList ∧
    ¬ SetIpFields (fun _ => some (.obj longPort))
      "set_ip\x00 \x7b\"server_port\":\"12345678\",\"ip\":\"10.0.0.1\"\x7d".toList := by
  have hports : ports longPort = [.inl "12345678".toList] := rfl
  have hips : ips longPort = ["10.0.0.1".toList] := rfl
  constructor
  · intro h
    obtain ⟨members, hobj, name, hname, -⟩ := (statFields_iff _ _).1 h (.obj []) rfl
    cases hobj
    cases hname
  · intro h
    rcases (setIpFields_iff _ _).1 h longPort rfl with (hport | hip) | ⟨hport, -⟩
    · exact absurd (hport (.inl "12345678".toList) (by rw [hports]; rfl)) (by decide)
    · exact absurd (hip "10.0.0.1".toList (by rw [hips]; rfl)) (by decide)
    · rcases hport "12345678".toList (by rw [hports]; rfl) with hlen | ⟨n, hn, -⟩
      · exact absurd hlen (by decide)
      · rw [hports] at hn
        simp at hn

end OutlineServer.CommandFields
