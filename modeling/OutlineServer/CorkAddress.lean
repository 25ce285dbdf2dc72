import OutlineServer.IpLock

/-!
# Address literals (`ip-address.c` of libcork)

`cork_ip_init` without the address that it fills in: which texts it takes. It takes every literal (`init_v6`), and no
text with a character of another kind (`init_chars`) or with exactly one colon (`count_of_init`).
-/

namespace OutlineServer.CorkAddress

/-! ### The parsers -/

/-- The loop of `cork_ipv4_parse`. -/
def ipv4Loop : Text → (seen_digit_in_octet : Bool) → (octets digit : Nat) → Bool
  | [], seen_digit_in_octet, octets, _ => seen_digit_in_octet && octets == 3
  | c :: s, _, octets, digit =>
    if c.isDigit then
      if 255 < digit * 10 + (c.toNat - '0'.toNat) then false
      else ipv4Loop s true octets (digit * 10 + (c.toNat - '0'.toNat))
    else if c = '.' then
      if octets = 3 then false else ipv4Loop s false (octets + 1) 0
    else false

def cork_ipv4_init (str : Text) : Bool := ipv4Loop str false 0 0

/-- The variables of `cork_ipv6_init`; `digits` are the last `digits_seen` characters. -/
structure V6State where
  digits : Text
  hextets_seen : Nat
  another_required : Bool
  digit_allowed : Bool
  colon_allowed : Bool
  double_colon_allowed : Bool
  just_saw_colon : Bool

def V6State.start : V6State := ⟨[], 0, true, true, true, true, false⟩

def isHex (c : Char) : Bool := c.isDigit || ('a' ≤ c && c ≤ 'f') || ('A' ≤ c && c ≤ 'F')

/-- The end of `cork_ipv6_init`. -/
def ipv6End (st : V6State) : Bool :=
  if 0 < st.digits.length then
    st.hextets_seen != 8 && (!st.double_colon_allowed || st.hextets_seen + 1 == 8)
  else !st.another_required && (!st.double_colon_allowed || st.hextets_seen == 8)

def ipv6Loop : Text → V6State → Bool
  | [], st => ipv6End st
  | c :: s, st =>
    if isHex c then
      if !st.digit_allowed then false
      else if st.digits.length = 4 then false
      else ipv6Loop s { st with digits := st.digits ++ [c], colon_allowed := true, just_saw_colon := false }
    else if c = ':' then
      if !st.colon_allowed then false
      else if st.just_saw_colon then
        ipv6Loop s { st with
          colon_allowed := false, digit_allowed := true, another_required := false, double_colon_allowed := false }
      else if st.hextets_seen = 8 then false
      else if st.digits.length = 0 ∧ st.hextets_seen = 0 then
        ipv6Loop s { st with
          colon_allowed := true, digit_allowed := false, just_saw_colon := true, another_required := true }
      else
        ipv6Loop s { st with
          digits := [], hextets_seen := st.hextets_seen + 1, colon_allowed := st.double_colon_allowed
          just_saw_colon := true, another_required := true }
    else if c = '.' then
      if 7 ≤ st.hextets_seen then false
      else if ipv4Loop (st.digits ++ '.' :: s) false 0 0 then
        ipv6End { st with digits := [], hextets_seen := st.hextets_seen + 2, another_required := false }
      else false
    else false

def cork_ipv6_init (str : Text) : Bool := ipv6Loop str .start

def cork_ip_init (str : Text) : Bool := cork_ipv4_init str || cork_ipv6_init str

/-! ### Literals -/

/-- The value of the digits behind `v`. -/
def decimal (v : Nat) (s : Text) : Nat := s.foldl (fun v c => v * 10 + (c.toNat - '0'.toNat)) v

/-- One to three digits that are 255 at most. -/
structure Octet where
  text : Text
  ne_nil : text ≠ []
  length_le : text.length ≤ 3
  isDigit : ∀ c ∈ text, c.isDigit = true
  value_le : decimal 0 text ≤ 255

/-- An IPv4 literal. -/
structure V4 where
  first : Octet
  second : Octet
  third : Octet
  fourth : Octet

def V4.text (a : V4) : Text :=
  a.first.text ++ '.' :: (a.second.text ++ '.' :: (a.third.text ++ '.' :: a.fourth.text))

/-- One to four hexadecimal digits. -/
structure Hextet where
  text : Text
  ne_nil : text ≠ []
  length_le : text.length ≤ 4
  isHex : ∀ c ∈ text, isHex c = true

/-- Hextets with colons between them and, as the last two of them, perhaps an IPv4 literal. -/
def groups : List Hextet → Option V4 → Text
  | [], none => []
  | [], some a => a.text
  | [h], none => h.text
  | h :: hs, tail => h.text ++ ':' :: groups hs tail

/-- The number of hextets. -/
def width (hs : List Hextet) (tail : Option V4) : Nat := hs.length + if tail.isSome then 2 else 0

/-- An IPv6 literal: eight hextets, or no more than seven with `::` for the rest. -/
inductive V6
  | full (hs : List Hextet) (tail : Option V4) (h : width hs tail = 8)
  | compressed (hs hs' : List Hextet) (tail : Option V4) (h : hs.length + width hs' tail ≤ 7)

def V6.text : V6 → Text
  | .full hs tail _ => groups hs tail
  | .compressed hs hs' tail _ => groups hs none ++ ':' :: ':' :: groups hs' tail

variable {s t : Text} {st : V6State} {c : Char} {seen : Bool} {octets digit v : Nat} {tail : Option V4}

/-! ### IPv4 literals are taken -/

theorem le_decimal (v : Nat) (s : Text) : v ≤ decimal v s := by
  induction s generalizing v with
  | nil => exact Nat.le_refl v
  | cons c s ih =>
    have h := ih (v * 10 + (c.toNat - '0'.toNat))
    show v ≤ decimal (v * 10 + (c.toNat - '0'.toNat)) s
    omega

/-- The digits of an octet. -/
theorem ipv4Loop_digits (hs : ∀ c ∈ s, c.isDigit = true) (hv : decimal digit s ≤ 255) (hne : s ≠ []) (seen : Bool)
    (octets : Nat) (t : Text) :
    ipv4Loop (s ++ t) seen octets digit = ipv4Loop t true octets (decimal digit s) := by
  induction s generalizing seen digit with
  | nil => exact absurd rfl hne
  | cons c s ih =>
    obtain ⟨hc, hs⟩ := List.forall_mem_cons.1 hs
    have hle := le_decimal (digit * 10 + (c.toNat - '0'.toNat)) s
    have hv' : decimal (digit * 10 + (c.toNat - '0'.toNat)) s ≤ 255 := hv
    rw [List.cons_append, ipv4Loop, if_pos hc, if_neg (by omega)]
    cases s with
    | nil => rfl
    | cons d s => exact ih hs hv' (by simp) true

theorem Octet.scan (o : Octet) (seen : Bool) (octets : Nat) (t : Text) :
    ipv4Loop (o.text ++ t) seen octets 0 = ipv4Loop t true octets (decimal 0 o.text) :=
  ipv4Loop_digits o.isDigit o.value_le o.ne_nil seen octets t

theorem ipv4Loop_dot (h : octets ≠ 3) : ipv4Loop ('.' :: s) seen octets digit = ipv4Loop s false (octets + 1) 0 := by
  rw [ipv4Loop, if_neg (by decide), if_pos rfl, if_neg h]

theorem init_v4 (a : V4) : cork_ipv4_init a.text = true := by
  have hlast : ipv4Loop (a.fourth.text ++ []) false 3 0 = true := by
    rw [a.fourth.scan]
    rfl
  rw [List.append_nil] at hlast
  rw [cork_ipv4_init, V4.text, a.first.scan, ipv4Loop_dot (by decide), a.second.scan, ipv4Loop_dot (by decide),
    a.third.scan, ipv4Loop_dot (by decide)]
  exact hlast

/-! ### IPv6 literals are taken -/

theorem ipv6Loop_hex (hs : ∀ c ∈ s, isHex c = true) (hlen : st.digits.length + s.length ≤ 4)
    (hd : st.digit_allowed = true) (hne : s ≠ []) (t : Text) : ipv6Loop (s ++ t) st =
      ipv6Loop t { st with digits := st.digits ++ s, colon_allowed := true, just_saw_colon := false } := by
  induction s generalizing st with
  | nil => exact absurd rfl hne
  | cons c s ih =>
    obtain ⟨hc, hs⟩ := List.forall_mem_cons.1 hs
    rw [List.length_cons] at hlen
    have hallowed : ¬ (!st.digit_allowed) = true := by simp [hd]
    rw [List.cons_append, ipv6Loop, if_pos hc, if_neg hallowed, if_neg (by omega)]
    cases s with
    | nil => rw [List.nil_append]
    | cons d s =>
      have hlen' : (st.digits ++ [c]).length + (d :: s).length ≤ 4 := by
        rw [List.length_append, List.length_singleton]
        omega
      rw [@ih { st with digits := st.digits ++ [c], colon_allowed := true, just_saw_colon := false } hs hlen' hd
        (by simp)]
      dsimp only
      rw [List.append_assoc, List.singleton_append]

/-- A hextet at its place. -/
theorem Hextet.scan (h : Hextet) (hdigits : st.digits = []) (hd : st.digit_allowed = true) (t : Text) :
    ipv6Loop (h.text ++ t) st =
      ipv6Loop t { st with digits := h.text, colon_allowed := true, just_saw_colon := false } := by
  have hlen : st.digits.length + h.text.length ≤ 4 := by
    rw [hdigits, List.length_nil, Nat.zero_add]
    exact h.length_le
  rw [ipv6Loop_hex h.isHex hlen hd h.ne_nil, hdigits, List.nil_append]

/-- The colon behind a hextet. -/
theorem ipv6Loop_colon (hdigits : st.digits ≠ []) (hcolon : st.colon_allowed = true) (hjust : st.just_saw_colon = false)
    (hseen : st.hextets_seen ≠ 8) (s : Text) : ipv6Loop (':' :: s) st = ipv6Loop s { st with
      digits := [], hextets_seen := st.hextets_seen + 1, colon_allowed := st.double_colon_allowed
      just_saw_colon := true, another_required := true } := by
  have hlen : ¬ (st.digits.length = 0 ∧ st.hextets_seen = 0) := fun h => hdigits (List.length_eq_zero_iff.1 h.1)
  rw [ipv6Loop, if_neg (by decide), if_pos rfl, hcolon, if_neg (by decide), hjust, if_neg (by decide), if_neg hseen,
    if_neg hlen]

/-- Behind `::`. -/
def afterDouble (n : Nat) : V6State := ⟨[], n, false, true, false, false, true⟩

theorem ipv6Loop_double (hdigits : st.digits = []) (hcolon : st.colon_allowed = true)
    (hjust : st.just_saw_colon = true) (s : Text) :
    ipv6Loop (':' :: s) st = ipv6Loop s (afterDouble st.hextets_seen) := by
  rw [ipv6Loop, if_neg (by decide), if_pos rfl, hcolon, if_neg (by decide), hjust, if_pos rfl, hdigits]
  rfl

/-- The hextets up to the end. -/
theorem ipv6Loop_groups {hs : List Hextet} (hne : hs ≠ [] ∨ tail.isSome = true) (hdigits : st.digits = [])
    (hd : st.digit_allowed = true) (hle : st.hextets_seen + width hs tail ≤ 8)
    (hall : st.double_colon_allowed = true → st.hextets_seen + width hs tail = 8) :
    ipv6Loop (groups hs tail) st = true := by
  induction hs generalizing st with
  | nil =>
    cases tail with
    | none => exact absurd hne (by simp)
    | some a =>
      have hwidth : width [] (some a) = 2 := rfl
      rw [hwidth] at hle hall
      have hhex : ∀ c ∈ a.first.text, isHex c = true := fun c hc => by simp [isHex, a.first.isDigit c hc]
      have hlen : st.digits.length + a.first.text.length ≤ 4 := by
        rw [hdigits, List.length_nil, Nat.zero_add]
        exact Nat.le_succ_of_le a.first.length_le
      show ipv6Loop (a.first.text ++ '.' :: _) st = true
      rw [ipv6Loop_hex hhex hlen hd a.first.ne_nil, ipv6Loop, if_neg (by decide), if_neg (by decide), if_pos rfl]
      have hv4 := init_v4 a
      dsimp only
      rw [if_neg (by omega), hdigits, List.nil_append]
      rw [cork_ipv4_init, V4.text] at hv4
      rw [if_pos hv4]
      cases hdc : st.double_colon_allowed with
      | false => simp [ipv6End]
      | true => simp [ipv6End, hall hdc]
  | cons h hs ih =>
    have hcons : width (h :: hs) tail = width hs tail + 1 := by
      unfold width
      rw [List.length_cons]
      omega
    rw [hcons] at hle hall
    have hpos := List.length_pos_iff.2 h.ne_nil
    -- behind the hextet
    have hcolon : (hs ≠ [] ∨ tail.isSome = true) → ipv6Loop (h.text ++ ':' :: groups hs tail) st = true := by
      intro hne
      rw [h.scan hdigits hd, ipv6Loop_colon h.ne_nil rfl rfl (by dsimp only; omega)]
      refine ih hne rfl hd ?_ fun hdc => ?_
      · dsimp only
        omega
      · have := hall hdc
        dsimp only
        omega
    cases hs with
    | nil =>
      cases tail with
      | none =>
        have hend : ipv6Loop (h.text ++ []) st = true := by
          rw [h.scan hdigits hd]
          have hw : width [] none = 0 := rfl
          rw [hw] at hle hall
          cases hdc : st.double_colon_allowed with
          | false =>
            simp [ipv6Loop, ipv6End, hpos]
            omega
          | true =>
            have := hall hdc
            simp [ipv6Loop, ipv6End, hpos]
            omega
        rwa [List.append_nil] at hend
      | some a => exact hcolon (.inr rfl)
    | cons h' hs => exact hcolon (.inl (by simp))

/-- The hextets before `::`. -/
theorem ipv6Loop_before {hs : List Hextet} (hne : hs ≠ []) (hdigits : st.digits = []) (hd : st.digit_allowed = true)
    (hdc : st.double_colon_allowed = true) (hle : st.hextets_seen + hs.length ≤ 8) (t : Text) :
    ipv6Loop (groups hs none ++ ':' :: ':' :: t) st = ipv6Loop t (afterDouble (st.hextets_seen + hs.length)) := by
  induction hs generalizing st with
  | nil => exact absurd rfl hne
  | cons h hs ih =>
    rw [List.length_cons] at hle
    cases hs with
    | nil =>
      show ipv6Loop (h.text ++ ':' :: ':' :: t) st = _
      rw [h.scan hdigits hd, ipv6Loop_colon h.ne_nil rfl rfl (by dsimp only; omega), ipv6Loop_double rfl hdc rfl]
      rfl
    | cons h' hs =>
      show ipv6Loop ((h.text ++ ':' :: groups (h' :: hs) none) ++ ':' :: ':' :: t) st = _
      rw [List.append_assoc, List.cons_append, h.scan hdigits hd,
        ipv6Loop_colon h.ne_nil rfl rfl (by dsimp only; omega)]
      have hbehind := @ih { st with
        digits := [], hextets_seen := st.hextets_seen + 1, colon_allowed := st.double_colon_allowed
        just_saw_colon := true, another_required := true } (by simp) rfl hd hdc (by dsimp only; omega)
      rw [Nat.add_assoc, Nat.add_comm 1] at hbehind
      exact hbehind

theorem init_v6 (a : V6) : cork_ipv6_init a.text = true := by
  cases a with
  | full hs tail h =>
    refine ipv6Loop_groups ?_ rfl rfl ?_ fun _ => ?_
    · by_contra hn
      obtain ⟨hnil, htail⟩ := not_or.1 hn
      rw [not_not.1 hnil] at h
      cases tail with
      | none => cases h
      | some a => exact htail rfl
    · show 0 + _ ≤ 8
      omega
    · show 0 + _ = 8
      omega
  | compressed hs hs' tail h =>
    have hbehind : ipv6Loop (groups hs' tail) (afterDouble hs.length) = true := by
      by_cases hn : hs' ≠ [] ∨ tail.isSome = true
      · exact ipv6Loop_groups hn rfl rfl (Nat.le_succ_of_le h) nofun
      · obtain ⟨hnil, htail⟩ := not_or.1 hn
        rw [not_not.1 hnil]
        cases tail with
        | none => rfl
        | some a => exact absurd rfl htail
    cases hs with
    | nil => exact hbehind
    | cons g hs =>
      have hle : 0 + (g :: hs).length ≤ 8 := by omega
      have hbefore := @ipv6Loop_before .start (g :: hs) (by simp) rfl rfl rfl hle (groups hs' tail)
      exact hbefore.trans ((congrArg _ (congrArg afterDouble (Nat.zero_add _))).trans hbehind)

/-! ### What is not taken -/

theorem ipv4Loop_chars (h : ipv4Loop s seen octets digit = true) : ∀ c ∈ s, c.isDigit = true ∨ c = '.' := by
  induction s generalizing seen octets digit with
  | nil => nofun
  | cons c s ih =>
    rw [ipv4Loop] at h
    split at h
    next hc =>
      split at h
      · cases h
      · exact List.forall_mem_cons.2 ⟨.inl hc, ih h⟩
    next =>
      split at h
      next hc =>
        split at h
        · cases h
        · exact List.forall_mem_cons.2 ⟨.inr hc, ih h⟩
      next => cases h

/-- The characters of literals. -/
def isLiteralChar (c : Char) : Bool := isHex c || c = ':' || c = '.'

theorem ipv6Loop_chars (h : ipv6Loop s st = true) : ∀ c ∈ s, isLiteralChar c = true := by
  induction s generalizing st with
  | nil => nofun
  | cons c s ih =>
    rw [ipv6Loop] at h
    split at h
    next hc =>
      split at h
      · cases h
      · split at h
        · cases h
        · exact List.forall_mem_cons.2 ⟨by simp [isLiteralChar, hc], ih h⟩
    next =>
      split at h
      next hc =>
        refine List.forall_mem_cons.2 ⟨by simp [isLiteralChar, hc], ?_⟩
        split at h
        · cases h
        · split at h
          · exact ih h
          · split at h
            · cases h
            · split at h <;> exact ih h
      next =>
        split at h
        next hc =>
          refine List.forall_mem_cons.2 ⟨by simp [isLiteralChar, hc], fun d hd => ?_⟩
          split at h
          · cases h
          · split at h
            next h4 =>
              rcases ipv4Loop_chars h4 d (List.mem_append_right _ (List.mem_cons_of_mem _ hd)) with hdigit | rfl
              · simp [isLiteralChar, isHex, hdigit]
              · rfl
            next => cases h
        next => cases h

/-- A character of another kind. -/
theorem init_chars (h : cork_ip_init s = true) : ∀ c ∈ s, isLiteralChar c = true := by
  intro c hc
  rcases Bool.or_eq_true_iff.1 h with h4 | h6
  · rcases ipv4Loop_chars h4 c hc with hdigit | rfl
    · simp [isLiteralChar, isHex, hdigit]
    · rfl
  · exact ipv6Loop_chars h6 c hc

/-- Without `::` eight hextets need colons enough. -/
theorem ipv6Loop_count (h : ipv6Loop s st = true) (hdc : st.double_colon_allowed = true) :
    2 ≤ s.count ':' + st.just_saw_colon.toNat ∨ 8 ≤ st.hextets_seen + s.count ':' + 2 := by
  induction s generalizing st with
  | nil =>
    right
    rw [ipv6Loop, ipv6End, hdc] at h
    rw [List.count_nil]
    split at h
    · simp at h
      omega
    · simp at h
      omega
  | cons c s ih =>
    rw [ipv6Loop] at h
    split at h
    next hc =>
      have hne : c ≠ ':' := by
        rintro rfl
        cases hc
      rw [List.count_cons_of_ne hne]
      split at h
      · cases h
      · split at h
        · cases h
        · have := ih h hdc
          dsimp only [Bool.toNat_false] at this
          omega
    next =>
      split at h
      next hc =>
        subst hc
        rw [List.count_cons_self]
        split at h
        · cases h
        · split at h
          next hjust =>
            left
            rw [hjust, Bool.toNat_true]
            omega
          next =>
            split at h
            · cases h
            · split at h
              · have := ih h hdc
                dsimp only [Bool.toNat_true] at this
                omega
              · have := ih h hdc
                dsimp only [Bool.toNat_true] at this
                omega
      next =>
        split at h
        next hc =>
          right
          split at h
          · cases h
          · split at h
            · rw [ipv6End, hdc] at h
              simp at h
              omega
            · cases h
        next => cases h

theorem count_of_init (h : cork_ip_init s = true) : s.count ':' ≠ 1 := by
  intro hone
  rcases Bool.or_eq_true_iff.1 h with h4 | h6
  · have hmem : ':' ∈ s := List.count_pos_iff.1 (by omega)
    rcases ipv4Loop_chars h4 ':' hmem with hdigit | hdot
    · cases hdigit
    · cases hdot
  · have hcount : 2 ≤ s.count ':' + 0 ∨ 8 ≤ 0 + s.count ':' + 2 := ipv6Loop_count h6 rfl
    omega

/-! ### The colons of a literal -/

theorem Octet.colon (o : Octet) : ':' ∉ o.text := fun h => nomatch o.isDigit _ h

theorem V4.colon (a : V4) : ':' ∉ a.text := by
  simp [V4.text, Octet.colon]

/-- The colons between the hextets. -/
theorem count_groups (hs : List Hextet) (tail : Option V4) : width hs tail ≤ (groups hs tail).count ':' + 2 := by
  induction hs with
  | nil => cases tail <;> simp [width]
  | cons h hs ih =>
    have hcons : width (h :: hs) tail = width hs tail + 1 := by
      unfold width
      rw [List.length_cons]
      omega
    have hcolon : width (h :: hs) tail ≤ (h.text ++ ':' :: groups hs tail).count ':' + 2 := by
      rw [List.count_append, List.count_cons_self]
      omega
    cases hs with
    | nil =>
      cases tail with
      | none => simp [width]
      | some a => exact hcolon
    | cons h' hs => exact hcolon

theorem V6.two_colons (a : V6) : 2 ≤ a.text.count ':' := by
  cases a with
  | full hs tail h =>
    have := count_groups hs tail
    show 2 ≤ (groups hs tail).count ':'
    omega
  | compressed hs hs' tail h =>
    rw [V6.text, List.count_append, List.count_cons_self, List.count_cons_self]
    omega

theorem V6.chars (a : V6) {c : Char} (h : c ∈ a.text) : isLiteralChar c = true := ipv6Loop_chars (init_v6 a) c h

end OutlineServer.CorkAddress
