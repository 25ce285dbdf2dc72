import Mathlib.Data.List.Basic
import Mathlib.Data.List.DropRight
import Mathlib.Data.List.Forall2

/-!
# JSON texts

A reader for JSON (`parse`), strict about what may follow the value and about control characters in
strings, and what a writer needs to know about it: `Spells w v` says that the text `w` is read as `v`
wherever it stands, and the rules `Spells.str`, `.num`, `.arr` and `.obj` build a document from its parts.
In the other direction an object that has been read ends in its closing brace (`parse_obj_getLast`), so a
document cut short is not one. A number is its lexeme. An escape `\uXXXX` of half a surrogate pair is
refused.
-/

inductive Json
  | null
  | bool (b : Bool)
  | num (lexeme : List Char)
  | str (s : List Char)
  | arr (vs : List Json)
  | obj (members : List (List Char × Json))

namespace Json

/-! ### Reading -/

def isWs (c : Char) : Bool := c = ' ' ∨ c = '\t' ∨ c = '\n' ∨ c = '\r'

def skipWs (s : List Char) : List Char := s.dropWhile isWs

def isControl (c : Char) : Bool := c.toNat < 0x20

def hexDigit (c : Char) : Option Nat :=
  if '0' ≤ c ∧ c ≤ '9' then some (c.toNat - 48)
  else if 'a' ≤ c ∧ c ≤ 'f' then some (c.toNat - 87)
  else if 'A' ≤ c ∧ c ≤ 'F' then some (c.toNat - 55)
  else none

/-- The character that `\uXXXX` stands for. -/
def hex4 (a b c d : Char) : Option Char := do
  let n := 4096 * (← hexDigit a) + 256 * (← hexDigit b) + 16 * (← hexDigit c) + (← hexDigit d)
  if n.isValidChar then some (Char.ofNat n) else none

def escaped : Char → Option Char
  | '"' => some '"'
  | '\\' => some '\\'
  | '/' => some '/'
  | 'b' => some '\x08'
  | 'f' => some '\x0c'
  | 'n' => some '\n'
  | 'r' => some '\r'
  | 't' => some '\t'
  | _ => none

/-- The string after its opening quote, and the text after its closing one. -/
def string : List Char → Option (List Char × List Char)
  | [] => none
  | '"' :: s => some ([], s)
  | '\\' :: 'u' :: a :: b :: c :: d :: s => do
    let e ← hex4 a b c d
    let r ← string s
    return (e :: r.1, r.2)
  | '\\' :: c :: s => do
    let e ← escaped c
    let r ← string s
    return (e :: r.1, r.2)
  | c :: s =>
    if c = '\\' ∨ isControl c then none
    else do
      let r ← string s
      return (c :: r.1, r.2)

def isNumberChar (c : Char) : Bool := c.isDigit ∨ c = '-' ∨ c = '+' ∨ c = '.' ∨ c = 'e' ∨ c = 'E'

def isExponent : List Char → Bool
  | [] => true
  | c :: s =>
    let s := if s.head? = some '-' ∨ s.head? = some '+' then s.tail else s
    (c = 'e' ∨ c = 'E') ∧ s ≠ [] ∧ s.all Char.isDigit

def isFraction : List Char → Bool
  | '.' :: c :: s => c.isDigit && isExponent (s.dropWhile Char.isDigit)
  | s => isExponent s

def isNumber (s : List Char) : Bool :=
  match if s.head? = some '-' then s.tail else s with
  | [] => false
  | '0' :: s => isFraction s
  | c :: s => c.isDigit && isFraction (s.dropWhile Char.isDigit)

def atom : List Char → Option (Json × List Char)
  | 'n' :: 'u' :: 'l' :: 'l' :: s => some (.null, s)
  | 't' :: 'r' :: 'u' :: 'e' :: s => some (.bool true, s)
  | 'f' :: 'a' :: 'l' :: 's' :: 'e' :: s => some (.bool false, s)
  | s =>
    if isNumber (s.takeWhile isNumberChar) then
      some (.num (s.takeWhile isNumberChar), s.dropWhile isNumberChar)
    else none

mutual

/-- A value at the start of the text, and the text after it. -/
def value : Nat → List Char → Option (Json × List Char)
  | 0, _ => none
  | n + 1, s =>
    match skipWs s with
    | '"' :: s => (string s).map fun r => (.str r.1, r.2)
    | '[' :: s =>
      match skipWs s with
      | ']' :: s => some (.arr [], s)
      | s => (elements n s).map fun r => (.arr r.1, r.2)
    | '\x7b' :: s =>
      match skipWs s with
      | '\x7d' :: s => some (.obj [], s)
      | s => (members n s).map fun r => (.obj r.1, r.2)
    | s => atom s

/-- The elements of an array up to its closing bracket. -/
def elements : Nat → List Char → Option (List Json × List Char)
  | 0, _ => none
  | n + 1, s =>
    (value n s).bind fun v =>
      match skipWs v.2 with
      | ',' :: s => (elements n s).map fun r => (v.1 :: r.1, r.2)
      | ']' :: s => some ([v.1], s)
      | _ => none

/-- The members of an object up to its closing brace. -/
def members : Nat → List Char → Option (List (List Char × Json) × List Char)
  | 0, _ => none
  | n + 1, s =>
    match skipWs s with
    | '"' :: s =>
      (string s).bind fun k =>
        match skipWs k.2 with
        | ':' :: s =>
          (value n s).bind fun v =>
            match skipWs v.2 with
            | ',' :: s => (members n s).map fun r => ((k.1, v.1) :: r.1, r.2)
            | '\x7d' :: s => some ([(k.1, v.1)], s)
            | _ => none
        | _ => none
    | _ => none

end

/-- The value that the whole text is, if it is one. -/
def parse (s : List Char) : Option Json :=
  match value (s.length + 1) s with
  | some (v, s) => if skipWs s = [] then some v else none
  | none => none

/-! ### Strings -/

/-- A string as a writer puts it between quotes that escapes the quote and the backslash. -/
def escape : List Char → List Char
  | [] => []
  | c :: s => if c = '"' ∨ c = '\\' then '\\' :: c :: escape s else c :: escape s

theorem string_short {c e : Char} (h : escaped c = some e) (s : List Char) :
    string ('\\' :: c :: s) = (string s).map fun r => (e :: r.1, r.2) := by
  have hu : c ≠ 'u' := by
    rintro rfl
    cases h
  rw [string]
  · rw [h]
    cases string s <;> rfl
  · intro _ _ _ _ _ hc
    exact absurd hc hu

theorem string_escaped {c : Char} (h : c = '"' ∨ c = '\\') (s : List Char) :
    string ('\\' :: c :: s) = (string s).map fun r => (c :: r.1, r.2) :=
  string_short (by rcases h with rfl | rfl <;> rfl) s

theorem string_plain {c : Char} (hq : c ≠ '"') (hb : c ≠ '\\') (hc : isControl c = false) (s : List Char) :
    string (c :: s) = (string s).map fun r => (c :: r.1, r.2) := by
  rw [string]
  · simp only [hb, hc, Bool.false_eq_true, or_self, ↓reduceIte, Option.pure_def, Option.bind_eq_bind]
    cases string s <;> rfl
  · exact hq
  · rintro _ _ _ _ _ rfl
    exact absurd rfl hb
  · rintro _ _ rfl
    exact absurd rfl hb

theorem string_control {c : Char} (hc : isControl c = true) (s : List Char) : string (c :: s) = none := by
  have hq : c ≠ '"' := by rintro rfl; simp [isControl] at hc
  have hb : c ≠ '\\' := by rintro rfl; simp [isControl] at hc
  rw [string]
  · simp [hc]
  · exact hq
  · rintro _ _ _ _ _ rfl
    exact absurd rfl hb
  · rintro _ _ rfl
    exact absurd rfl hb

/-- An escaped string without control characters is read back. -/
theorem string_escape {s : List Char} (h : ∀ c ∈ s, isControl c = false) (r : List Char) :
    string (escape s ++ '"' :: r) = some (s, r) := by
  induction s with
  | nil => rw [escape, List.nil_append, string]
  | cons c s ih =>
    have hs := ih fun d hd => h d (List.mem_cons_of_mem _ hd)
    rw [escape]
    split_ifs with hc
    · rw [List.cons_append, List.cons_append, string_escaped hc, hs]
      rfl
    · obtain ⟨hq, hb⟩ := not_or.1 hc
      rw [List.cons_append, string_plain hq hb (h c List.mem_cons_self), hs]
      rfl

/-- One with a control character is not. -/
theorem string_escape_control {s : List Char} (h : ∃ c ∈ s, isControl c = true) (r : List Char) :
    string (escape s ++ r) = none := by
  induction s with
  | nil =>
    obtain ⟨c, hc, -⟩ := h
    cases hc
  | cons c s ih =>
    rw [escape]
    cases hctl : isControl c with
    | true =>
      have hc : ¬ (c = '"' ∨ c = '\\') := by rintro (rfl | rfl) <;> simp [isControl] at hctl
      rw [if_neg hc, List.cons_append, string_control hctl]
    | false =>
      have hs : ∃ d ∈ s, isControl d = true := by
        obtain ⟨d, hd, hdc⟩ := h
        rcases List.mem_cons.1 hd with rfl | hd
        · rw [hctl] at hdc
          cases hdc
        · exact ⟨d, hd, hdc⟩
      split_ifs with hc
      · rw [List.cons_append, List.cons_append, string_escaped hc, ih hs]
        rfl
      · obtain ⟨hq, hb⟩ := not_or.1 hc
        rw [List.cons_append, string_plain hq hb hctl, ih hs]
        rfl

theorem hex4_ne_quote {a b c d e : Char} (h : hex4 a b c d = some e) : a ≠ '"' ∧ b ≠ '"' ∧ c ≠ '"' ∧ d ≠ '"' := by
  have hq : hexDigit '"' = none := rfl
  simp only [hex4, Option.bind_eq_bind, Option.bind_eq_some_iff] at h
  obtain ⟨_, ha, _, hb, _, hc, _, hd, -⟩ := h
  refine ⟨?_, ?_, ?_, ?_⟩
  all_goals
    rintro rfl
    simp [hq] at *

/-- A string put between quotes as it is, `b`, is read as no more than `b`, and as `b` only if it needs no
escape; or `b` ends in a backslash and the string that is read ends after the quote. -/
theorem string_raw {b t : List Char} {r : List Char × List Char}
    (h : string (b ++ '"' :: ',' :: '"' :: t) = some r) :
    (r.1.length ≤ b.length ∧ (r.1.length = b.length → ∀ c ∈ b, c ≠ '"' ∧ c ≠ '\\' ∧ isControl c = false)) ∨
      ∃ b' a, b = b' ++ ['\\'] ∧ r.1 = a ++ ['"', ','] ∧ a.length ≤ b'.length := by
  generalize hs : b ++ '"' :: ',' :: '"' :: t = s at h
  induction s using string.induct generalizing b r with
  | case1 => simp [string] at h
  | case2 s =>
    rw [string] at h
    cases h
    refine .inl ⟨Nat.zero_le _, fun hlen c hc => ?_⟩
    rw [List.length_eq_zero_iff.1 hlen.symm] at hc
    cases hc
  | case3 x₁ x₂ x₃ x₄ s ih =>
    simp only [string, Option.pure_def, Option.bind_eq_bind, Option.bind_eq_some_iff, Option.some.injEq] at h
    obtain ⟨e, he, r', hr', rfl⟩ := h
    obtain ⟨h₁, h₂, h₃, h₄⟩ := hex4_ne_quote he
    -- the four digits are in `b`
    obtain ⟨b₁, rfl⟩ : ∃ b₁, b = '\\' :: 'u' :: x₁ :: x₂ :: x₃ :: x₄ :: b₁ := by
      rcases b with _ | ⟨_, _ | ⟨_, _ | ⟨_, _ | ⟨_, _ | ⟨_, _ | ⟨_, b⟩⟩⟩⟩⟩⟩
      all_goals grind
    simp only [List.cons_append, List.cons.injEq, true_and] at hs
    rcases ih hs hr' with ⟨hle, -⟩ | ⟨b', a, rfl, ha, hle⟩
    · refine .inl ⟨?_, fun hlen => ?_⟩
      · simp only [List.length_cons]; omega
      · simp only [List.length_cons] at hlen; omega
    · refine .inr ⟨'\\' :: 'u' :: x₁ :: x₂ :: x₃ :: x₄ :: b', e :: a, rfl, by rw [ha]; rfl, ?_⟩
      simp only [List.length_cons]; omega
  | case4 x s hx ih =>
    rw [string] at h
    · simp only [Option.pure_def, Option.bind_eq_bind, Option.bind_eq_some_iff, Option.some.injEq] at h
      obtain ⟨e, he, r', hr', rfl⟩ := h
      rcases b with _ | ⟨y, _ | ⟨z, b⟩⟩
      · simp at hs
      · -- the backslash escapes the closing quote
        simp only [List.cons_append, List.nil_append, List.cons.injEq] at hs
        obtain ⟨rfl, rfl, rfl⟩ := hs
        rw [string_plain (by decide) (by decide) (by decide), string] at hr'
        cases he
        cases hr'
        exact .inr ⟨[], [], rfl, rfl, Nat.le_refl _⟩
      · simp only [List.cons_append, List.cons.injEq] at hs
        obtain ⟨rfl, rfl, hs⟩ := hs
        rcases ih hs hr' with ⟨hle, -⟩ | ⟨b', a, rfl, ha, hle⟩
        · refine .inl ⟨?_, fun hlen => ?_⟩
          · simp only [List.length_cons]; omega
          · simp only [List.length_cons] at hlen; omega
        · refine .inr ⟨_ :: _ :: b', e :: a, rfl, by rw [ha]; rfl, ?_⟩
          simp only [List.length_cons]; omega
    · exact hx
  | case5 x s hq hu hb hc =>
    rw [string, if_pos hc] at h
    · cases h
    all_goals assumption
  | case6 x s hq hu hb hc ih =>
    rw [string, if_neg hc] at h
    · simp only [Option.pure_def, Option.bind_eq_bind, Option.bind_eq_some_iff, Option.some.injEq] at h
      obtain ⟨r', hr', rfl⟩ := h
      obtain ⟨hxb, hxc⟩ := not_or.1 hc
      cases b with
      | nil => exact absurd (List.cons.inj hs).1.symm hq
      | cons y b =>
        simp only [List.cons_append, List.cons.injEq] at hs
        obtain ⟨rfl, hs⟩ := hs
        rcases ih hs hr' with ⟨hle, hpl⟩ | ⟨b', a, rfl, ha, hle⟩
        · refine .inl ⟨by simpa using hle, fun hlen c hmem => ?_⟩
          rcases List.mem_cons.1 hmem with rfl | hmem
          · exact ⟨hq, hxb, by simpa using hxc⟩
          · exact hpl (by simpa using hlen) c hmem
        · refine .inr ⟨_ :: b', y :: a, rfl, by rw [ha]; rfl, ?_⟩
          simp only [List.length_cons]; omega
    all_goals assumption

theorem length_escape (s : List Char) :
    (escape s).length = s.length + s.countP fun c => c = '"' ∨ c = '\\' := by
  induction s with
  | nil => rfl
  | cons c s ih =>
    by_cases hc : c = '"' ∨ c = '\\'
    · rw [escape, if_pos hc, List.countP_cons_of_pos (by simpa using hc), List.length_cons, List.length_cons,
        List.length_cons, ih]
      omega
    · rw [escape, if_neg hc, List.countP_cons_of_neg (by simpa using hc), List.length_cons, List.length_cons, ih]
      omega

/-! ### Writing -/

/-- The text does not go on with a number. -/
def Stops (r : List Char) : Prop := ∀ c ∈ r.head?, isNumberChar c = false

/-- The text `w` is read as the value `v` wherever it stands. -/
def Spells (w : List Char) (v : Json) : Prop :=
  ∀ n r, w.length ≤ n → Stops r → value n (w ++ r) = some (v, r)

def commaSep : List (List Char) → List Char
  | [] => []
  | [w] => w
  | w :: ws => w ++ ',' :: commaSep ws

theorem skipWs_cons {c : Char} (h : isWs c = false) (s : List Char) : skipWs (c :: s) = c :: s :=
  List.dropWhile_cons_of_neg (by simp [h])

theorem stops_cons {c : Char} (h : isNumberChar c = false) (r : List Char) : Stops (c :: r) := by
  intro d hd
  cases hd
  exact h

/-- The text `q` between quotes is read as the string `s`. -/
def Quotes (q s : List Char) : Prop := ∀ r, string (q ++ '"' :: r) = some (s, r)

theorem quotes_escape {s : List Char} (h : ∀ c ∈ s, isControl c = false) : Quotes (escape s) s := string_escape h

theorem Spells.quoted {q s : List Char} (h : Quotes q s) : Spells ('"' :: q ++ ['"']) (.str s) := by
  intro n r hn _
  obtain ⟨m, rfl⟩ : ∃ m, n = m + 1 := ⟨n - 1, by simp only [List.cons_append, List.length_cons] at hn; omega⟩
  simp only [List.cons_append, List.append_assoc, List.nil_append, value, skipWs_cons (c := '"') rfl, h r,
    Option.map_some]

theorem Spells.str {s : List Char} (h : ∀ c ∈ s, isControl c = false) :
    Spells ('"' :: escape s ++ ['"']) (.str s) := .quoted (quotes_escape h)

/-- The number `n` in decimal. -/
def nat (n : Nat) : Json := .num n.repr.toList

theorem digits_head (n : Nat) : ∃ c s, n.repr.toList = c :: s ∧ (c = '0' → s = []) := by
  rw [Nat.toList_repr]
  induction n using Nat.strong_induction_on with
  | _ n ih =>
    by_cases hn : n < 10
    · exact ⟨n.digitChar, [], Nat.toDigits_of_lt_base hn, fun _ => rfl⟩
    · obtain ⟨c, s, hs, h0⟩ := ih (n / 10) (Nat.div_lt_self (by omega) (by omega))
      refine ⟨c, s ++ [(n % 10).digitChar], ?_, ?_⟩
      · rw [Nat.toDigits_of_base_le (by omega) (by omega), hs, List.cons_append]
      · -- a quotient that is not zero does not start with the digit zero
        rintro rfl
        have hq : Nat.toDigits 10 (n / 10) = Nat.toDigits 10 0 := by rw [hs, h0 rfl, Nat.toDigits_zero]
        have hz := congrArg (fun l => Nat.ofDigitChars 10 l 0) hq
        simp only [Nat.ofDigitChars_ten_toDigits] at hz
        omega

theorem isNumber_nat (n : Nat) : isNumber n.repr.toList = true := by
  obtain ⟨c, s, hs, h0⟩ := digits_head n
  have hd : ∀ d ∈ c :: s, d.isDigit = true := by
    intro d hd
    rw [← hs, Nat.toList_repr] at hd
    exact Nat.isDigit_of_mem_toDigits (by omega) (by omega) hd
  have hc := hd c List.mem_cons_self
  have hm : c ≠ '-' := by rintro rfl; cases hc
  have hdrop : s.dropWhile Char.isDigit = [] :=
    List.dropWhile_eq_nil_iff.2 fun d hds => hd d (List.mem_cons_of_mem _ hds)
  rw [hs, isNumber, List.head?_cons, if_neg (fun h => hm (Option.some.inj h))]
  by_cases hz : c = '0'
  · subst hz
    rw [h0 rfl]
    rfl
  · split
    · rename_i h
      cases h
    · rename_i h
      exact absurd (List.cons.inj h).1 hz
    · rename_i h
      obtain ⟨rfl, rfl⟩ := List.cons.inj h
      rw [hc, hdrop]
      rfl

theorem isWs_of_digit {c : Char} (h : c.isDigit = true) : isWs c = false := by
  simp only [isWs, decide_eq_false_iff_not, not_or]
  refine ⟨?_, ?_, ?_, ?_⟩
  all_goals
    rintro rfl
    cases h

theorem isNumber_head {c : Char} {s : List Char} (h : isNumber (c :: s) = true) : c.isDigit = true ∨ c = '-' := by
  rw [isNumber, List.head?_cons] at h
  by_cases hm : c = '-'
  · exact .inr hm
  · rw [if_neg (fun he => hm (Option.some.inj he))] at h
    split at h
    · cases h
    · rename_i h'
      rw [(List.cons.inj h').1]
      exact .inl rfl
    · rename_i h'
      rw [(List.cons.inj h').1]
      exact .inl (Bool.and_eq_true_iff.1 h).1

/-- A number as a lexeme. -/
structure IsNumber (l : List Char) : Prop where
  number : isNumber l = true
  chars : ∀ c ∈ l, isNumberChar c = true

theorem Spells.num {l : List Char} (h : IsNumber l) : Spells l (.num l) := by
  intro m r hm hr
  have hnum := h.number
  have hall := h.chars
  obtain ⟨c, s, rfl⟩ : ∃ c s, l = c :: s := List.exists_cons_of_ne_nil (by rintro rfl; cases hnum)
  have hc := isNumber_head hnum
  obtain ⟨m, rfl⟩ : ∃ k, m = k + 1 := ⟨m - 1, by simp only [List.length_cons] at hm; omega⟩
  have htake : (c :: s ++ r).takeWhile isNumberChar = c :: s := by
    rw [List.takeWhile_append_of_pos hall]
    cases r with
    | nil => simp
    | cons d r => simp [hr d rfl]
  have hdrop : (c :: s ++ r).dropWhile isNumberChar = r := by
    rw [List.dropWhile_append_of_pos hall]
    cases r with
    | nil => rfl
    | cons d r => simp [hr d rfl]
  have hatom : atom (c :: s ++ r) = some (.num (c :: s), r) := by
    rw [atom, htake, hdrop, if_pos hnum]
    all_goals
      rintro _ h
      rw [(List.cons.inj h).1] at hc
      rcases hc with hc | hc <;> cases hc
  have hws : isWs c = false := by
    rcases hc with hc | rfl
    · exact isWs_of_digit hc
    · rfl
  rw [List.cons_append] at hatom ⊢
  rw [value, skipWs_cons hws]
  split
  any_goals
    rename_i h
    rw [(List.cons.inj h).1] at hc
    rcases hc with hc | hc <;> cases hc
  exact hatom

theorem IsNumber.nat (n : Nat) : IsNumber n.repr.toList := by
  refine ⟨isNumber_nat n, fun d hd => ?_⟩
  rw [Nat.toList_repr] at hd
  have hdig := Nat.isDigit_of_mem_toDigits (by omega) (by omega) hd
  simp [isNumberChar, hdig]

theorem Spells.nat (n : Nat) : Spells n.repr.toList (.nat n) := .num (.nat n)

theorem commaSep_cons (w : List Char) {ws : List (List Char)} (h : ws ≠ []) :
    commaSep (w :: ws) = w ++ ',' :: commaSep ws := by
  cases ws with
  | nil => exact absurd rfl h
  | cons => rfl

theorem flatMap_comma {ws : List (List Char)} (h : ws ≠ []) : ws.flatMap (· ++ [',']) = commaSep ws ++ [','] := by
  induction ws with
  | nil => exact absurd rfl h
  | cons w ws ih =>
    cases ws with
    | nil => simp [commaSep]
    | cons w' ws =>
      rw [List.flatMap_cons, ih (List.cons_ne_nil w' ws), commaSep_cons w (List.cons_ne_nil w' ws)]
      simp

/-- White space. -/
def Blank (b : List Char) : Prop := ∀ c ∈ b, isWs c = true

theorem blank_nil : Blank [] := by simp [Blank]

theorem skipWs_blank {b : List Char} (h : Blank b) (s : List Char) : skipWs (b ++ s) = skipWs s :=
  List.dropWhile_append_of_pos h

theorem stops_blank {b : List Char} (h : Blank b) {c : Char} (hc : isNumberChar c = false) (r : List Char) :
    Stops (b ++ c :: r) := by
  cases b with
  | nil => exact stops_cons hc r
  | cons d b =>
    refine stops_cons ?_ _
    have hd := h d List.mem_cons_self
    simp only [isWs, decide_eq_true_eq] at hd
    rcases hd with rfl | rfl | rfl | rfl <;> rfl

theorem Spells.blank {b w : List Char} {v : Json} (hb : Blank b) (h : Spells w v) : Spells (b ++ w) v := by
  intro n r hn hr
  have hw := h n r (by rw [List.length_append] at hn; omega) hr
  cases n with
  | zero =>
    rw [value] at hw
    cases hw
  | succ n => rwa [value, List.append_assoc, skipWs_blank hb, ← value]

theorem elements_commaSep {ws : List (List Char)} {vs : List Json} (h : List.Forall₂ Spells ws vs)
    (hne : vs ≠ []) {n : Nat} (hn : (commaSep ws).length < n) {b : List Char} (hb : Blank b) (r : List Char) :
    elements n (commaSep ws ++ (b ++ ']' :: r)) = some (vs, r) := by
  induction h generalizing n with
  | nil => exact absurd rfl hne
  | @cons w v ws vs hw h ih =>
    obtain ⟨m, rfl⟩ : ∃ m, n = m + 1 := ⟨n - 1, by omega⟩
    cases h with
    | nil =>
      rw [elements, commaSep, hw m _ (Nat.lt_succ_iff.1 hn) (stops_blank hb rfl r), Option.bind_some,
        skipWs_blank hb, skipWs_cons rfl]
      rfl
    | cons hw' h' =>
      rw [commaSep_cons w (by simp), List.length_append, List.length_cons] at hn
      rw [elements, commaSep_cons w (by simp), List.append_assoc, List.cons_append,
        hw m _ (by omega) (stops_cons rfl _), Option.bind_some, skipWs_cons rfl]
      simp only
      rw [ih (by simp) (by omega)]
      rfl

/-- An array with white space before its closing bracket and its elements. -/
theorem Spells.arr_blank {ws : List (List Char)} {vs : List Json} (h : List.Forall₂ Spells ws vs)
    (hws : ∀ w ∈ ws, ∃ c t, skipWs w = c :: t ∧ c ≠ ']') {b : List Char} (hb : Blank b) :
    Spells ('[' :: commaSep ws ++ (b ++ [']'])) (.arr vs) := by
  intro n r hn _
  obtain ⟨m, rfl⟩ : ∃ m, n = m + 1 := ⟨n - 1, by simp only [List.cons_append, List.length_cons] at hn; omega⟩
  simp only [List.length_append, List.length_cons, List.length_nil] at hn
  simp only [List.cons_append, List.append_assoc, List.nil_append]
  rw [value, skipWs_cons rfl]
  simp only
  cases h with
  | nil => simp only [commaSep, List.nil_append, skipWs_blank hb, skipWs_cons (c := ']') rfl]
  | @cons w v ws vs hw h =>
    have hel := elements_commaSep (.cons hw h) (by simp) (n := m) (by omega) hb r
    -- the first element does not start with the bracket
    obtain ⟨c, t, hc, hne⟩ := hws w List.mem_cons_self
    have hskip : ∀ u, skipWs (w ++ u) = c :: (t ++ u) := by
      intro u
      rw [skipWs, List.dropWhile_append, if_neg (by rw [← skipWs, hc]; simp), ← skipWs, hc, List.cons_append]
    obtain ⟨u, hu⟩ : ∃ u, commaSep (w :: ws) = w ++ u := by
      cases ws with
      | nil => exact ⟨[], by simp [commaSep]⟩
      | cons w' ws => exact ⟨_, rfl⟩
    have hval : elements m (c :: (t ++ (u ++ (b ++ ']' :: r)))) = some (v :: vs, r) := by
      rw [hu, List.append_assoc] at hel
      cases m with
      | zero =>
        rw [elements] at hel
        cases hel
      | succ m =>
        rw [elements] at hel ⊢
        cases m with
        | zero => simp [value] at hel
        | succ m =>
          rw [value, hskip] at hel
          have hcs : isWs c = false := by
            have hdrop : List.dropWhile isWs w = c :: t := hc
            have hhead := List.head_dropWhile_not isWs (l := w) (by rw [hdrop]; simp)
            simpa [hdrop] using hhead
          rw [value, skipWs_cons hcs]
          exact hel
    rw [hu, List.append_assoc, hskip]
    split
    · rename_i h
      exact absurd (List.cons.inj h).1 hne
    · rw [hval]
      rfl

theorem Spells.arr {ws : List (List Char)} {vs : List Json} (h : List.Forall₂ Spells ws vs)
    (hws : ∀ w ∈ ws, ∀ c ∈ w.head?, isWs c = false ∧ c ≠ ']') (hne : ∀ w ∈ ws, w ≠ []) :
    Spells ('[' :: commaSep ws ++ [']']) (.arr vs) := by
  refine Spells.arr_blank h (fun w hw => ?_) blank_nil
  obtain ⟨c, t, rfl⟩ := List.exists_cons_of_ne_nil (hne w hw)
  obtain ⟨hc, hb⟩ := hws _ hw c rfl
  exact ⟨c, t, skipWs_cons hc t, hb⟩

/-- A member of an object as a writer puts it. -/
def member (k w : List Char) : List Char := '"' :: escape k ++ '"' :: ':' :: w

def SpellsMember (m : List Char) (p : List Char × Json) : Prop :=
  (∀ c ∈ p.1, isControl c = false) ∧ ∃ w, m = member p.1 w ∧ Spells w p.2

/-- A member with white space before it: the text of its key and of its value. -/
def SpellsPair (m : List Char) (p : List Char × Json) : Prop :=
  ∃ b q w, m = b ++ '"' :: (q ++ '"' :: ':' :: w) ∧ Blank b ∧ Quotes q p.1 ∧ Spells w p.2

theorem SpellsMember.pair {m : List Char} {p : List Char × Json} (h : SpellsMember m p) : SpellsPair m p := by
  obtain ⟨hk, w, rfl, hw⟩ := h
  exact ⟨[], _, w, rfl, blank_nil, quotes_escape hk, hw⟩

theorem members_pair {b q k : List Char} (hb : Blank b) (hq : Quotes q k) (n : Nat) (w s : List Char) :
    members (n + 1) (b ++ '"' :: (q ++ '"' :: ':' :: w) ++ s) = (value n (w ++ s)).bind fun v =>
      match skipWs v.2 with
      | ',' :: s => (members n s).map fun r => ((k, v.1) :: r.1, r.2)
      | '\x7d' :: s => some ([(k, v.1)], s)
      | _ => none := by
  simp only [List.cons_append, List.append_assoc, members, skipWs_blank hb, skipWs_cons (c := '"') rfl,
    skipWs_cons (c := ':') rfl, hq _, Option.bind_some]

theorem members_member {k : List Char} (hk : ∀ c ∈ k, isControl c = false) (n : Nat) (w s : List Char) :
    members (n + 1) (member k w ++ s) = (value n (w ++ s)).bind fun v =>
      match skipWs v.2 with
      | ',' :: s => (members n s).map fun r => ((k, v.1) :: r.1, r.2)
      | '\x7d' :: s => some ([(k, v.1)], s)
      | _ => none := members_pair blank_nil (quotes_escape hk) n w s

theorem members_commaSep {ms : List (List Char)} {ps : List (List Char × Json)}
    (h : List.Forall₂ SpellsPair ms ps) (hne : ps ≠ []) {n : Nat} (hn : (commaSep ms).length < n)
    {b : List Char} (hb : Blank b) (r : List Char) :
    members n (commaSep ms ++ (b ++ '\x7d' :: r)) = some (ps, r) := by
  induction h generalizing n with
  | nil => exact absurd rfl hne
  | @cons m p ms ps hm h ih =>
    obtain ⟨k, rfl⟩ : ∃ k, n = k + 1 := ⟨n - 1, by omega⟩
    obtain ⟨b', q, w, rfl, hb', hq, hw⟩ := hm
    have hlen : w.length ≤ (b' ++ '"' :: (q ++ '"' :: ':' :: w)).length := by
      simp only [List.length_append, List.length_cons]
      omega
    cases h with
    | nil =>
      rw [commaSep] at hn ⊢
      rw [members_pair hb' hq, hw k _ (by omega) (stops_blank hb rfl r), Option.bind_some, skipWs_blank hb,
        skipWs_cons rfl]
      rfl
    | cons hm' h' =>
      rw [commaSep_cons _ (by simp), List.length_append, List.length_cons] at hn
      rw [commaSep_cons _ (by simp), List.append_assoc, members_pair hb' hq, List.cons_append,
        hw k _ (by omega) (stops_cons rfl _), Option.bind_some, skipWs_cons rfl]
      simp only
      rw [ih (by simp) (by omega)]
      rfl

/-- An object with white space before its closing brace and its members. -/
theorem Spells.obj_blank {ms : List (List Char)} {ps : List (List Char × Json)}
    (h : List.Forall₂ SpellsPair ms ps) {b : List Char} (hb : Blank b) :
    Spells ('\x7b' :: commaSep ms ++ (b ++ ['\x7d'])) (.obj ps) := by
  intro n r hn _
  obtain ⟨k, rfl⟩ : ∃ k, n = k + 1 := ⟨n - 1, by simp only [List.cons_append, List.length_cons] at hn; omega⟩
  simp only [List.length_append, List.length_cons, List.length_nil] at hn
  simp only [List.cons_append, List.append_assoc, List.nil_append]
  rw [value, skipWs_cons rfl]
  simp only
  cases h with
  | nil => simp only [commaSep, List.nil_append, skipWs_blank hb, skipWs_cons (c := '\x7d') rfl]
  | @cons m p ms ps hm h =>
    have hmem := members_commaSep (.cons hm h) (by simp) (n := k) (by omega) hb r
    obtain ⟨b', t, hb', ht⟩ : ∃ b' t, Blank b' ∧ commaSep (m :: ms) = b' ++ '"' :: t := by
      obtain ⟨b', q, w, rfl, hb', -, -⟩ := hm
      cases ms with
      | nil => exact ⟨b', _, hb', rfl⟩
      | cons m' ms => exact ⟨b', _, hb', by rw [commaSep_cons _ (by simp), List.append_assoc, List.cons_append]⟩
    have hval : members k ('"' :: (t ++ (b ++ '\x7d' :: r))) = some (p :: ps, r) := by
      rw [ht, List.append_assoc, List.cons_append] at hmem
      cases k with
      | zero =>
        rw [members] at hmem
        cases hmem
      | succ k =>
        rw [members, skipWs_blank hb'] at hmem
        rw [members]
        exact hmem
    rw [ht, List.append_assoc, List.cons_append, skipWs_blank hb', skipWs_cons rfl]
    change Option.map _ (members k ('"' :: (t ++ (b ++ '\x7d' :: r)))) = _
    rw [hval]
    rfl

theorem Spells.obj {ms : List (List Char)} {ps : List (List Char × Json)}
    (h : List.Forall₂ SpellsMember ms ps) : Spells ('\x7b' :: commaSep ms ++ ['\x7d']) (.obj ps) :=
  Spells.obj_blank (h.imp fun _ _ => SpellsMember.pair) blank_nil

theorem parse_of_spells {w : List Char} {v : Json} (h : Spells w v) {r : List Char} (hr : skipWs r = [])
    (hs : Stops r) : parse (w ++ r) = some v := by
  rw [parse, h _ r (by simp only [List.length_append]; omega) hs]
  simp only [hr, ↓reduceIte]

/-! ### What an object ends in -/

theorem skipWs_suffix (s : List Char) : skipWs s <:+ s := List.dropWhile_suffix _

theorem skipWs_suffix_of_cons {s t : List Char} {c : Char} (h : skipWs s = c :: t) : t <:+ s :=
  ((List.suffix_cons c t).trans (h ▸ List.suffix_rfl)).trans (skipWs_suffix s)

theorem string_suffix {s : List Char} {r : List Char × List Char} (h : string s = some r) : r.2 <:+ s := by
  induction s using string.induct generalizing r with
  | case1 => simp [string] at h
  | case2 s =>
    simp only [string, Option.some.injEq] at h
    subst h
    exact List.suffix_cons _ _
  | case3 a b c d s ih =>
    simp only [string, Option.pure_def, Option.bind_eq_bind, Option.bind_eq_some_iff, Option.some.injEq] at h
    obtain ⟨e, -, r', hr', rfl⟩ := h
    exact (ih hr').trans (List.suffix_append ['\\', 'u', a, b, c, d] s)
  | case4 c s hc ih =>
    rw [string] at h
    · simp only [Option.pure_def, Option.bind_eq_bind, Option.bind_eq_some_iff, Option.some.injEq] at h
      obtain ⟨e, -, r', hr', rfl⟩ := h
      exact (ih hr').trans (List.suffix_append ['\\', c] s)
    · exact hc
  | case5 c s hq hu hb hc =>
    rw [string, if_pos hc] at h
    · cases h
    all_goals assumption
  | case6 c s hq hu hb hc ih =>
    rw [string, if_neg hc] at h
    · simp only [Option.pure_def, Option.bind_eq_bind, Option.bind_eq_some_iff, Option.some.injEq] at h
      obtain ⟨r', hr', rfl⟩ := h
      exact (ih hr').trans (List.suffix_cons c s)
    all_goals assumption

theorem atom_suffix {s : List Char} {r : Json × List Char} (h : atom s = some r) :
    r.2 <:+ s ∧ ∀ ps, r.1 ≠ .obj ps := by
  unfold atom at h
  split at h
  · cases h
    exact ⟨List.suffix_append ['n', 'u', 'l', 'l'] _, by simp⟩
  · cases h
    exact ⟨List.suffix_append ['t', 'r', 'u', 'e'] _, by simp⟩
  · cases h
    exact ⟨List.suffix_append ['f', 'a', 'l', 's', 'e'] _, by simp⟩
  · split at h
    · cases h
      exact ⟨List.dropWhile_suffix _, by simp⟩
    · cases h

/-- What is left after a value is an end of the text; an object is followed by it after its brace. -/
structure Leaves (n : Nat) : Prop where
  value : ∀ {s r}, value n s = some r → r.2 <:+ s ∧ ∀ ps, r.1 = .obj ps → '\x7d' :: r.2 <:+ s
  elements : ∀ {s r}, elements n s = some r → r.2 <:+ s
  members : ∀ {s r}, members n s = some r → '\x7d' :: r.2 <:+ s

theorem Leaves.value_succ {n : Nat} (h : Leaves n) {s : List Char} {r : Json × List Char}
    (hr : Json.value (n + 1) s = some r) : r.2 <:+ s ∧ ∀ ps, r.1 = .obj ps → '\x7d' :: r.2 <:+ s := by
  rw [Json.value] at hr
  split at hr
  · rename_i s₁ hs
    obtain ⟨a, ha, rfl⟩ := Option.map_eq_some_iff.1 hr
    exact ⟨(string_suffix ha).trans (skipWs_suffix_of_cons hs), by simp⟩
  · rename_i s₁ hs
    split at hr
    · rename_i s₂ hs₂
      cases hr
      exact ⟨(skipWs_suffix_of_cons hs₂).trans (skipWs_suffix_of_cons hs), by simp⟩
    · obtain ⟨a, ha, rfl⟩ := Option.map_eq_some_iff.1 hr
      exact ⟨((h.elements ha).trans (skipWs_suffix s₁)).trans (skipWs_suffix_of_cons hs), by simp⟩
  · rename_i s₁ hs
    have hsuf : '\x7d' :: r.2 <:+ s := by
      split at hr
      · rename_i s₂ hs₂
        cases hr
        exact (hs₂ ▸ skipWs_suffix s₁).trans (skipWs_suffix_of_cons hs)
      · obtain ⟨a, ha, rfl⟩ := Option.map_eq_some_iff.1 hr
        exact ((h.members ha).trans (skipWs_suffix s₁)).trans (skipWs_suffix_of_cons hs)
    exact ⟨(List.suffix_cons _ _).trans hsuf, fun _ _ => hsuf⟩
  · obtain ⟨hsuf, hobj⟩ := atom_suffix hr
    exact ⟨hsuf.trans (skipWs_suffix s), fun ps hps => absurd hps (hobj ps)⟩

theorem Leaves.elements_succ {n : Nat} (h : Leaves n) {s : List Char} {r : List Json × List Char}
    (hr : Json.elements (n + 1) s = some r) : r.2 <:+ s := by
  rw [Json.elements] at hr
  obtain ⟨v, hv, hr⟩ := Option.bind_eq_some_iff.1 hr
  have hvs := (h.value hv).1
  split at hr
  · rename_i s₁ hs
    obtain ⟨a, ha, rfl⟩ := Option.map_eq_some_iff.1 hr
    exact ((h.elements ha).trans (skipWs_suffix_of_cons hs)).trans hvs
  · rename_i s₁ hs
    cases hr
    exact (skipWs_suffix_of_cons hs).trans hvs
  · cases hr

theorem Leaves.members_succ {n : Nat} (h : Leaves n) {s : List Char} {r : List (List Char × Json) × List Char}
    (hr : Json.members (n + 1) s = some r) : '\x7d' :: r.2 <:+ s := by
  rw [Json.members] at hr
  split at hr
  · rename_i s₁ hs
    obtain ⟨k, hk, hr⟩ := Option.bind_eq_some_iff.1 hr
    have hks := (string_suffix hk).trans (skipWs_suffix_of_cons hs)
    split at hr
    · rename_i s₂ hs₂
      obtain ⟨v, hv, hr⟩ := Option.bind_eq_some_iff.1 hr
      have hvs := ((h.value hv).1.trans (skipWs_suffix_of_cons hs₂)).trans hks
      split at hr
      · rename_i s₃ hs₃
        obtain ⟨a, ha, rfl⟩ := Option.map_eq_some_iff.1 hr
        exact ((h.members ha).trans (skipWs_suffix_of_cons hs₃)).trans hvs
      · rename_i s₃ hs₃
        cases hr
        exact (hs₃ ▸ skipWs_suffix v.2).trans hvs
      · cases hr
    · cases hr
  · cases hr

theorem leaves (n : Nat) : Leaves n := by
  induction n with
  | zero =>
    refine ⟨fun h => ?_, fun h => ?_, fun h => ?_⟩
    · rw [Json.value] at h
      cases h
    · rw [Json.elements] at h
      cases h
    · rw [Json.members] at h
      cases h
  | succ n ih => exact ⟨ih.value_succ, ih.elements_succ, ih.members_succ⟩

/-- A text that is an object and does not end in white space ends in the object's brace. -/
theorem parse_obj_getLast {s : List Char} {ps : List (List Char × Json)} (h : parse s = some (.obj ps))
    {c : Char} (hc : s.getLast? = some c) (hw : isWs c = false) : c = '\x7d' := by
  rw [parse] at h
  split at h
  · rename_i v r hv
    split at h
    · rename_i hr
      cases h
      obtain ⟨t, rfl⟩ := ((leaves _).value hv).2 ps rfl
      rw [List.getLast?_append_of_ne_nil _ (by simp)] at hc
      cases r with
      | nil => exact (Option.some.inj hc).symm
      | cons d r =>
        -- what follows the brace is white space to its end
        have hd := List.dropWhile_eq_nil_iff.1 hr c
        rw [List.getLast?_cons_cons] at hc
        rw [hd (List.mem_of_getLast? hc)] at hw
        cases hw
    · cases h
  · cases h

end Json
