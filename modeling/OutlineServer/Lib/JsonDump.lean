import OutlineServer.Lib.Json

/-!
# JSON documents cut short

A value that has been read is read the same way when text follows it (`Extends`), unless it is a number or
a word at the end of the text. So no proper prefix of an object is a document (`parse_prefix`). `dumps` is the
writer that indents by two characters and escapes what it must; what it writes is read back (`spells_dumps`).
-/

namespace Json

/-! ### Reading on -/

theorem string_append {s : List Char} {r : List Char × List Char} (h : string s = some r) (u : List Char) :
    string (s ++ u) = some (r.1, r.2 ++ u) := by
  induction s using string.induct generalizing r with
  | case1 => simp [string] at h
  | case2 s =>
    simp only [string, Option.some.injEq] at h
    subst h
    simp only [List.cons_append, string]
  | case3 a b c d s ih =>
    simp only [string, Option.pure_def, Option.bind_eq_bind, Option.bind_eq_some_iff, Option.some.injEq] at h
    obtain ⟨e, he, r', hr', rfl⟩ := h
    simp only [List.cons_append, string, he, ih hr', Option.bind_eq_bind, Option.bind_some, Option.pure_def]
  | case4 c s hc ih =>
    rw [string] at h
    · simp only [Option.pure_def, Option.bind_eq_bind, Option.bind_eq_some_iff, Option.some.injEq] at h
      obtain ⟨e, he, r', hr', rfl⟩ := h
      have hu : c ≠ 'u' := by
        rintro rfl
        cases he
      rw [List.cons_append, List.cons_append, string]
      · simp only [he, ih hr', Option.bind_eq_bind, Option.bind_some, Option.pure_def]
      · intro _ _ _ _ _ hcu
        exact absurd hcu hu
    · exact hc
  | case5 c s hq hu hb hc =>
    rw [string, if_pos hc] at h
    · cases h
    all_goals assumption
  | case6 c s hq hu hb hc ih =>
    rw [string, if_neg hc] at h
    · simp only [Option.pure_def, Option.bind_eq_bind, Option.bind_eq_some_iff, Option.some.injEq] at h
      obtain ⟨r', hr', rfl⟩ := h
      obtain ⟨hcb, hctl⟩ := not_or.1 hc
      rw [List.cons_append, string_plain hq hcb (by simpa using hctl), ih hr']
      rfl
    all_goals assumption

theorem atom_append {s : List Char} {r : Json × List Char} (h : atom s = some r) (hr : r.2 ≠ []) (u : List Char) :
    atom (s ++ u) = some (r.1, r.2 ++ u) := by
  unfold atom at h
  split at h
  · cases h
    rfl
  · cases h
    rfl
  · cases h
    rfl
  · split at h
    · rename_i hn
      cases h
      simp only at hr ⊢
      have htake : (s ++ u).takeWhile isNumberChar = s.takeWhile isNumberChar := by
        rw [List.takeWhile_append, if_neg]
        intro hlen
        refine hr (List.length_eq_zero_iff.1 ?_)
        have := congrArg List.length (List.takeWhile_append_dropWhile (p := isNumberChar) (l := s))
        rw [List.length_append] at this
        omega
      have hdrop : (s ++ u).dropWhile isNumberChar = s.dropWhile isNumberChar ++ u := by
        rw [List.dropWhile_append, if_neg (by simpa using hr)]
      cases s with
      | nil => cases hn
      | cons c s =>
        obtain ⟨d, t, hd⟩ : ∃ d t, (c :: s).takeWhile isNumberChar = d :: t := by
          cases ht : (c :: s).takeWhile isNumberChar with
          | nil =>
            rw [ht] at hn
            cases hn
          | cons d t => exact ⟨d, t, rfl⟩
        have hc : c = d := by
          rw [List.takeWhile_cons] at hd
          split at hd
          · exact (List.cons.inj hd).1
          · cases hd
        have hdig := isNumber_head (hd ▸ hn)
        subst hc
        rw [List.cons_append, atom, ← List.cons_append, htake, hdrop, if_pos hn]
        all_goals
          rintro _ h
          rw [(List.cons.inj h).1] at hdig
          rcases hdig with hdig | hdig <;> cases hdig
    · cases h

theorem skipWs_append {s : List Char} (h : skipWs s ≠ []) (u : List Char) : skipWs (s ++ u) = skipWs s ++ u := by
  rw [skipWs, List.dropWhile_append, if_neg (by simpa [skipWs] using h), ← skipWs]

theorem value_skipWs {n : Nat} {s : List Char} {r : Json × List Char} (h : value n s = some r) : skipWs s ≠ [] := by
  intro hs
  cases n with
  | zero =>
    rw [value] at h
    cases h
  | succ n =>
    rw [value, hs] at h
    cases h

theorem elements_skipWs {n : Nat} {s : List Char} {r : List Json × List Char} (h : elements n s = some r) :
    skipWs s ≠ [] := by
  cases n with
  | zero =>
    rw [elements] at h
    cases h
  | succ n =>
    rw [elements] at h
    obtain ⟨v, hv, -⟩ := Option.bind_eq_some_iff.1 h
    exact value_skipWs hv

theorem members_skipWs {n : Nat} {s : List Char} {r : List (List Char × Json) × List Char}
    (h : members n s = some r) : skipWs s ≠ [] := by
  intro hs
  cases n with
  | zero =>
    rw [members] at h
    cases h
  | succ n =>
    rw [members, hs] at h
    cases h

theorem skipWs_skipWs (s : List Char) : skipWs (skipWs s) = skipWs s := List.dropWhile_idempotent _ _

/-- What is read with `n` steps is read with as many or more when text follows. -/
structure Extends (n : Nat) : Prop where
  value : ∀ {s r}, value n s = some r → (r.2 ≠ [] ∨ ∃ ps, r.1 = .obj ps) → ∀ {m}, n ≤ m → ∀ u,
    value m (s ++ u) = some (r.1, r.2 ++ u)
  elements : ∀ {s r}, elements n s = some r → ∀ {m}, n ≤ m → ∀ u, elements m (s ++ u) = some (r.1, r.2 ++ u)
  members : ∀ {s r}, members n s = some r → ∀ {m}, n ≤ m → ∀ u, members m (s ++ u) = some (r.1, r.2 ++ u)

theorem ne_nil_of_skipWs {s t : List Char} {c : Char} (h : skipWs s = c :: t) : s ≠ [] := by
  rintro rfl
  cases h

theorem Extends.value_succ {n : Nat} (h : Extends n) {s : List Char} {r : Json × List Char}
    (hr : Json.value (n + 1) s = some r) (hend : r.2 ≠ [] ∨ ∃ ps, r.1 = .obj ps) {m : Nat} (hm : n + 1 ≤ m)
    (u : List Char) : Json.value m (s ++ u) = some (r.1, r.2 ++ u) := by
  obtain ⟨m, rfl⟩ : ∃ k, m = k + 1 := ⟨m - 1, by omega⟩
  have hm : n ≤ m := by omega
  have hs := value_skipWs hr
  rw [Json.value] at hr ⊢
  rw [skipWs_append hs]
  split at hr
  · rename_i s₁ h₁
    obtain ⟨a, ha, rfl⟩ := Option.map_eq_some_iff.1 hr
    simp only [h₁, List.cons_append, string_append ha, Option.map_some]
  · rename_i s₁ h₁
    simp only [h₁, List.cons_append]
    split at hr
    · rename_i s₂ h₂
      cases hr
      rw [skipWs_append (by rw [h₂]; simp), h₂]
      rfl
    · rename_i hne
      obtain ⟨a, ha, rfl⟩ := Option.map_eq_some_iff.1 hr
      have hs₁ := elements_skipWs ha
      rw [skipWs_skipWs] at hs₁
      obtain ⟨c, t, hc⟩ := List.exists_cons_of_ne_nil hs₁
      rw [skipWs_append hs₁]
      split
      · rename_i h₃
        rw [hc, List.cons_append] at h₃
        obtain ⟨rfl, -⟩ := List.cons.inj h₃
        exact absurd hc (hne t)
      · rw [h.elements ha hm u]
        rfl
  · rename_i s₁ h₁
    simp only [h₁, List.cons_append]
    split at hr
    · rename_i s₂ h₂
      cases hr
      rw [skipWs_append (by rw [h₂]; simp), h₂]
      rfl
    · rename_i hne
      obtain ⟨a, ha, rfl⟩ := Option.map_eq_some_iff.1 hr
      have hs₁ := members_skipWs ha
      rw [skipWs_skipWs] at hs₁
      obtain ⟨c, t, hc⟩ := List.exists_cons_of_ne_nil hs₁
      rw [skipWs_append hs₁]
      split
      · rename_i h₃
        rw [hc, List.cons_append] at h₃
        obtain ⟨rfl, -⟩ := List.cons.inj h₃
        exact absurd hc (hne t)
      · rw [h.members ha hm u]
        rfl
  · rename_i hq hb ho
    have hne : r.2 ≠ [] := hend.elim id fun ⟨ps, hps⟩ => absurd hps ((atom_suffix hr).2 ps)
    obtain ⟨c, t, hc⟩ := List.exists_cons_of_ne_nil hs
    have hat := atom_append hr hne u
    rw [hc, List.cons_append] at hat ⊢
    split
    · rename_i h₃
      obtain ⟨rfl, -⟩ := List.cons.inj h₃
      exact absurd hc (hq t)
    · rename_i h₃
      obtain ⟨rfl, -⟩ := List.cons.inj h₃
      exact absurd hc (hb t)
    · rename_i h₃
      obtain ⟨rfl, -⟩ := List.cons.inj h₃
      exact absurd hc (ho t)
    · exact hat

theorem Extends.elements_succ {n : Nat} (h : Extends n) {s : List Char} {r : List Json × List Char}
    (hr : Json.elements (n + 1) s = some r) {m : Nat} (hm : n + 1 ≤ m) (u : List Char) :
    Json.elements m (s ++ u) = some (r.1, r.2 ++ u) := by
  obtain ⟨m, rfl⟩ : ∃ k, m = k + 1 := ⟨m - 1, by omega⟩
  have hm : n ≤ m := by omega
  rw [Json.elements] at hr ⊢
  obtain ⟨v, hv, hr⟩ := Option.bind_eq_some_iff.1 hr
  split at hr
  · rename_i s₁ hs
    obtain ⟨a, ha, rfl⟩ := Option.map_eq_some_iff.1 hr
    rw [h.value hv (.inl (ne_nil_of_skipWs hs)) hm u, Option.bind_some,
      skipWs_append (by rw [hs]; simp), hs, List.cons_append]
    simp only
    rw [h.elements ha hm u]
    rfl
  · rename_i s₁ hs
    cases hr
    rw [h.value hv (.inl (ne_nil_of_skipWs hs)) hm u, Option.bind_some,
      skipWs_append (by rw [hs]; simp), hs]
    rfl
  · cases hr

theorem Extends.members_succ {n : Nat} (h : Extends n) {s : List Char} {r : List (List Char × Json) × List Char}
    (hr : Json.members (n + 1) s = some r) {m : Nat} (hm : n + 1 ≤ m) (u : List Char) :
    Json.members m (s ++ u) = some (r.1, r.2 ++ u) := by
  obtain ⟨m, rfl⟩ : ∃ k, m = k + 1 := ⟨m - 1, by omega⟩
  have hm : n ≤ m := by omega
  have hs := members_skipWs hr
  rw [Json.members] at hr ⊢
  rw [skipWs_append hs]
  split at hr
  · rename_i s₁ h₁
    obtain ⟨k, hk, hr⟩ := Option.bind_eq_some_iff.1 hr
    simp only [h₁, List.cons_append, string_append hk, Option.bind_some]
    split at hr
    · rename_i s₂ h₂
      obtain ⟨v, hv, hr⟩ := Option.bind_eq_some_iff.1 hr
      rw [skipWs_append (by rw [h₂]; simp), h₂, List.cons_append]
      simp only
      split at hr
      · rename_i s₃ h₃
        obtain ⟨a, ha, rfl⟩ := Option.map_eq_some_iff.1 hr
        rw [h.value hv (.inl (ne_nil_of_skipWs h₃)) hm u, Option.bind_some,
          skipWs_append (by rw [h₃]; simp), h₃, List.cons_append]
        simp only
        rw [h.members ha hm u]
        rfl
      · rename_i s₃ h₃
        cases hr
        rw [h.value hv (.inl (ne_nil_of_skipWs h₃)) hm u, Option.bind_some,
          skipWs_append (by rw [h₃]; simp), h₃]
        rfl
      · cases hr
    · cases hr
  · cases hr

theorem extends_all (n : Nat) : Extends n := by
  induction n with
  | zero =>
    refine ⟨fun h => ?_, fun h => ?_, fun h => ?_⟩
    · rw [Json.value] at h
      cases h
    · rw [Json.elements] at h
      cases h
    · rw [Json.members] at h
      cases h
  | succ n ih => exact ⟨ih.value_succ, ih.elements_succ, ih.members_succ⟩

/-- An object starts with its brace, and nothing else does. -/
theorem value_brace {n : Nat} {s : List Char} {r : Json × List Char} (h : value n s = some r) :
    (∃ ps, r.1 = .obj ps) ↔ ∃ t, skipWs s = '\x7b' :: t := by
  cases n with
  | zero =>
    rw [value] at h
    cases h
  | succ n =>
    rw [value] at h
    split at h
    · rename_i s₁ h₁
      obtain ⟨a, -, rfl⟩ := Option.map_eq_some_iff.1 h
      simp [h₁]
    · rename_i s₁ h₁
      split at h
      · cases h
        simp [h₁]
      · obtain ⟨a, -, rfl⟩ := Option.map_eq_some_iff.1 h
        simp [h₁]
    · rename_i s₁ h₁
      split at h
      · cases h
        simp [h₁]
      · obtain ⟨a, -, rfl⟩ := Option.map_eq_some_iff.1 h
        simp [h₁]
    · rename_i ho
      exact ⟨fun ⟨ps, hps⟩ => absurd hps ((atom_suffix h).2 ps), fun ⟨t, ht⟩ => absurd ht (ho t)⟩

/-- What a prefix of an object's text is read as, if anything, is the object, and only blanks are missing. -/
theorem parse_prefix {t u : List Char} {ps : List (List Char × Json)} (h : parse (t ++ u) = some (.obj ps))
    {v : Json} (ht : parse t = some v) : v = .obj ps ∧ Blank u := by
  rw [parse] at h ht
  split at ht
  · rename_i v' r hv
    split at ht
    · rename_i hr
      cases ht
      split at h
      · rename_i w r' hw
        split at h
        · rename_i hr'
          cases h
          -- both start with the brace
          obtain ⟨t', ht'⟩ := (value_brace hw).1 ⟨ps, rfl⟩
          rw [skipWs_append (value_skipWs hv)] at ht'
          obtain ⟨c, s, hc⟩ := List.exists_cons_of_ne_nil (value_skipWs hv)
          rw [hc, List.cons_append] at ht'
          obtain ⟨rfl, -⟩ := List.cons.inj ht'
          have hobj := (value_brace hv).2 ⟨s, hc⟩
          have hread := (extends_all _).value hv (.inr hobj)
            (m := (t ++ u).length + 1) (by simp only [List.length_append]; omega) u
          rw [hw] at hread
          cases hread
          refine ⟨rfl, fun c hc => ?_⟩
          exact List.dropWhile_eq_nil_iff.1 hr' c (List.mem_append_right _ hc)
        · cases h
      · cases h
    · cases ht
  · cases ht

/-! ### The indenting writer -/

/-- The escapes of a string: the short ones, and `\u00XX` for the other control characters. -/
def escapeChar (c : Char) : List Char :=
  if c = '"' then ['\\', '"']
  else if c = '\\' then ['\\', '\\']
  else if c = '\n' then ['\\', 'n']
  else if c = '\r' then ['\\', 'r']
  else if c = '\t' then ['\\', 't']
  else if c = '\x0c' then ['\\', 'f']
  else if c = '\x08' then ['\\', 'b']
  else if isControl c then
    ['\\', 'u', '0', '0', Nat.digitChar (c.toNat / 16), Nat.digitChar (c.toNat % 16)]
  else [c]

def escapeAll (s : List Char) : List Char := s.flatMap escapeChar

theorem hex4_control {c : Char} (h : isControl c = true) :
    hex4 '0' '0' (Nat.digitChar (c.toNat / 16)) (Nat.digitChar (c.toNat % 16)) = some c := by
  simp only [isControl, decide_eq_true_eq] at h
  have hall : ∀ n < 32, hex4 '0' '0' (Nat.digitChar (n / 16)) (Nat.digitChar (n % 16)) = some (Char.ofNat n) := by
    decide
  rw [hall _ h, Char.ofNat_toNat]

theorem string_escapeChar (c : Char) (s : List Char) :
    string (escapeChar c ++ s) = (string s).map fun r => (c :: r.1, r.2) := by
  unfold escapeChar
  split_ifs with h₁ h₂ h₃ h₄ h₅ h₆ h₇ h₈
  · rw [h₁]
    exact string_escaped (.inl rfl) s
  · rw [h₂]
    exact string_escaped (.inr rfl) s
  · rw [h₃]
    exact string_short rfl s
  · rw [h₄]
    exact string_short rfl s
  · rw [h₅]
    exact string_short rfl s
  · rw [h₆]
    exact string_short rfl s
  · rw [h₇]
    exact string_short rfl s
  · simp only [List.cons_append, List.nil_append, string, hex4_control h₈]
    cases string s <;> rfl
  · exact string_plain h₁ h₂ (by simpa using h₈) s

theorem quotes_escapeAll (s : List Char) : Quotes (escapeAll s) s := by
  intro r
  induction s with
  | nil => simp [escapeAll, string]
  | cons c s ih =>
    rw [escapeAll, List.flatMap_cons, List.append_assoc, string_escapeChar, ← escapeAll, ih]
    rfl

def newline (level : Nat) : List Char := '\n' :: List.replicate (2 * level) ' '

mutual

/-- A value as the writer puts it at a level of indentation. -/
def dumps (level : Nat) : Json → List Char
  | .null => "null".toList
  | .bool true => "true".toList
  | .bool false => "false".toList
  | .num lexeme => lexeme
  | .str s => '"' :: escapeAll s ++ ['"']
  | .arr [] => ['[', ']']
  | .arr (v :: vs) => '[' :: commaSep (dumpsItems (level + 1) (v :: vs)) ++ (newline level ++ [']'])
  | .obj [] => ['\x7b', '\x7d']
  | .obj (m :: ms) => '\x7b' :: commaSep (dumpsMembers (level + 1) (m :: ms)) ++ (newline level ++ ['\x7d'])

def dumpsItems (level : Nat) : List Json → List (List Char)
  | [] => []
  | v :: vs => (newline level ++ dumps level v) :: dumpsItems level vs

def dumpsMembers (level : Nat) : List (List Char × Json) → List (List Char)
  | [] => []
  | (k, v) :: ms =>
    (newline level ++ '"' :: (escapeAll k ++ '"' :: ':' :: ' ' :: dumps level v)) :: dumpsMembers level ms

end

mutual

/-- Numbers are lexemes of numbers. -/
def WellFormed : Json → Prop
  | .num lexeme => IsNumber lexeme
  | .arr vs => WellFormedItems vs
  | .obj ms => WellFormedMembers ms
  | _ => True

def WellFormedItems : List Json → Prop
  | [] => True
  | v :: vs => WellFormed v ∧ WellFormedItems vs

def WellFormedMembers : List (List Char × Json) → Prop
  | [] => True
  | (_, v) :: ms => WellFormed v ∧ WellFormedMembers ms

end

theorem blank_newline (level : Nat) : Blank (newline level) := by
  intro c hc
  rcases List.mem_cons.1 hc with rfl | hc
  · rfl
  · rw [List.eq_of_mem_replicate hc]
    rfl

/-- A value starts with neither white space nor a closing bracket. -/
theorem dumps_head (level : Nat) {v : Json} (h : WellFormed v) :
    ∃ c t, dumps level v = c :: t ∧ isWs c = false ∧ c ≠ ']' := by
  cases v with
  | null => exact ⟨'n', _, rfl, rfl, by decide⟩
  | bool b =>
    cases b with
    | false => exact ⟨'f', _, rfl, rfl, by decide⟩
    | true => exact ⟨'t', _, rfl, rfl, by decide⟩
  | num l =>
    have hnum : isNumber l = true := h.number
    obtain ⟨c, t, rfl⟩ : ∃ c t, l = c :: t := List.exists_cons_of_ne_nil (by rintro rfl; cases hnum)
    refine ⟨c, t, by rw [dumps], ?_⟩
    rcases isNumber_head hnum with hc | rfl
    · refine ⟨isWs_of_digit hc, ?_⟩
      rintro rfl
      cases hc
    · exact ⟨rfl, by decide⟩
  | str s => exact ⟨'"', _, by rw [dumps]; rfl, rfl, by decide⟩
  | arr vs =>
    cases vs with
    | nil => exact ⟨'[', _, by rw [dumps], rfl, by decide⟩
    | cons v vs => exact ⟨'[', _, by rw [dumps]; rfl, rfl, by decide⟩
  | obj ms =>
    cases ms with
    | nil => exact ⟨'\x7b', _, by rw [dumps], rfl, by decide⟩
    | cons m ms => exact ⟨'\x7b', _, by rw [dumps]; rfl, rfl, by decide⟩

theorem skipWs_dumpsItems (level : Nat) {vs : List Json} (h : WellFormedItems vs) :
    ∀ w ∈ dumpsItems level vs, ∃ c t, skipWs w = c :: t ∧ c ≠ ']' := by
  induction vs with
  | nil => simp [dumpsItems]
  | cons v vs ih =>
    intro w hw
    rw [dumpsItems] at hw
    rcases List.mem_cons.1 hw with rfl | hw
    · obtain ⟨c, t, hd, hws, hc⟩ := dumps_head level h.1
      exact ⟨c, t, by rw [skipWs_blank (blank_newline level), hd, skipWs_cons hws], hc⟩
    · exact ih h.2 w hw

theorem spells_word {w : List Char} {v : Json} {c : Char} {t : List Char} (hw : w = c :: t) (hc : isWs c = false)
    (hne : c ≠ '"' ∧ c ≠ '[' ∧ c ≠ '\x7b') (h : ∀ r, atom (w ++ r) = some (v, r)) : Spells w v := by
  intro n r hn _
  subst hw
  obtain ⟨m, rfl⟩ : ∃ m, n = m + 1 := ⟨n - 1, by simp only [List.length_cons] at hn; omega⟩
  have h := h r
  rw [List.cons_append] at h ⊢
  rw [value, skipWs_cons hc]
  split
  · rename_i he
    exact absurd (List.cons.inj he).1 hne.1
  · rename_i he
    exact absurd (List.cons.inj he).1 hne.2.1
  · rename_i he
    exact absurd (List.cons.inj he).1 hne.2.2
  · exact h

mutual

theorem spells_dumps (level : Nat) : (v : Json) → WellFormed v → Spells (dumps level v) v
  | .null, _ => by
    rw [dumps]
    exact spells_word (c := 'n') rfl rfl (by decide) fun r => rfl
  | .bool true, _ => by
    rw [dumps]
    exact spells_word (c := 't') rfl rfl (by decide) fun r => rfl
  | .bool false, _ => by
    rw [dumps]
    exact spells_word (c := 'f') rfl rfl (by decide) fun r => rfl
  | .num l, h => by
    rw [dumps]
    exact .num h
  | .str s, _ => by
    rw [dumps]
    exact .quoted (quotes_escapeAll s)
  | .arr [], _ => by
    rw [dumps]
    exact Spells.arr_blank .nil (by simp) blank_nil
  | .arr (v :: vs), h => by
    rw [dumps]
    exact Spells.arr_blank (spells_dumpsItems (level + 1) (v :: vs) h) (skipWs_dumpsItems (level + 1) h)
      (blank_newline level)
  | .obj [], _ => by
    rw [dumps]
    exact Spells.obj_blank .nil blank_nil
  | .obj (m :: ms), h => by
    rw [dumps]
    exact Spells.obj_blank (spells_dumpsMembers (level + 1) (m :: ms) h) (blank_newline level)

theorem spells_dumpsItems (level : Nat) : (vs : List Json) → WellFormedItems vs →
    List.Forall₂ Spells (dumpsItems level vs) vs
  | [], _ => by
    rw [dumpsItems]
    exact .nil
  | v :: vs, h => by
    rw [dumpsItems]
    exact .cons ((spells_dumps level v h.1).blank (blank_newline level)) (spells_dumpsItems level vs h.2)

theorem spells_dumpsMembers (level : Nat) : (ms : List (List Char × Json)) → WellFormedMembers ms →
    List.Forall₂ SpellsPair (dumpsMembers level ms) ms
  | [], _ => by
    rw [dumpsMembers]
    exact .nil
  | (k, v) :: ms, h => by
    rw [dumpsMembers]
    refine .cons ⟨_, _, _, rfl, blank_newline level, quotes_escapeAll k, ?_⟩ (spells_dumpsMembers level ms h.2)
    exact (spells_dumps level v h.1).blank (b := [' ']) (by simp [Blank, isWs])

end

/-! ### Well-formed values -/

/-- What has been read is well formed. -/
structure Reads (n : Nat) : Prop where
  value : ∀ {s r}, value n s = some r → WellFormed r.1
  elements : ∀ {s r}, elements n s = some r → WellFormedItems r.1
  members : ∀ {s r}, members n s = some r → WellFormedMembers r.1

theorem atom_wellFormed {s : List Char} {r : Json × List Char} (h : atom s = some r) : WellFormed r.1 := by
  unfold atom at h
  split at h
  · cases h
    trivial
  · cases h
    trivial
  · cases h
    trivial
  · split at h
    · rename_i hn
      cases h
      exact ⟨hn, fun c hc => List.mem_takeWhile_imp hc⟩
    · cases h

theorem reads (n : Nat) : Reads n := by
  induction n with
  | zero =>
    refine ⟨fun h => ?_, fun h => ?_, fun h => ?_⟩
    · rw [Json.value] at h
      cases h
    · rw [Json.elements] at h
      cases h
    · rw [Json.members] at h
      cases h
  | succ n ih =>
    refine ⟨fun h => ?_, fun h => ?_, fun h => ?_⟩
    · rw [Json.value] at h
      split at h
      · obtain ⟨a, -, rfl⟩ := Option.map_eq_some_iff.1 h
        trivial
      · split at h
        · cases h
          trivial
        · obtain ⟨a, ha, rfl⟩ := Option.map_eq_some_iff.1 h
          exact ih.elements ha
      · split at h
        · cases h
          trivial
        · obtain ⟨a, ha, rfl⟩ := Option.map_eq_some_iff.1 h
          exact ih.members ha
      · exact atom_wellFormed h
    · rw [Json.elements] at h
      obtain ⟨v, hv, h⟩ := Option.bind_eq_some_iff.1 h
      split at h
      · obtain ⟨a, ha, rfl⟩ := Option.map_eq_some_iff.1 h
        exact ⟨ih.value hv, ih.elements ha⟩
      · cases h
        exact ⟨ih.value hv, trivial⟩
      · cases h
    · rw [Json.members] at h
      split at h
      · obtain ⟨k, -, h⟩ := Option.bind_eq_some_iff.1 h
        split at h
        · obtain ⟨v, hv, h⟩ := Option.bind_eq_some_iff.1 h
          split at h
          · obtain ⟨a, ha, rfl⟩ := Option.map_eq_some_iff.1 h
            exact ⟨ih.value hv, ih.members ha⟩
          · cases h
            exact ⟨ih.value hv, trivial⟩
          · cases h
        · cases h
      · cases h

theorem parse_wellFormed {s : List Char} {v : Json} (h : parse s = some v) : WellFormed v := by
  rw [parse] at h
  split at h
  · rename_i v' r hv
    split at h
    · cases h
      exact (reads _).value hv
    · cases h
  · cases h

end Json
