import Mathlib.Algebra.Ring.Int.Defs
import Mathlib.Algebra.Ring.Nat
import OutlineServer.Lib.JsonQuotes

/-!
# Arrays of strings put between quotes as they are

A reader understands such an array if the strings are `Plain` and a comma stands between two of them only. It does not
understand it otherwise: what is read from a string that is not plain is another string, whatever follows it
(`string_ne`), and behind a comma the closing bracket is no value (`elements_trailing`).
-/

namespace Json

variable {a b q w t u : List Char} {r : List Char} {as xs ys : List (List Char)} {vs : List Json} {n : Nat}

def raw (s : List Char) : List Char := '"' :: s ++ ['"']

/-- The array of the strings, without its bracket at the end. -/
def rawArray (as : List (List Char)) : List Char := '[' :: commaSep (as.map raw)

/-- What is left when the first characters `p` have been read as one. -/
theorem eq_tail_append {e : Char} {p x : List Char} (hp : p ≠ []) (h : e :: x = w ++ (p ++ q) ++ t) :
    x = (w ++ p).tail ++ q ++ t := by
  obtain ⟨c, l, hl⟩ := List.exists_cons_of_ne_nil (List.append_ne_nil_of_right_ne_nil w hp)
  rw [← List.append_assoc, hl, List.cons_append, List.cons_append] at h
  rw [hl]
  exact (List.cons.inj h).2

theorem not_mem_tail_append {c : Char} {p : List Char} (h : c ∉ w ++ (p ++ q)) : c ∉ (w ++ p).tail ++ q := by
  rw [← List.append_assoc, List.mem_append, not_or] at h
  rw [List.mem_append, not_or]
  exact ⟨fun hc => h.1 (List.mem_of_mem_tail hc), h.2⟩

/-- From the rest `q` of a string no text is read that has something more before or behind it, unless there is a quote
in it: an escape takes two characters of `q` at least and gives one. -/
theorem string_ne {r : List Char × List Char} (h : string (q ++ '"' :: u) = some r) (hq : '"' ∉ w ++ q)
    (hne : w ≠ [] ∨ t ≠ [] ∨ ¬ Plain q) : r.1 ≠ w ++ q ++ t := by
  generalize hs : q ++ '"' :: u = s at h
  intro heq
  induction s using string.induct generalizing w q t r with
  | case1 => simp at hs
  | case2 s =>
    rw [string] at h
    cases h
    cases q with
    | nil =>
      simp only [List.append_nil, List.nil_eq, List.append_eq_nil_iff] at heq
      rcases hne with hne | hne | hne
      · exact hne heq.1
      · exact hne heq.2
      · exact hne fun c hc => absurd hc List.not_mem_nil
    | cons c q =>
      obtain ⟨rfl, -⟩ := List.cons.inj hs
      simp at hq
  | case3 x₁ x₂ x₃ x₄ s ih =>
    simp only [string, Option.pure_def, Option.bind_eq_bind, Option.bind_eq_some_iff, Option.some.injEq] at h
    obtain ⟨e, he, r', hr', rfl⟩ := h
    obtain ⟨h₁, h₂, h₃, h₄⟩ := hex4_ne_quote he
    -- the four digits are in `q`
    obtain ⟨q, rfl⟩ : ∃ q₁, q = '\\' :: 'u' :: x₁ :: x₂ :: x₃ :: x₄ :: q₁ := by
      rcases q with _ | ⟨_, _ | ⟨_, _ | ⟨_, _ | ⟨_, _ | ⟨_, _ | ⟨_, q⟩⟩⟩⟩⟩⟩
      all_goals grind
    simp only [List.cons_append, List.cons.injEq, true_and] at hs
    refine ih (not_mem_tail_append (p := ['\\', 'u', x₁, x₂, x₃, x₄]) hq) (.inl ?_) hs hr'
      (eq_tail_append (by simp) heq)
    cases w <;> simp
  | case4 x s hx ih =>
    rw [string] at h
    · simp only [Option.pure_def, Option.bind_eq_bind, Option.bind_eq_some_iff, Option.some.injEq] at h
      obtain ⟨e, he, r', hr', rfl⟩ := h
      rcases q with _ | ⟨y, _ | ⟨z, q⟩⟩
      · simp at hs
      · -- the backslash escapes the closing quote, and a quote is not in the text
        simp only [List.cons_append, List.nil_append, List.cons.injEq] at hs
        obtain ⟨rfl, rfl, rfl⟩ := hs
        cases Option.some.inj he
        cases w with
        | nil => cases (List.cons.inj heq).1
        | cons c w =>
          obtain ⟨rfl, -⟩ := List.cons.inj heq
          simp at hq
      · simp only [List.cons_append, List.cons.injEq] at hs
        obtain ⟨rfl, rfl, hs⟩ := hs
        refine ih (not_mem_tail_append (p := ['\\', z]) hq) (.inl ?_) hs hr' (eq_tail_append (by simp) heq)
        cases w <;> simp
    · exact hx
  | case5 x s hq' hb' hb hc =>
    rw [string, if_pos hc] at h
    · cases h
    all_goals assumption
  | case6 x s hq' hb' hb hc ih =>
    rw [string, if_neg hc] at h
    · simp only [Option.pure_def, Option.bind_eq_bind, Option.bind_eq_some_iff, Option.some.injEq] at h
      obtain ⟨r', hr', rfl⟩ := h
      obtain ⟨hxb, hxc⟩ := not_or.1 hc
      cases q with
      | nil => exact absurd (List.cons.inj hs).1.symm hq'
      | cons y q =>
        simp only [List.cons_append, List.cons.injEq] at hs
        obtain ⟨rfl, hs⟩ := hs
        refine ih (not_mem_tail_append (p := [y]) hq) ?_ hs hr' (eq_tail_append (by simp) heq)
        rcases hne with hne | hne | hne
        · obtain ⟨c, w, rfl⟩ := List.exists_cons_of_ne_nil hne
          exact .inl (by simp)
        · exact .inr (.inl hne)
        · exact .inr (.inr fun hp => hne (plain_cons.2 ⟨⟨hq', hxb, by simpa using hxc⟩, hp⟩))
    all_goals assumption

/-- A string that is read as itself needs no escape. -/
theorem Plain.of_string (h : string (b ++ '"' :: u) = some (b, r)) : Plain b := by
  by_contra hp
  by_cases hq : '"' ∈ b
  · obtain ⟨b₁, b₂, rfl, hb₁⟩ := List.eq_append_cons_of_mem hq
    rw [List.append_assoc, List.cons_append] at h
    exact string_ne (w := []) h hb₁ (.inr (.inl (by simp))) rfl
  · exact string_ne (w := []) (t := []) h hq (.inr (.inr hp)) (by simp)

/-! ### Reading an array of strings -/

theorem value_raw (n : Nat) (a s : List Char) :
    value (n + 1) (raw a ++ s) = (string (a ++ '"' :: s)).map fun r => (.str r.1, r.2) := by
  simp only [raw, List.cons_append, List.append_assoc, List.nil_append, value, skipWs_cons (c := '"') rfl]

theorem forall₂_raw (h : ∀ a ∈ as, Plain a) : List.Forall₂ Spells (as.map raw) (as.map .str) := by
  rw [List.forall₂_map_left_iff, List.forall₂_map_right_iff, List.forall₂_same]
  exact fun a ha => (h a ha).spells

theorem Spells.rawArray (h : ∀ a ∈ as, Plain a) : Spells (rawArray as ++ [']']) (.arr (as.map .str)) := by
  refine Spells.arr (forall₂_raw h) (fun w hw c hc => ?_) (fun w hw => ?_)
  · obtain ⟨a, -, rfl⟩ := List.mem_map.1 hw
    cases hc
    exact ⟨rfl, by decide⟩
  · obtain ⟨a, -, rfl⟩ := List.mem_map.1 hw
    simp [raw]

theorem elements_nil (n : Nat) : elements n [] = none := by
  cases n with
  | zero => rfl
  | succ n =>
    cases n with
    | zero => rfl
    | succ n => rfl

theorem elements_bracket (n : Nat) (r : List Char) : elements n (']' :: r) = none := by
  cases n with
  | zero => rfl
  | succ n =>
    cases n with
    | zero => rfl
    | succ n => rfl

/-- Behind a comma there is another element. -/
theorem elements_trailing {ws : List (List Char)} (h : List.Forall₂ Spells ws vs) (hne : vs ≠ [])
    (hn : (commaSep ws).length < n) (hu : ∀ m, elements m u = none) : elements n (commaSep ws ++ ',' :: u) = none := by
  induction h generalizing n with
  | nil => exact absurd rfl hne
  | @cons w v ws vs hw h ih =>
    obtain ⟨m, rfl⟩ : ∃ m, n = m + 1 := ⟨n - 1, by omega⟩
    cases h with
    | nil =>
      rw [elements, commaSep, hw m _ (Nat.lt_succ_iff.1 hn) (stops_cons rfl _), Option.bind_some, skipWs_cons rfl]
      simp only [hu m, Option.map_none]
    | cons hw' h' =>
      rw [commaSep_cons w (by simp), List.length_append, List.length_cons] at hn
      rw [elements, commaSep_cons w (by simp), List.append_assoc, List.cons_append,
        hw m _ (by omega) (stops_cons rfl _), Option.bind_some, skipWs_cons rfl]
      simp only
      rw [ih (by simp) (by omega)]
      rfl

/-- What is read as an array that is not empty has its elements behind the bracket. -/
theorem elements_of_parse_arr {c : Char} (hc : c ≠ ']') (hw : skipWs w = c :: t)
    (h : parse ('[' :: w) = some (.arr vs)) : ∃ r, elements ('[' :: w).length w = some (vs, r) := by
  have hskip : ∀ n, elements n (c :: t) = elements n w := by
    intro n
    cases n with
    | zero => rfl
    | succ n =>
      cases n with
      | zero => rfl
      | succ n =>
        have hidem : skipWs (c :: t) = skipWs w := by
          rw [← hw]
          exact List.dropWhile_idempotent _ _
        rw [elements, elements, value, value, hidem]
  have hval : value (('[' :: w).length + 1) ('[' :: w) =
      (elements ('[' :: w).length w).map fun r => (.arr r.1, r.2) := by
    rw [value, skipWs_cons rfl]
    simp only [hw]
    split
    · exact absurd (List.cons.inj ‹_›).1 hc
    · rw [hskip]
  rw [parse, hval] at h
  cases hel : elements ('[' :: w).length w with
  | none =>
    rw [hel] at h
    cases h
  | some p =>
    rw [hel] at h
    simp only [Option.map_some] at h
    split at h
    · cases h
      exact ⟨p.2, rfl⟩
    · cases h

/-- Strings that are read as themselves need no escape. -/
theorem plain_of_elements {s : List Char} (h : elements n (commaSep (as.map raw) ++ s) = some (ys.map .str, r))
    (hys : ys <+: xs) (has : as <+: xs) : ∀ a ∈ as, Plain a := by
  induction as generalizing n ys xs with
  | nil => simp
  | cons a as ih =>
    obtain ⟨tl, rfl⟩ := has
    have hhead : ∃ s', commaSep ((a :: as).map raw) ++ s = raw a ++ s' ∧
        (as ≠ [] → s' = ',' :: (commaSep (as.map raw) ++ s)) := by
      cases as with
      | nil => exact ⟨s, rfl, fun h => absurd rfl h⟩
      | cons a' as =>
        refine ⟨_, ?_, fun _ => rfl⟩
        rw [List.map_cons, commaSep_cons _ (by simp), List.append_assoc, List.cons_append]
    obtain ⟨s', hs', hrest⟩ := hhead
    rw [hs'] at h
    cases n with
    | zero => cases h
    | succ n =>
      rw [elements] at h
      obtain ⟨⟨v, s₁⟩, hv, h⟩ := Option.bind_eq_some_iff.1 h
      cases n with
      | zero => cases hv
      | succ n =>
        rw [value_raw] at hv
        obtain ⟨⟨x, s₂⟩, hx, heq⟩ := Option.map_eq_some_iff.1 hv
        cases heq
        -- the string is the first of `ys`, and so of `xs`
        obtain ⟨ys₀, rfl⟩ : ∃ ys₀, ys = x :: ys₀ := by
          cases ys with
          | nil =>
            simp only [List.map_nil] at h
            split at h
            · obtain ⟨_, -, heq⟩ := Option.map_eq_some_iff.1 h
              cases heq
            · cases h
            · cases h
          | cons y ys₀ =>
            refine ⟨ys₀, ?_⟩
            simp only [List.map_cons] at h
            split at h
            · obtain ⟨_, -, heq⟩ := Option.map_eq_some_iff.1 h
              simp only [Prod.mk.injEq, List.cons.injEq, Json.str.injEq] at heq
              rw [heq.1.1]
            · simp only [Option.some.injEq, Prod.mk.injEq, List.cons.injEq, Json.str.injEq] at h
              rw [h.1.1]
            · cases h
        rw [List.cons_append, List.cons_prefix_cons] at hys
        obtain ⟨rfl, hys⟩ := hys
        have hplain := Plain.of_string hx
        refine List.forall_mem_cons.2 ⟨hplain, ?_⟩
        by_cases hne : as = []
        · simp [hne]
        rw [hplain.quotes, hrest hne] at hx
        cases hx
        rw [skipWs_cons rfl] at h
        obtain ⟨⟨vs', r'⟩, hvs, heq⟩ := Option.map_eq_some_iff.1 h
        cases heq
        exact ih hvs hys (List.prefix_append as tl)

theorem elements_of_parse {s : List Char} (hne : as ≠ []) (h : parse (rawArray as ++ s) = some (.arr vs)) :
    ∃ r, elements (rawArray as ++ s).length (commaSep (as.map raw) ++ s) = some (vs, r) := by
  obtain ⟨t, ht⟩ : ∃ t, commaSep (as.map raw) ++ s = '"' :: t := by
    obtain ⟨a, as, rfl⟩ := List.exists_cons_of_ne_nil hne
    cases as with
    | nil => exact ⟨_, rfl⟩
    | cons a' as => exact ⟨_, rfl⟩
  have hskip : skipWs (commaSep (as.map raw) ++ s) = '"' :: t := by rw [ht, skipWs_cons rfl]
  exact elements_of_parse_arr (by decide) hskip h

/-- The strings that an array is understood as, if they start like those it is made of, need no escape. -/
theorem plain_of_parse {s : List Char} (hne : as ≠ []) (hys : ys <+: xs) (has : as <+: xs)
    (h : parse (rawArray as ++ s) = some (.arr (ys.map .str))) : ∀ a ∈ as, Plain a := by
  obtain ⟨r, hr⟩ := elements_of_parse hne h
  exact plain_of_elements hr hys has

/-- A comma before the closing bracket. -/
theorem parse_trailing (hne : as ≠ []) (hys : ys <+: xs) (has : as <+: xs) :
    parse (rawArray as ++ [',', ']']) ≠ some (.arr (ys.map .str)) := by
  intro h
  have hplain := plain_of_parse hne hys has h
  obtain ⟨r, hr⟩ := elements_of_parse hne h
  have hlen : (commaSep (as.map raw)).length < (rawArray as ++ [',', ']']).length := by
    rw [List.length_append, rawArray, List.length_cons]
    omega
  rw [elements_trailing (forall₂_raw hplain) (by simpa using hne) hlen fun m => elements_bracket m []] at hr
  cases hr

end Json
