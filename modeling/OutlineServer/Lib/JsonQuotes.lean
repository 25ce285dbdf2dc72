import OutlineServer.Lib.Json

/-!
# Strings put between quotes as they are

A writer that puts a string between quotes without escaping it is understood if the string is `Plain`. If it is
not, what a reader finds from any quote of the document is shorter (`string_between`), as long as a reader that
starts behind the closing quote finds no string. `QuotedIn s x` says that some quote of `s` opens the string `x`;
every string that is a member's value does (`QuotedIn.of_parse`).
-/

namespace Json

/-- What needs no escape. -/
def Plain (s : List Char) : Prop := ∀ c ∈ s, c ≠ '"' ∧ c ≠ '\\' ∧ isControl c = false

instance (s : List Char) : Decidable (Plain s) := List.decidableBAll _ s

theorem plain_cons {c : Char} {s : List Char} :
    Plain (c :: s) ↔ (c ≠ '"' ∧ c ≠ '\\' ∧ isControl c = false) ∧ Plain s := List.forall_mem_cons

theorem plain_of_digit {c : Char} (h : c.isDigit = true) : c ≠ '"' ∧ c ≠ '\\' ∧ isControl c = false := by
  refine ⟨(by rintro rfl; cases h), (by rintro rfl; cases h), ?_⟩
  have h48 : 48 ≤ c.toNat := by
    simp only [Char.isDigit, Bool.and_eq_true, decide_eq_true_eq] at h
    exact UInt32.le_iff_toNat_le.1 h.1
  simp only [isControl, decide_eq_false_iff_not]
  omega

theorem Plain.quotes {s : List Char} (h : Plain s) : Quotes s s := by
  intro r
  induction s with
  | nil => rw [List.nil_append, string]
  | cons c s ih =>
    obtain ⟨⟨hq, hb, hc⟩, hs⟩ := plain_cons.1 h
    rw [List.cons_append, string_plain hq hb hc, ih hs]
    rfl

theorem Plain.string_none {s u : List Char} (h : Plain s) (hu : string u = none) : string (s ++ u) = none := by
  induction s with
  | nil => exact hu
  | cons c s ih =>
    obtain ⟨⟨hq, hb, hc⟩, hs⟩ := plain_cons.1 h
    rw [List.cons_append, string_plain hq hb hc, ih hs]
    rfl

theorem Plain.spells {s : List Char} (h : Plain s) : Spells ('"' :: s ++ ['"']) (.str s) := .quoted h.quotes

/-- A string that is read from `b`, a quote and a text from which no string is read. -/
theorem string_between {b u : List Char} {r : List Char × List Char} (h : string (b ++ '"' :: u) = some r)
    (hu : string u = none) : r.1.length ≤ b.length ∧ (r.1.length = b.length → Plain b) := by
  generalize hs : b ++ '"' :: u = s at h
  induction s using string.induct generalizing b r with
  | case1 => simp [string] at h
  | case2 s =>
    rw [string] at h
    cases h
    refine ⟨Nat.zero_le _, fun hlen c hc => ?_⟩
    rw [List.length_eq_zero_iff.1 hlen.symm] at hc
    cases hc
  | case3 x₁ x₂ x₃ x₄ s ih =>
    simp only [string, Option.pure_def, Option.bind_eq_bind, Option.bind_eq_some_iff, Option.some.injEq] at h
    obtain ⟨e, he, r', hr', rfl⟩ := h
    obtain ⟨h₁, h₂, h₃, h₄⟩ := hex4_ne_quote he
    -- the four digits are in `b`
    obtain ⟨b₁, rfl⟩ : ∃ b₁, b = '\\' :: 'u' :: x₁ :: x₂ :: x₃ :: x₄ :: b₁ := by
      rcases b with _ | ⟨_, _ | ⟨_, _ | ⟨_, _ | ⟨_, _ | ⟨_, _ | ⟨_, b⟩⟩⟩⟩⟩⟩
      all_goals grind
    simp only [List.cons_append, List.cons.injEq, true_and] at hs
    obtain ⟨hle, -⟩ := ih hs hr'
    refine ⟨?_, fun hlen => ?_⟩
    · simp only [List.length_cons]; omega
    · simp only [List.length_cons] at hlen; omega
  | case4 x s hx ih =>
    rw [string] at h
    · simp only [Option.pure_def, Option.bind_eq_bind, Option.bind_eq_some_iff, Option.some.injEq] at h
      obtain ⟨e, he, r', hr', rfl⟩ := h
      rcases b with _ | ⟨y, _ | ⟨z, b⟩⟩
      · simp at hs
      · -- the backslash escapes the closing quote
        simp only [List.cons_append, List.nil_append, List.cons.injEq] at hs
        obtain ⟨rfl, rfl, rfl⟩ := hs
        rw [hu] at hr'
        cases hr'
      · simp only [List.cons_append, List.cons.injEq] at hs
        obtain ⟨rfl, rfl, hs⟩ := hs
        obtain ⟨hle, -⟩ := ih hs hr'
        refine ⟨?_, fun hlen => ?_⟩
        · simp only [List.length_cons]; omega
        · simp only [List.length_cons] at hlen; omega
    · exact hx
  | case5 x s hq hb' hb hc =>
    rw [string, if_pos hc] at h
    · cases h
    all_goals assumption
  | case6 x s hq hb' hb hc ih =>
    rw [string, if_neg hc] at h
    · simp only [Option.pure_def, Option.bind_eq_bind, Option.bind_eq_some_iff, Option.some.injEq] at h
      obtain ⟨r', hr', rfl⟩ := h
      obtain ⟨hxb, hxc⟩ := not_or.1 hc
      cases b with
      | nil => exact absurd (List.cons.inj hs).1.symm hq
      | cons y b =>
        simp only [List.cons_append, List.cons.injEq] at hs
        obtain ⟨rfl, hs⟩ := hs
        obtain ⟨hle, hpl⟩ := ih hs hr'
        refine ⟨by simpa using hle, fun hlen => plain_cons.2 ⟨⟨hq, hxb, by simpa using hxc⟩, hpl ?_⟩⟩
        simpa using hlen
    all_goals assumption

/-! ### The strings that the quotes of a text open -/

/-- Some quote of `s` opens the string `x`. -/
def QuotedIn (s x : List Char) : Prop := ∃ t r, '"' :: t <:+ s ∧ string t = some (x, r)

namespace QuotedIn

variable {s t x b u : List Char}

theorem mono (h : QuotedIn t x) (hs : t <:+ s) : QuotedIn s x := by
  obtain ⟨t', r, ht', hr⟩ := h
  exact ⟨t', r, ht'.trans hs, hr⟩

theorem not_nil : ¬ QuotedIn [] x := by
  rintro ⟨t, r, ht, -⟩
  simp at ht

theorem cons {c : Char} (h : QuotedIn (c :: s) x) : (c = '"' ∧ ∃ r, string s = some (x, r)) ∨ QuotedIn s x := by
  obtain ⟨t, r, ht, hr⟩ := h
  rcases List.suffix_cons_iff.1 ht with heq | ht
  · obtain ⟨rfl, rfl⟩ := List.cons.inj heq
    exact .inl ⟨rfl, r, hr⟩
  · exact .inr ⟨t, r, ht, hr⟩

/-- No quote opens a string that the text before it is part of. -/
theorem append (hb : '"' ∉ b) (h : QuotedIn (b ++ u) x) : QuotedIn u x := by
  induction b with
  | nil => exact h
  | cons c b ih =>
    rw [List.mem_cons, not_or] at hb
    rcases h.cons with ⟨rfl, -⟩ | h
    · exact absurd rfl hb.1
    · exact ih hb.2 h

/-- A quote inside a string that is put between quotes as it is, or behind it. -/
theorem between (hu : string u = none) (h : QuotedIn (b ++ '"' :: u) x) :
    (x.length < b.length ∧ ¬ Plain b) ∨ QuotedIn u x := by
  induction b with
  | nil =>
    rcases h.cons with ⟨-, r, hr⟩ | h
    · rw [hu] at hr
      cases hr
    · exact .inr h
  | cons c b ih =>
    rcases h.cons with ⟨rfl, r, hr⟩ | h
    · refine .inl ⟨Nat.lt_succ_of_le (string_between hr hu).1, fun hp => ?_⟩
      exact absurd rfl (plain_cons.1 hp).1.1
    · rcases ih h with ⟨hlt, hp⟩ | h
      · exact .inl ⟨Nat.lt_succ_of_lt hlt, fun hp' => hp (plain_cons.1 hp').2⟩
      · exact .inr h

/-- The quotes of a string that is put between quotes as it is. -/
theorem quoted (hu : string u = none) (h : QuotedIn ('"' :: (b ++ '"' :: u)) x) :
    Plain x ∨ (x.length < b.length ∧ ¬ Plain b) ∨ QuotedIn u x := by
  rcases h.cons with ⟨-, r, hr⟩ | h
  · by_cases hb : Plain b
    · rw [hb.quotes] at hr
      cases hr
      exact .inl hb
    · obtain ⟨hle, heq⟩ := string_between hr hu
      exact .inr (.inl ⟨lt_of_le_of_ne hle fun h => hb (heq h), hb⟩)
  · exact .inr (h.between hu)

/-- The quotes of a name. -/
theorem name {k w : List Char} (hk : Plain k) (h : QuotedIn ('"' :: (k ++ '"' :: w)) x) :
    Plain x ∨ (∃ r, string w = some (x, r)) ∨ QuotedIn w x := by
  rcases h.cons with ⟨-, r, hr⟩ | h
  · rw [hk.quotes] at hr
    cases hr
    exact .inl hk
  · rcases (h.append fun hc => (hk _ hc).1 rfl).cons with ⟨-, hr⟩ | h
    · exact .inr (.inl hr)
    · exact .inr (.inr h)

theorem of_value {n : Nat} {r : List Char} (h : value n s = some (.str x, r)) : QuotedIn s x := by
  cases n with
  | zero =>
    rw [value] at h
    cases h
  | succ n =>
    rw [value] at h
    split at h
    · rename_i t ht
      obtain ⟨a, ha, heq⟩ := Option.map_eq_some_iff.1 h
      cases heq
      exact ⟨t, a.2, ht ▸ skipWs_suffix s, ha⟩
    · split at h
      · cases h
      · obtain ⟨a, -, heq⟩ := Option.map_eq_some_iff.1 h
        cases heq
    · split at h
      · cases h
      · obtain ⟨a, -, heq⟩ := Option.map_eq_some_iff.1 h
        cases heq
    · unfold atom at h
      split at h
      all_goals try cases h
      split at h
      all_goals cases h

theorem of_members {n : Nat} {r : List Char} {ms : List (List Char × Json)} (h : members n s = some (ms, r))
    {k : List Char} (hm : (k, .str x) ∈ ms) : QuotedIn s x := by
  induction n generalizing s r ms with
  | zero =>
    rw [members] at h
    cases h
  | succ n ih =>
    rw [members] at h
    split at h
    · rename_i s₁ hs
      obtain ⟨k', hk, h⟩ := Option.bind_eq_some_iff.1 h
      have hks := (string_suffix hk).trans (skipWs_suffix_of_cons hs)
      split at h
      · rename_i s₂ hs₂
        obtain ⟨⟨w, s'⟩, hv, h⟩ := Option.bind_eq_some_iff.1 h
        have hs₂' := (skipWs_suffix_of_cons hs₂).trans hks
        have hvs := ((leaves n).value hv).1.trans hs₂'
        split at h
        · rename_i s₃ hs₃
          obtain ⟨a, ha, heq⟩ := Option.map_eq_some_iff.1 h
          cases heq
          rcases List.mem_cons.1 hm with heq | hm
          · cases heq
            exact (of_value hv).mono hs₂'
          · exact (ih ha hm).mono ((skipWs_suffix_of_cons hs₃).trans hvs)
        · rename_i s₃ hs₃
          cases h
          cases List.mem_singleton.1 hm
          exact (of_value hv).mono hs₂'
        · cases h
      · cases h
    · cases h

theorem of_parse {ms : List (List Char × Json)} (h : parse s = some (.obj ms)) {k : List Char}
    (hm : (k, .str x) ∈ ms) : QuotedIn s x := by
  rw [parse] at h
  split at h
  · rename_i v r hv
    split at h
    · cases h
      rw [value] at hv
      split at hv
      · obtain ⟨a, -, heq⟩ := Option.map_eq_some_iff.1 hv
        cases heq
      · split at hv
        · cases hv
        · obtain ⟨a, -, heq⟩ := Option.map_eq_some_iff.1 hv
          cases heq
      · rename_i s₁ hs
        split at hv
        · cases hv
          cases hm
        · obtain ⟨a, ha, heq⟩ := Option.map_eq_some_iff.1 hv
          cases heq
          exact (of_members ha hm).mono ((skipWs_suffix s₁).trans (skipWs_suffix_of_cons hs))
      · exact absurd rfl ((atom_suffix hv).2 ms)
    · cases h
  · cases h

end QuotedIn

end Json
