import OutlineServer.HostName

/-!
# The loop of `validate_hostname`

`labelRound` is a round with every byte that it reads looked for in the array, and `LabelLoop` a run of rounds to the
answer. A run that answers reads nothing else and ends (`labelLoop_iff`), so that what `validateLabels` answers, which
counts the rounds, is the answer of the loop.
-/

namespace OutlineServer

variable {hostname label label' name : Bytes} {hostname_len n n' fuel i : Nat} {valid : Bool}

/-- `s[i]` -/
def byteAt (s : Bytes) (i : Nat) : C UInt8 :=
  match s[i]? with
  | none => .error .bounds
  | some b => .ok b

/-- A round, from the array and the number of bytes that are left of the name: the answer, or the next label. -/
def labelRound (label : Bytes) (n : Nat) : C (Bool ⊕ (Bytes × Nat)) := do
  if n = 0 then
    return .inl true
  let next_dot ← strchr label 0x2e
  let label_len := next_dot.getD n
  if n < label_len then
    return .inl false
  if 63 < label_len ∨ label_len < 1 then
    return .inl false
  if (← byteAt label 0) = 0x2d then
    return .inl false
  if (← byteAt label (label_len - 1)) = 0x2d then
    return .inl false
  if (← strspn label valid_label_bytes) < label_len then
    return .inl false
  return .inr (label.drop (label_len + 1), n - (label_len + 1))

inductive LabelLoop : Bytes → Nat → Bool → Prop
  | answer {label : Bytes} {n : Nat} {valid : Bool} (h : labelRound label n = .ok (.inl valid)) :
      LabelLoop label n valid
  | round {label label' : Bytes} {n n' : Nat} {valid : Bool} (h : labelRound label n = .ok (.inr (label', n')))
      (hr : LabelLoop label' n' valid) : LabelLoop label n valid

/-- `validate_hostname` returns. -/
inductive HostnameCall (hostname : Bytes) (hostname_len : Nat) : Bool → Prop
  | length (h : hostname_len < 1 ∨ 255 < hostname_len) : HostnameCall hostname hostname_len false
  | dot (h : 1 ≤ hostname_len ∧ hostname_len ≤ 255) (hb : byteAt hostname 0 = .ok 0x2e) :
      HostnameCall hostname hostname_len false
  | labels {b : UInt8} {valid : Bool} (h : 1 ≤ hostname_len ∧ hostname_len ≤ 255) (hb : byteAt hostname 0 = .ok b)
      (hne : b ≠ 0x2e) (hl : LabelLoop hostname hostname_len valid) : HostnameCall hostname hostname_len valid

theorem byteAt_of_lt (h : i < label.length) : byteAt label i = .ok label[i] := by
  unfold byteAt
  rw [List.getElem?_eq_getElem h]

/-- A round of `validateLabels`, in an array that holds what is left of the name. -/
theorem validateLabels_round (h : n ≤ label.length) (fuel : Nat) :
    validateLabels (fuel + 1) label n = labelRound label n >>= Sum.elim .ok fun next =>
      validateLabels fuel next.1 next.2 := by
  unfold labelRound
  rw [validateLabels]
  by_cases h0 : n = 0
  · rw [if_pos h0, if_pos h0]
    rfl
  rw [if_neg h0, if_neg h0]
  cases strchr label 0x2e with
  | error e => rfl
  | ok next_dot =>
    simp only [C.ok_bind]
    generalize next_dot.getD n = label_len
    by_cases hn : n < label_len
    · rw [if_pos hn, if_pos hn]
      rfl
    rw [if_neg hn, if_neg hn]
    by_cases hlen : 63 < label_len ∨ label_len < 1
    · rw [if_pos hlen, if_pos hlen]
      rfl
    have hfirst : 0 < label.length := by omega
    have hlast : label_len - 1 < label.length := by omega
    rw [if_neg hlen, if_neg hlen, byteAt_of_lt hfirst, byteAt_of_lt hlast, List.getElem?_eq_getElem hfirst,
      List.getElem?_eq_getElem hlast]
    simp only [C.ok_bind, Option.some.injEq]
    by_cases h1 : label[0] = 0x2d
    · rw [if_pos (.inl h1), if_pos h1]
      rfl
    rw [if_neg h1]
    by_cases h2 : label[label_len - 1] = 0x2d
    · rw [if_pos (.inr h2), if_pos h2]
      rfl
    rw [if_neg (not_or.2 ⟨h1, h2⟩), if_neg h2]
    cases strspn label valid_label_bytes with
    | error e => rfl
    | ok span =>
      simp only [C.ok_bind]
      split <;> rfl

/-- What is left of the name gets shorter with each round, and stays in the array. -/
theorem labelRound_next (h : n ≤ label.length) (hr : labelRound label n = .ok (.inr (label', n'))) :
    n' < n ∧ n' ≤ label'.length := by
  unfold labelRound at hr
  by_cases h0 : n = 0
  · rw [if_pos h0] at hr
    cases hr
  rw [if_neg h0] at hr
  cases hdot : strchr label 0x2e with
  | error e =>
    rw [hdot] at hr
    cases hr
  | ok next_dot =>
    rw [hdot] at hr
    simp only [C.ok_bind] at hr
    generalize next_dot.getD n = label_len at hr
    by_cases hn : n < label_len
    · rw [if_pos hn] at hr
      cases hr
    rw [if_neg hn] at hr
    by_cases hlen : 63 < label_len ∨ label_len < 1
    · rw [if_pos hlen] at hr
      cases hr
    have hfirst : 0 < label.length := by omega
    have hlast : label_len - 1 < label.length := by omega
    rw [if_neg hlen, byteAt_of_lt hfirst, byteAt_of_lt hlast] at hr
    simp only [C.ok_bind] at hr
    by_cases h1 : label[0] = 0x2d
    · rw [if_pos h1] at hr
      cases hr
    rw [if_neg h1] at hr
    by_cases h2 : label[label_len - 1] = 0x2d
    · rw [if_pos h2] at hr
      cases hr
    rw [if_neg h2] at hr
    cases hspan : strspn label valid_label_bytes with
    | error e =>
      rw [hspan] at hr
      cases hr
    | ok span =>
      rw [hspan] at hr
      simp only [C.ok_bind] at hr
      by_cases h3 : span < label_len
      · rw [if_pos h3] at hr
        cases hr
      rw [if_neg h3] at hr
      cases hr
      rw [List.length_drop]
      omega

theorem labelLoop_iff (h : n ≤ label.length) (hfuel : n ≤ fuel) :
    LabelLoop label n valid ↔ validateLabels fuel label n = .ok valid := by
  induction fuel generalizing label n with
  | zero =>
    obtain rfl := Nat.le_zero.1 hfuel
    have hround : labelRound label 0 = .ok (.inl true) := rfl
    constructor
    · intro hl
      cases hl with
      | answer ha =>
        cases hround.symm.trans ha
        rfl
      | round ha => exact nomatch hround.symm.trans ha
    · rintro ⟨⟩
      exact .answer hround
  | succ fuel ih =>
    rw [validateLabels_round h]
    constructor
    · intro hl
      cases hl with
      | answer ha =>
        rw [ha]
        rfl
      | round ha hr =>
        obtain ⟨hlt, hle⟩ := labelRound_next h ha
        rw [ha]
        exact (ih hle (by omega)).1 hr
    · intro hv
      cases hround : labelRound label n with
      | error e =>
        rw [hround] at hv
        cases hv
      | ok r =>
        rw [hround] at hv
        cases r with
        | inl v =>
          cases hv
          exact .answer hround
        | inr next =>
          obtain ⟨hlt, hle⟩ := labelRound_next h hround
          exact .round hround ((ih hle (by omega)).2 hv)

theorem hostnameCall_iff (h : hostname_len ≤ hostname.length) :
    HostnameCall hostname hostname_len valid ↔ validate_hostname hostname hostname_len = .ok valid := by
  unfold validate_hostname
  by_cases hlen : hostname_len < 1 ∨ 255 < hostname_len
  · rw [if_pos hlen]
    constructor
    · intro hc
      cases hc with
      | length => rfl
      | dot hl => omega
      | labels hl => omega
    · rintro ⟨⟩
      exact .length hlen
  have hbetween : 1 ≤ hostname_len ∧ hostname_len ≤ 255 := by omega
  have hfirst : 0 < hostname.length := by omega
  have hbyte := byteAt_of_lt hfirst
  rw [if_neg hlen, List.getElem?_eq_getElem hfirst]
  by_cases hdot : hostname[0] = 0x2e
  · rw [if_pos (congrArg some hdot)]
    constructor
    · intro hc
      cases hc with
      | length => rfl
      | dot => rfl
      | labels _ hb hne => exact absurd (Except.ok.inj (hb.symm.trans hbyte)) (hdot ▸ hne)
    · rintro ⟨⟩
      exact .dot hbetween (hdot ▸ hbyte)
  · rw [if_neg fun heq => hdot (Option.some.inj heq), ← labelLoop_iff h (Nat.le_refl _)]
    constructor
    · intro hc
      cases hc with
      | length hl => exact absurd hl hlen
      | dot _ hb => exact absurd (Except.ok.inj (hb.symm.trans hbyte)).symm hdot
      | labels _ _ _ hl => exact hl
    · exact .labels hbetween hbyte hdot

/-- For a string and its length, the call returns without a byte read behind the NUL, and says whether the string is a
host name. -/
theorem validate_hostname_spec (hnul : 0 ∉ name) :
    (∃ valid, HostnameCall (name ++ [0]) name.length valid) ∧
      ∀ valid, HostnameCall (name ++ [0]) name.length valid → (valid = true ↔ ValidHostname name) := by
  have hle : name.length ≤ (name ++ [0]).length := by simp
  simp only [hostnameCall_iff hle]
  by_cases hlen : name.length ≤ 255
  · obtain ⟨valid, hv, hiff⟩ := validate_hostname_eq hlen hnul []
    rw [hv]
    exact ⟨⟨valid, rfl⟩, by rintro valid' ⟨⟩; exact hiff⟩
  · have hfalse : validate_hostname (name ++ [0]) name.length = .ok false := if_pos (.inr (Nat.lt_of_not_le hlen))
    rw [hfalse]
    refine ⟨⟨false, rfl⟩, ?_⟩
    rintro valid ⟨⟩
    exact iff_of_false Bool.false_ne_true fun h => hlen h.length.2

/-- `example.com` -/
theorem validate_hostname_spec_example :
    (∃ valid, HostnameCall ("example.com".toUTF8.toList ++ [0]) "example.com".toUTF8.toList.length valid) ∧
      ∀ valid, HostnameCall ("example.com".toUTF8.toList ++ [0]) "example.com".toUTF8.toList.length valid →
        (valid = true ↔ ValidHostname "example.com".toUTF8.toList) :=
  validate_hostname_spec (by decide +kernel)

end OutlineServer
