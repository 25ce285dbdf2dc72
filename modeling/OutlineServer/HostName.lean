import OutlineServer.Acl

/-!
# Host names (`validate_hostname`)

`HostLabels` says what a host name is: labels of at most 63 bytes with a dot between them, and perhaps one behind the
last. In an array with a NUL behind the name `validate_hostname` answers whether it is one, and a NUL in the name is no
byte of a label.
-/

namespace OutlineServer

structure ValidLabel (label : Bytes) : Prop where
  length : 1 ≤ label.length ∧ label.length ≤ 63
  first : label[0]? ≠ some 0x2d
  last : label[label.length - 1]? ≠ some 0x2d
  bytes : ∀ b ∈ label, b ∈ valid_label_bytes

inductive HostLabels : Bytes → Prop
  | nil : HostLabels []
  | last {label : Bytes} (h : ValidLabel label) : HostLabels label
  | dot {label rest : Bytes} (h : ValidLabel label) (hr : HostLabels rest) : HostLabels (label ++ 0x2e :: rest)

structure ValidHostname (name : Bytes) : Prop where
  length : 1 ≤ name.length ∧ name.length ≤ 255
  labels : HostLabels name

variable {label rest more name : Bytes} {c : UInt8} {fuel n : Nat}

theorem dot_not_mem_valid_label_bytes : 0x2e ∉ valid_label_bytes := by decide

theorem nul_not_mem_valid_label_bytes : 0 ∉ valid_label_bytes := by decide

theorem ValidLabel.not_mem (h : ValidLabel label) (hc : c ∉ valid_label_bytes) : c ∉ label :=
  fun hmem => hc (h.bytes c hmem)

theorem eq_of_append_dot {label' rest' : Bytes} (h : (0x2e : UInt8) ∉ label) (h' : (0x2e : UInt8) ∉ label')
    (heq : label ++ 0x2e :: rest = label' ++ 0x2e :: rest') : label = label' ∧ rest = rest' := by
  have htake : ∀ {l r : Bytes}, (0x2e : UInt8) ∉ l → (l ++ 0x2e :: r).takeWhile (· ≠ 0x2e) = l := by
    intro l r hl
    rw [List.takeWhile_append_of_pos (fun b hb => by simpa using fun hbd : b = 0x2e => hl (hbd ▸ hb))]
    simp
  have hlabel : label = label' := by
    rw [← htake h (r := rest), heq, htake h']
  subst hlabel
  exact ⟨rfl, (List.cons.inj (List.append_cancel_left heq)).2⟩

theorem hostLabels_append_dot (h : (0x2e : UInt8) ∉ label) :
    HostLabels (label ++ 0x2e :: rest) ↔ ValidLabel label ∧ HostLabels rest := by
  constructor
  · intro hh
    generalize heq : label ++ 0x2e :: rest = name at hh
    cases hh with
    | nil => simp at heq
    | last hl =>
      refine absurd ?_ (hl.not_mem dot_not_mem_valid_label_bytes)
      rw [← heq]
      simp
    | dot hl hr =>
      obtain ⟨rfl, rfl⟩ := eq_of_append_dot h (hl.not_mem dot_not_mem_valid_label_bytes) heq
      exact ⟨hl, hr⟩
  · exact fun hh => .dot hh.1 hh.2

theorem HostLabels.not_mem_nul (h : HostLabels name) : 0 ∉ name := by
  induction h with
  | nil => simp
  | last h => exact h.not_mem nul_not_mem_valid_label_bytes
  | dot h _ ih =>
    have := h.not_mem nul_not_mem_valid_label_bytes
    simp [this, ih]

/-! ### `validate_hostname` -/

theorem strchr_eq (c : UInt8) (h : ∀ b ∈ label, b ≠ 0x2e ∧ b ≠ 0) (hc : c = 0x2e ∨ c = 0) :
    strchr (label ++ c :: more) 0x2e = .ok (if c = 0x2e then some label.length else none) := by
  have hnone : label.findIdx? (fun b => decide (b = 0x2e ∨ b = 0)) = none := by
    rw [List.findIdx?_eq_none_iff]
    intro b hb
    simpa using h b hb
  rw [strchr, List.findIdx?_append, hnone, Option.none_or, List.findIdx?_cons]
  simp [hc]

/-- The NUL comes before any dot. -/
theorem strchr_nul (hdot : 0x2e ∉ label) (h0 : 0 ∈ label) : strchr (label ++ more) 0x2e = .ok none := by
  obtain ⟨pre, post, rfl, hpre⟩ := List.eq_append_cons_of_mem h0
  rw [List.append_assoc, List.cons_append]
  refine (strchr_eq 0 (fun b hb => ⟨fun h => hdot ?_, fun h => hpre (h ▸ hb)⟩) (.inr rfl)).trans rfl
  exact List.mem_append_left _ (h ▸ hb)

theorem strspn_eq (hc : c ∉ valid_label_bytes) :
    ∃ k, strspn (label ++ c :: more) valid_label_bytes = .ok k ∧ k ≤ label.length ∧
      (k < label.length ↔ ¬ ∀ b ∈ label, b ∈ valid_label_bytes) := by
  rw [strspn, List.findIdx?_append]
  cases hf : label.findIdx? fun b => decide (b ∉ valid_label_bytes) with
  | some k =>
    obtain ⟨hlt, hk, -⟩ := List.findIdx?_eq_some_iff_getElem.1 hf
    refine ⟨k, rfl, hlt.le, iff_of_true hlt fun hall => ?_⟩
    exact of_decide_eq_true hk (hall _ (List.getElem_mem hlt))
  | none =>
    rw [List.findIdx?_eq_none_iff] at hf
    refine ⟨label.length, ?_, Nat.le_refl _, iff_of_false (Nat.lt_irrefl _) (not_not_intro fun b hb => ?_)⟩
    · simp [List.findIdx?_cons, hc]
    · simpa using hf b hb

/-- A round of the loop, for a label that the loop has found. -/
theorem validateLabels_label (hc : c ∉ valid_label_bytes) (hn : label.length ≤ n) (h0 : n ≠ 0) {next_dot : Option Nat}
    (hdot : strchr (label ++ c :: more) 0x2e = .ok next_dot) (hlen : next_dot.getD n = label.length) :
    (ValidLabel label →
        validateLabels (fuel + 1) (label ++ c :: more) n = validateLabels fuel more (n - (label.length + 1))) ∧
      (¬ ValidLabel label → validateLabels (fuel + 1) (label ++ c :: more) n = .ok false) := by
  obtain ⟨k, hk, -, hspan⟩ := (@strspn_eq label more) hc
  have hround : validateLabels (fuel + 1) (label ++ c :: more) n =
      if 63 < label.length ∨ label.length < 1 then .ok false
      else if (label ++ c :: more)[0]? = some 0x2d ∨ (label ++ c :: more)[label.length - 1]? = some 0x2d then .ok false
      else if k < label.length then .ok false
      else validateLabels fuel more (n - (label.length + 1)) := by
    have hmore : (label ++ c :: more).drop (label.length + 1) = more := by simp
    simp only [validateLabels, h0, ↓reduceIte, hdot, C.ok_bind, hlen, hk, hmore, Nat.not_lt.2 hn]
    rfl
  rw [hround]
  by_cases hlength : 63 < label.length ∨ label.length < 1
  · rw [if_pos hlength]
    exact ⟨fun h => absurd h.length (by omega), fun _ => rfl⟩
  rw [if_neg hlength, List.getElem?_append_left (by omega), List.getElem?_append_left (by omega)]
  by_cases hhyphen : label[0]? = some 0x2d ∨ label[label.length - 1]? = some 0x2d
  · rw [if_pos hhyphen]
    exact ⟨fun h => absurd hhyphen (not_or.2 ⟨h.first, h.last⟩), fun _ => rfl⟩
  rw [if_neg hhyphen]
  obtain ⟨hfirst, hlast⟩ := not_or.1 hhyphen
  by_cases hbytes : ∀ b ∈ label, b ∈ valid_label_bytes
  · rw [if_neg (fun h => hspan.1 h hbytes)]
    exact ⟨fun _ => rfl, fun h => absurd ⟨by omega, hfirst, hlast, hbytes⟩ h⟩
  · rw [if_pos (hspan.2 hbytes)]
    exact ⟨fun h => absurd h.bytes hbytes, fun _ => rfl⟩

theorem validateLabels_zero (fuel : Nat) (label : Bytes) : validateLabels fuel label 0 = .ok true := by
  cases fuel <;> rfl

theorem length_lt_of_dot (h : name = label ++ 0x2e :: rest) : rest.length < name.length ∧
    name.length - (label.length + 1) = rest.length := by
  subst h
  simp
  omega

/-- A NUL in the name is no byte of a label. -/
theorem validateLabels_nul (more : Bytes) (hnul : 0 ∈ name) (hfuel : name.length ≤ fuel) :
    validateLabels fuel (name ++ more) name.length = .ok false := by
  induction fuel generalizing name with
  | zero =>
    obtain rfl := List.length_eq_zero_iff.1 (Nat.le_zero.1 hfuel)
    cases hnul
  | succ fuel ih =>
    have h0 : name.length ≠ 0 := (List.length_pos_of_mem hnul).ne'
    -- the rest of the name is taken for one label
    have hwhole : strchr (name ++ more) 0x2e = .ok none →
        validateLabels (fuel + 1) (name ++ more) name.length = .ok false := by
      intro hdot
      obtain ⟨pre, post, rfl, hpre⟩ := List.eq_append_cons_of_mem hnul
      obtain ⟨k, hk, hle, -⟩ := (@strspn_eq pre (post ++ more)) nul_not_mem_valid_label_bytes
      have hlt : k < (pre ++ 0 :: post).length := by
        rw [List.length_append, List.length_cons]
        omega
      have happend : pre ++ 0 :: post ++ more = pre ++ 0 :: (post ++ more) := by simp
      rw [happend] at hdot ⊢
      simp only [validateLabels, h0, ↓reduceIte, hdot, C.ok_bind, Option.getD_none, Nat.lt_irrefl, hk, hlt]
      split
      · rfl
      · split <;> rfl
    by_cases hnodot : (0x2e : UInt8) ∈ name
    · obtain ⟨label, rest, rfl, hl⟩ := List.eq_append_cons_of_mem hnodot
      by_cases hlabel : 0 ∈ label
      · refine hwhole ?_
        rw [List.append_assoc]
        exact strchr_nul hl hlabel
      · have hrest : 0 ∈ rest := by simpa [hlabel] using hnul
        obtain ⟨hlt, hsub⟩ := (@length_lt_of_dot _ _ (label ++ 0x2e :: rest)) rfl
        have happend : label ++ 0x2e :: rest ++ more = label ++ 0x2e :: (rest ++ more) := by simp
        have hdot : strchr (label ++ 0x2e :: (rest ++ more)) 0x2e = .ok (some label.length) :=
          strchr_eq 0x2e (fun b hb => ⟨fun h => hl (h ▸ hb), fun h => hlabel (h ▸ hb)⟩) (.inl rfl)
        obtain ⟨hvalid, hinvalid⟩ := (@validateLabels_label _ _ _ fuel ((label ++ 0x2e :: rest).length))
          dot_not_mem_valid_label_bytes (by simp) h0 hdot rfl
        rw [happend]
        by_cases hvl : ValidLabel label
        · rw [hvalid hvl, hsub]
          exact ih hrest (by omega)
        · exact hinvalid hvl
    · exact hwhole (strchr_nul hnodot hnul)

/-- In an array with a NUL behind the name. -/
theorem validateLabels_eq (tail : Bytes) (hnul : 0 ∉ name) (hfuel : name.length ≤ fuel) :
    ∃ valid, validateLabels fuel (name ++ 0 :: tail) name.length = .ok valid ∧ (valid = true ↔ HostLabels name) := by
  induction fuel generalizing name with
  | zero =>
    obtain rfl := List.length_eq_zero_iff.1 (Nat.le_zero.1 hfuel)
    exact ⟨true, rfl, iff_of_true rfl .nil⟩
  | succ fuel ih =>
    by_cases h0 : name.length = 0
    · obtain rfl := List.length_eq_zero_iff.1 h0
      exact ⟨true, validateLabels_zero _ _, iff_of_true rfl .nil⟩
    by_cases hnodot : (0x2e : UInt8) ∈ name
    · obtain ⟨label, rest, rfl, hl⟩ := List.eq_append_cons_of_mem hnodot
      have hnul' : 0 ∉ label ∧ 0 ∉ rest := by
        simp only [List.mem_append, List.mem_cons, not_or] at hnul
        exact ⟨hnul.1, hnul.2.2⟩
      obtain ⟨hlt, hsub⟩ := (@length_lt_of_dot _ _ (label ++ 0x2e :: rest)) rfl
      have happend : label ++ 0x2e :: rest ++ 0 :: tail = label ++ 0x2e :: (rest ++ 0 :: tail) := by simp
      have hdot : strchr (label ++ 0x2e :: (rest ++ 0 :: tail)) 0x2e = .ok (some label.length) :=
        strchr_eq 0x2e (fun b hb => ⟨fun h => hl (h ▸ hb), fun h => hnul'.1 (h ▸ hb)⟩) (.inl rfl)
      obtain ⟨hvalid, hinvalid⟩ := (@validateLabels_label _ _ _ fuel ((label ++ 0x2e :: rest).length))
        dot_not_mem_valid_label_bytes (by simp) h0 hdot rfl
      rw [happend, hostLabels_append_dot hl]
      by_cases hvl : ValidLabel label
      · obtain ⟨valid, heq, hiff⟩ := ih hnul'.2 (by omega)
        refine ⟨valid, ?_, hiff.trans ⟨fun h => ⟨hvl, h⟩, And.right⟩⟩
        rw [hvalid hvl, hsub, heq]
      · exact ⟨false, hinvalid hvl, iff_of_false Bool.false_ne_true fun h => hvl h.1⟩
    · have hdot : strchr (name ++ 0 :: tail) 0x2e = .ok none :=
        strchr_eq 0 (fun b hb => ⟨fun h => hnodot (h ▸ hb), fun h => hnul (h ▸ hb)⟩) (.inr rfl)
      obtain ⟨hvalid, hinvalid⟩ := (@validateLabels_label _ _ _ fuel) nul_not_mem_valid_label_bytes
        (Nat.le_refl name.length) h0 hdot rfl
      by_cases hvl : ValidLabel name
      · refine ⟨true, ?_, iff_of_true rfl (.last hvl)⟩
        rw [hvalid hvl, Nat.sub_eq_zero_of_le (Nat.le_succ _), validateLabels_zero]
      · refine ⟨false, hinvalid hvl, iff_of_false Bool.false_ne_true fun h => ?_⟩
        cases h with
        | nil => exact h0 rfl
        | last h => exact hvl h
        | dot h hr => simp at hnodot

theorem not_validLabel_nil : ¬ ValidLabel [] := fun h => Nat.not_succ_le_zero 0 h.length.1

theorem validate_hostname_nul (more : Bytes) (hnul : 0 ∈ name) :
    validate_hostname (name ++ more) name.length = .ok false := by
  rw [validate_hostname, validateLabels_nul more hnul (Nat.le_refl _)]
  simp only [ite_self]

theorem validate_hostname_eq (hlen : name.length ≤ 255) (hnul : 0 ∉ name) (tail : Bytes) :
    ∃ valid, validate_hostname (name ++ 0 :: tail) name.length = .ok valid ∧ (valid = true ↔ ValidHostname name) := by
  rw [validate_hostname]
  by_cases h0 : name.length < 1
  · exact ⟨false, if_pos (.inl h0), iff_of_false Bool.false_ne_true fun h => absurd h.length.1 (by omega)⟩
  rw [if_neg (by omega), List.getElem?_append_left (by omega)]
  by_cases hfirst : name[0]? = some 0x2e
  · refine ⟨false, if_pos hfirst, iff_of_false Bool.false_ne_true fun h => ?_⟩
    obtain ⟨rest, rfl⟩ := List.head?_eq_some_iff.1 (List.head?_eq_getElem? ▸ hfirst)
    exact not_validLabel_nil (((@hostLabels_append_dot ([])) (by simp)).1 h.labels).1
  rw [if_neg hfirst]
  obtain ⟨valid, heq, hiff⟩ := (@validateLabels_eq _ name.length) tail hnul (Nat.le_refl _)
  exact ⟨valid, heq, hiff.trans ⟨fun h => ⟨⟨by omega, hlen⟩, h⟩, ValidHostname.labels⟩⟩

end OutlineServer
