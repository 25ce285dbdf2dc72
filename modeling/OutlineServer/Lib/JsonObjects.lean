import Mathlib.Algebra.Ring.Int.Defs
import Mathlib.Algebra.Ring.Nat
import OutlineServer.Lib.JsonQuotes
import Mathlib.Algebra.BigOperators.Group.List.Basic

/-!
# Objects whose keys are put between quotes as they are

Such an object of numbers is understood if its keys are `Plain`. It is not understood otherwise, in whatever order its
members are wanted: what is read from a text never takes more characters than the text has, and as many only if none of
its keys needs an escape (`plain_of_members`).
-/

namespace Json

variable {s r k : List Char} {n : Nat} {v : Json} {ms ps : List (List Char × Json)}

/-- A member whose key is put between quotes as it is. -/
def rawMember (k w : List Char) : List Char := '"' :: k ++ '"' :: ':' :: w

/-- The characters that a number takes. -/
def width : Json → Nat
  | .num l => l.length
  | _ => 0

/-- What the members take with their quotes, their colons and what stands behind each. -/
def weight (ms : List (List Char × Json)) : Nat := (ms.map fun m => m.1.length + width m.2 + 4).sum

theorem weight_perm (h : ms.Perm ps) : weight ms = weight ps := (h.map _).sum_eq

/-! ### Reading -/

theorem string_length (h : string s = some (k, r)) :
    k.length + 1 + r.length ≤ s.length ∧ (k.length + 1 + r.length = s.length → Plain k) := by
  induction s using string.induct generalizing k r with
  | case1 => simp [string] at h
  | case2 s =>
    rw [string] at h
    cases h
    refine ⟨?_, fun _ c hc => absurd hc List.not_mem_nil⟩
    simp only [List.length_nil, List.length_cons]
    omega
  | case3 a b c d s ih =>
    simp only [string, Option.pure_def, Option.bind_eq_bind, Option.bind_eq_some_iff, Option.some.injEq] at h
    obtain ⟨e, -, r', hr', heq⟩ := h
    cases heq
    obtain ⟨hle, -⟩ := ih hr'
    simp only [List.length_cons]
    exact ⟨by omega, fun h => by omega⟩
  | case4 c s hc ih =>
    rw [string] at h
    · simp only [Option.pure_def, Option.bind_eq_bind, Option.bind_eq_some_iff, Option.some.injEq] at h
      obtain ⟨e, -, r', hr', heq⟩ := h
      cases heq
      obtain ⟨hle, -⟩ := ih hr'
      simp only [List.length_cons]
      exact ⟨by omega, fun h => by omega⟩
    · exact hc
  | case5 c s hq hu hb hc =>
    rw [string, if_pos hc] at h
    · cases h
    all_goals assumption
  | case6 c s hq hu hb hc ih =>
    rw [string, if_neg hc] at h
    · simp only [Option.pure_def, Option.bind_eq_bind, Option.bind_eq_some_iff, Option.some.injEq] at h
      obtain ⟨r', hr', heq⟩ := h
      cases heq
      obtain ⟨hle, hplain⟩ := ih hr'
      obtain ⟨hcb, hcc⟩ := not_or.1 hc
      simp only [List.length_cons]
      refine ⟨by omega, fun hlen => plain_cons.2 ⟨⟨hq, hcb, by simpa using hcc⟩, hplain (by omega)⟩⟩
    all_goals assumption

theorem skipWs_length (s : List Char) : (skipWs s).length ≤ s.length := (skipWs_suffix s).length_le

theorem length_of_skipWs {c : Char} (h : skipWs s = c :: r) : r.length + 1 ≤ s.length := by
  have hle := skipWs_length s
  rwa [h] at hle

theorem value_length (h : value n s = some (v, r)) : width v + r.length ≤ s.length := by
  cases v with
  | num l =>
    cases n with
    | zero =>
      rw [value] at h
      cases h
    | succ n =>
      rw [value] at h
      have hsplit : l.length + r.length = (skipWs s).length := by
        split at h
        · obtain ⟨_, -, heq⟩ := Option.map_eq_some_iff.1 h
          cases heq
        · split at h
          · cases h
          · obtain ⟨_, -, heq⟩ := Option.map_eq_some_iff.1 h
            cases heq
        · split at h
          · cases h
          · obtain ⟨_, -, heq⟩ := Option.map_eq_some_iff.1 h
            cases heq
        · unfold atom at h
          split at h
          · cases h
          · cases h
          · cases h
          · split at h
            · cases h
              rw [← List.length_append, List.takeWhile_append_dropWhile]
            · cases h
      have hle := skipWs_length s
      show l.length + r.length ≤ s.length
      omega
  | _ =>
    have hle : r.length ≤ s.length := ((leaves n).value h).1.length_le
    show 0 + r.length ≤ s.length
    omega

/-- The members that are read take no more than the text, and as much only if no key needs an escape. -/
theorem members_length (h : members n s = some (ms, r)) :
    weight ms + r.length ≤ s.length ∧ (weight ms + r.length = s.length → ∀ m ∈ ms, Plain m.1) := by
  induction n generalizing s ms with
  | zero =>
    rw [members] at h
    cases h
  | succ n ih =>
    rw [members] at h
    split at h
    · rename_i s₁ hs
      obtain ⟨⟨k, s₂⟩, hk, h⟩ := Option.bind_eq_some_iff.1 h
      have h₁ := length_of_skipWs hs
      obtain ⟨hle, hplain⟩ := string_length hk
      split at h
      · rename_i s₃ hs₃
        obtain ⟨⟨v, s₄⟩, hv, h⟩ := Option.bind_eq_some_iff.1 h
        have h₃ : s₃.length + 1 ≤ s₂.length := length_of_skipWs hs₃
        have h₄ := value_length hv
        split at h
        · -- a comma, and the members behind it
          rename_i s₅ hs₅
          obtain ⟨⟨ms', r'⟩, hms', heq⟩ := Option.map_eq_some_iff.1 h
          cases heq
          have h₅ : s₅.length + 1 ≤ s₄.length := length_of_skipWs hs₅
          obtain ⟨hrest, hrestPlain⟩ := ih hms'
          have hw : weight ((k, v) :: ms') = k.length + width v + 4 + weight ms' := rfl
          rw [hw]
          refine ⟨by omega, fun heq => List.forall_mem_cons.2 ⟨hplain (by omega), hrestPlain (by omega)⟩⟩
        · rename_i s₅ hs₅
          cases h
          have h₅ : r.length + 1 ≤ s₄.length := length_of_skipWs hs₅
          have hw : weight [(k, v)] = k.length + width v + 4 := rfl
          rw [hw]
          refine ⟨by omega, fun heq => List.forall_mem_singleton.2 (hplain (by omega))⟩
        · cases h
      · cases h
    · cases h

/-! ### Writing -/

/-- The object, whose members are numbers. -/
def rawObject (ps : List (List Char × List Char)) : List Char :=
  '\x7b' :: commaSep (ps.map fun p => rawMember p.1 p.2) ++ ['\x7d']

def numbers (ps : List (List Char × List Char)) : List (List Char × Json) := ps.map fun p => (p.1, .num p.2)

variable {l : List (List Char × List Char)}

theorem Spells.rawObject (hkeys : ∀ p ∈ l, Plain p.1) (hnums : ∀ p ∈ l, IsNumber p.2) :
    Spells (rawObject l) (.obj (numbers l)) := by
  refine Spells.obj_blank (b := []) ?_ blank_nil
  unfold numbers
  rw [List.forall₂_map_left_iff, List.forall₂_map_right_iff, List.forall₂_same]
  exact fun p hp => ⟨[], p.1, p.2, rfl, blank_nil, (hkeys p hp).quotes, .num (hnums p hp)⟩

theorem length_commaSep (ws : List (List Char)) (hne : ws ≠ []) :
    (commaSep ws).length + 1 = (ws.map fun w => w.length + 1).sum := by
  induction ws with
  | nil => exact absurd rfl hne
  | cons w ws ih =>
    cases ws with
    | nil => simp [commaSep]
    | cons w' ws =>
      have hws := ih (by simp)
      rw [commaSep_cons w (by simp), List.length_append, List.length_cons, List.map_cons, List.sum_cons]
      omega

/-- The text takes what its members take, and its opening brace. -/
theorem length_rawObject (hne : l ≠ []) : (rawObject l).length = weight (numbers l) + 1 := by
  have hlen := length_commaSep (l.map fun p => rawMember p.1 p.2) (by simpa using hne)
  have hmap : (l.map fun p => rawMember p.1 p.2).map (fun w => w.length + 1) =
      (numbers l).map fun m => m.1.length + width m.2 + 4 := by
    unfold numbers
    rw [List.map_map, List.map_map]
    refine List.map_congr_left fun p _ => ?_
    simp only [Function.comp_apply, rawMember, width, List.length_cons, List.length_append]
    omega
  rw [hmap] at hlen
  simp only [rawObject, List.length_append, List.length_cons, List.length_nil]
  exact congrArg (· + 1) hlen

/-- If an object is understood as its members in some order, none of its keys needs an escape. -/
theorem plain_of_rawObject (h : parse (rawObject l) = some (.obj ms)) (hms : ms.Perm (numbers l)) :
    ∀ p ∈ l, Plain p.1 := by
  by_cases hne : l = []
  · simp [hne]
  have hmembers : ∃ s r, members (rawObject l).length s = some (ms, r) ∧ s.length + 1 ≤ (rawObject l).length := by
    rw [parse, rawObject, List.cons_append, value, skipWs_cons rfl] at h
    simp only at h
    split at h
    · rename_i hv
      split at h
      · cases h
        split at hv
        · cases hv
          exact absurd (List.map_eq_nil_iff.1 hms.symm.eq_nil) hne
        · obtain ⟨⟨ms', r⟩, hr, heq⟩ := Option.map_eq_some_iff.1 hv
          cases heq
          refine ⟨_, r, hr, ?_⟩
          exact Nat.succ_le_succ (skipWs_length _)
      · cases h
    · cases h
  obtain ⟨s, r, hr, hs⟩ := hmembers
  obtain ⟨hle, hplain⟩ := members_length hr
  have hw : weight ms = weight (numbers l) := weight_perm hms
  have hlen := length_rawObject hne
  intro p hp
  exact hplain (by omega) (p.1, .num p.2) (hms.symm.subset (List.mem_map_of_mem hp))

end Json
