import Mathlib.Data.List.Nodup
import Mathlib.Data.List.Pairwise

/-!
# The last uses of keys

`latest key uses` is the last use of each key, for a history `uses` that starts with the last one. The last uses of
the first `n` keys are again known after the next use from themselves alone (`take_latest_cons`), also when those that
are out of date are left out: what is up to date comes first, so that it makes no difference which is done first
(`take_filter`).
-/

namespace Recency

variable {κ α : Type} [DecidableEq κ] {key : α → κ} {p q : α → Bool} {l uses : List α} {a b : α} {k : κ} {n : Nat}

/-- The last use of each key, the last used key first. -/
def latest (key : α → κ) : List α → List α
  | [] => []
  | a :: uses => a :: (latest key uses).filter (key · ≠ key a)

theorem mem_of_mem_latest (h : a ∈ latest key uses) : a ∈ uses := by
  induction uses with
  | nil => exact h
  | cons b uses ih =>
    unfold latest at h
    rcases List.mem_cons.1 h with rfl | h
    · exact List.mem_cons_self
    · exact List.mem_cons_of_mem b (ih (List.mem_of_mem_filter h))

theorem nodup_latest : ((latest key uses).map key).Nodup := by
  induction uses with
  | nil => exact List.nodup_nil
  | cons a uses ih =>
    unfold latest
    refine List.nodup_cons.2 ⟨fun hmem => ?_, ih.sublist (List.filter_sublist.map key)⟩
    obtain ⟨b, hb, hkey⟩ := List.mem_map.1 hmem
    simpa [hkey] using List.of_mem_filter hb

theorem latest_sublist : (latest key uses).Sublist uses := by
  induction uses with
  | nil => exact List.Sublist.refl []
  | cons a uses ih => exact (List.filter_sublist.trans ih).cons_cons a

/-! ### Out of date -/

/-- What satisfies `p` comes first. -/
def Upward (p : α → Bool) (l : List α) : Prop := l.Pairwise fun a b => p b → p a

theorem Upward.sublist {l' : List α} (h : Upward p l) (hs : l'.Sublist l) : Upward p l' := List.Pairwise.sublist hs h

theorem take_filter (h : Upward p l) (n : Nat) : (l.filter p).take n = (l.take n).filter p := by
  induction l generalizing n with
  | nil => simp
  | cons a l ih =>
    obtain ⟨ha, hl⟩ := List.pairwise_cons.1 h
    cases n with
    | zero => simp
    | succ n =>
      by_cases hp : p a
      · rw [List.filter_cons_of_pos hp, List.take_succ_cons, List.take_succ_cons, List.filter_cons_of_pos hp, ih hl]
      · have hnone : ∀ b ∈ l, ¬ p b := fun b hb hpb => hp (ha b hb hpb)
        rw [List.filter_cons_of_neg hp, List.take_succ_cons, List.filter_cons_of_neg hp, List.filter_eq_nil_iff.2 hnone,
          List.filter_eq_nil_iff.2 fun b hb => hnone b (List.mem_of_mem_take hb), List.take_nil]

/-! ### The next use -/

theorem filter_key_eq_self (h : ∀ b ∈ l, key b ≠ k) : l.filter (key · ≠ k) = l :=
  List.filter_eq_self.2 fun b hb => by simpa using h b hb

theorem filter_key_eq_eraseIdx (h : (l.map key).Nodup) {i : Nat} (hi : l.findIdx? (key · = k) = some i) :
    l.filter (key · ≠ k) = l.take i ++ l.drop (i + 1) := by
  obtain ⟨hlt, hk, hbefore⟩ := List.findIdx?_eq_some_iff_getElem.1 hi
  have hsplit : l = l.take i ++ l[i] :: l.drop (i + 1) := by
    rw [List.getElem_cons_drop, List.take_append_drop]
  have hkey : key l[i] = k := of_decide_eq_true hk
  have hafter : ∀ b ∈ l.take i ++ l.drop (i + 1), key b ≠ k := by
    rw [hsplit, List.map_append, List.map_cons] at h
    have hnodup := List.nodup_cons.1 (List.nodup_middle.1 h)
    rw [hkey, ← List.map_append] at hnodup
    intro b hb heq
    exact hnodup.1 (heq ▸ List.mem_map_of_mem hb)
  conv_lhs => rw [hsplit]
  rw [List.filter_append, List.filter_cons_of_neg (by simpa using hkey), ← List.filter_append,
    filter_key_eq_self hafter]

/-- Only the first `n + 1` items matter for what the first `n` others are. -/
theorem take_filter_key (h : (l.map key).Nodup) (k : κ) (n : Nat) :
    (l.filter (key · ≠ k)).take n = ((l.take (n + 1)).filter (key · ≠ k)).take n := by
  rcases Nat.lt_or_ge n l.length with hlt | hle
  · conv_lhs => rw [← List.take_append_drop (n + 1) l, List.filter_append]
    refine List.take_append_of_le_length ?_
    -- at most one of the `n + 1` items has the key
    have hone : ((l.take (n + 1)).filter (key · = k)).length ≤ 1 := by
      have hnodup : (((l.take (n + 1)).filter (key · = k)).map key).Nodup :=
        h.sublist ((List.filter_sublist.trans (List.take_sublist _ _)).map key)
      have hall : ∀ x ∈ ((l.take (n + 1)).filter (key · = k)).map key, x = k := by
        intro x hx
        obtain ⟨b, hb, rfl⟩ := List.mem_map.1 hx
        simpa using List.of_mem_filter hb
      rw [List.eq_replicate_of_mem hall, List.length_map] at hnodup
      exact List.nodup_replicate.1 hnodup
    have hlen := List.length_eq_length_filter_add (l := l.take (n + 1)) (key · = k)
    rw [List.length_take, Nat.min_eq_left hlt] at hlen
    have hnot : (l.take (n + 1)).filter (fun b => !decide (key b = k)) = (l.take (n + 1)).filter (key · ≠ k) := by
      simp
    rw [hnot] at hlen
    omega
  · rw [List.take_of_length_le (Nat.le_succ_of_le hle)]

/-- The first `n + 1` last uses. -/
theorem take_latest_cons (h : ∀ b ∈ uses, p b → q b) (hp : Upward p (latest key uses)) (ha : p a) (n : Nat) :
    ((latest key (a :: uses)).filter p).take (n + 1) =
      a :: (((((latest key uses).filter q).take (n + 1)).filter p).filter (key · ≠ key a)).take n := by
  have hpq : ((latest key uses).filter q).filter p = (latest key uses).filter p := by
    rw [List.filter_filter]
    refine List.filter_congr fun b hb => ?_
    cases hpb : p b with
    | false => simp
    | true => simp [h b (mem_of_mem_latest hb) hpb]
  have hnodup : (((latest key uses).filter p).map key).Nodup := nodup_latest.sublist (List.filter_sublist.map key)
  rw [← take_filter (hp.sublist List.filter_sublist), hpq, ← take_filter_key hnodup]
  show ((a :: (latest key uses).filter (key · ≠ key a)).filter p).take (n + 1) = _
  rw [List.filter_cons_of_pos ha, List.take_succ_cons, List.filter_comm]

end Recency
