import Mathlib.Data.List.FinRange
import Mathlib.Data.List.Induction
import Mathlib.Data.List.Nodup
import Mathlib.Logic.Function.Basic

/-!
# The resolver's table of sockets (`resolv.c`)

c-ares tells `resolv_sock_state_cb` which events it wants of which socket, and that it wants none any more only of a
socket that it has wanted some of (`Withdraws`). While it wants events of no more sockets than there are slots, the
table holds them (`accounts_of_withdraws`). The code does not check what c-ares does: a request for no events of a
socket that is not in a full table would take a slot from another (`accounts_run`, `idle_evicts`).
-/

namespace OutlineServer.ResolvSocks
open Function

def SS_NUM_IOS : Nat := 6
def SS_INVALID_FD : Int := -1
def EV_READ : Nat := 1
def EV_WRITE : Nat := 2

/-- A watcher; `active` is whether it has been started. -/
structure Io where
  fd : Int
  events : Nat
  active : Bool
deriving DecidableEq

/-- `ctx->ios` -/
abbrev Ios := Fin SS_NUM_IOS → Io

/-- A call of `resolv_sock_state_cb`. -/
structure Call where
  s : Nat
  read : Bool
  write : Bool
deriving DecidableEq

def Call.events (c : Call) : Nat := (if c.read then EV_READ else 0) ||| (if c.write then EV_WRITE else 0)

def ev_io_stop (w : Io) : Io := { w with active := false }
def ev_io_set (w : Io) (fd : Int) (events : Nat) : Io := { w with fd := fd, events := events }
def ev_io_start (w : Io) : Io := { w with active := true }

/-- What `resolv_init` makes. -/
def resolv_init : Ios := fun _ => ⟨SS_INVALID_FD, 0, false⟩

/-- The loop of `resolv_sock_state_cb` over the slots that are left: the slot of `s`, and the first free one. -/
def searchLoop (ios : Ios) (s : Nat) : List (Fin SS_NUM_IOS) → (ffi : Option (Fin SS_NUM_IOS)) →
    Option (Fin SS_NUM_IOS) × Option (Fin SS_NUM_IOS)
  | [], ffi => (none, ffi)
  | i :: rest, ffi =>
    if (ios i).fd = s then (some i, ffi)
    else searchLoop ios s rest (if ffi = none ∧ (ios i).fd = SS_INVALID_FD then some i else ffi)

/-- The slot, and the watchers with that one stopped if it has been in use. -/
def slot (ios : Ios) (s : Nat) : Fin SS_NUM_IOS × Ios :=
  match searchLoop ios s (List.finRange SS_NUM_IOS) none with
  | (some i, _) => (i, update ios i (ev_io_stop (ios i)))
  | (none, some ffi) => (ffi, ios)
  | (none, none) => (⟨0, by decide⟩, update ios ⟨0, by decide⟩ (ev_io_stop (ios ⟨0, by decide⟩)))

def resolv_sock_state_cb (ios : Ios) (c : Call) : Ios :=
  let (i, ios) := slot ios c.s
  if c.events ≠ 0 then
    update ios i (ev_io_start (ev_io_set (ios i) c.s c.events))
  else
    update ios i (ev_io_set (ios i) SS_INVALID_FD 0)

/-- The table after the calls. -/
def table (cs : List Call) : Ios := cs.foldl resolv_sock_state_cb resolv_init

/-- The events that the latest call for a socket has asked for. -/
def wanted (cs : List Call) : Nat → Nat := cs.foldl (fun w c => update w c.s c.events) fun _ => 0

/-- Events of no more sockets than there are slots are wanted. -/
def Within (w : Nat → Nat) : Prop := ∀ l : List Nat, l.Nodup → (∀ s ∈ l, w s ≠ 0) → l.length ≤ SS_NUM_IOS

/-- The call asks for no events of a socket that is not in a full table. -/
def Evicts (ios : Ios) (c : Call) : Prop := c.events = 0 ∧ ∀ i, (ios i).fd ≠ c.s ∧ (ios i).fd ≠ SS_INVALID_FD

/-- What c-ares does: it makes a change known, and wants no more events only of a socket that it wants events of. -/
def Withdraws (cs : List Call) : Prop := ∀ pre c, pre ++ [c] <+: cs → c.events = 0 → wanted pre c.s ≠ 0

/-- The slots in use are those of the sockets that events are wanted of, each once, with these events. -/
structure Accounts (ios : Ios) (w : Nat → Nat) : Prop where
  free : ∀ i, (ios i).fd = SS_INVALID_FD → (ios i).active = false
  used : ∀ i, (ios i).fd ≠ SS_INVALID_FD → ∃ s, w s ≠ 0 ∧ ios i = ⟨s, w s, true⟩
  once : ∀ s, w s ≠ 0 → ∃! i, (ios i).fd = s

/-- The slot is the socket's, or a free one if the socket has none. -/
def Takes (ios : Ios) (i : Fin SS_NUM_IOS) (s : Nat) : Prop :=
  (ios i).fd = s ∨ (∀ j, (ios j).fd ≠ s) ∧ (ios i).fd = SS_INVALID_FD

variable {ios : Ios} {w : Nat → Nat} {c : Call} {cs : List Call} {s : Nat} {i : Fin SS_NUM_IOS}
  {l : List (Fin SS_NUM_IOS)} {ffi : Option (Fin SS_NUM_IOS)}

theorem natCast_ne_invalid (s : Nat) : (s : Int) ≠ SS_INVALID_FD := by
  unfold SS_INVALID_FD
  omega

/-! ### The slot that a call takes -/

theorem searchLoop_found {ffi' : Option (Fin SS_NUM_IOS)} (h : searchLoop ios s l ffi = (some i, ffi')) :
    (ios i).fd = s := by
  induction l generalizing ffi with
  | nil => cases h
  | cons j rest ih =>
    rw [searchLoop] at h
    split at h
    · cases h
      assumption
    · exact ih h

theorem searchLoop_none {ffi' : Option (Fin SS_NUM_IOS)} (h : searchLoop ios s l ffi = (none, ffi')) :
    (∀ j ∈ l, (ios j).fd ≠ s) ∧ (∀ j, ffi' = some j → ffi = some j ∨ (ios j).fd = SS_INVALID_FD) ∧
      (ffi' = none → ffi = none ∧ ∀ j ∈ l, (ios j).fd ≠ SS_INVALID_FD) := by
  induction l generalizing ffi with
  | nil =>
    cases h
    exact ⟨by simp, fun j hj => .inl hj, fun hn => ⟨hn, by simp⟩⟩
  | cons k rest ih =>
    rw [searchLoop] at h
    split at h
    · cases h
    · rename_i hk
      obtain ⟨hfd, hsome, hnone⟩ := ih h
      refine ⟨List.forall_mem_cons.2 ⟨hk, hfd⟩, fun j hj => ?_, fun hn => ?_⟩
      · rcases hsome j hj with hffi | hfree
        · split at hffi
          · rename_i hcond
            cases hffi
            exact .inr hcond.2
          · exact .inl hffi
        · exact .inr hfree
      · obtain ⟨hffi, hrest⟩ := hnone hn
        split at hffi
        · cases hffi
        · rename_i hcond
          exact ⟨hffi, List.forall_mem_cons.2 ⟨fun hfree => hcond ⟨hffi, hfree⟩, hrest⟩⟩

/-- The slot of the socket, a free one, or none of both. -/
theorem slot_cases (ios : Ios) (s : Nat) :
    (∃ i, (ios i).fd = s ∧ slot ios s = (i, update ios i (ev_io_stop (ios i)))) ∨
    ((∀ j, (ios j).fd ≠ s) ∧ ∃ i, (ios i).fd = SS_INVALID_FD ∧ slot ios s = (i, ios)) ∨
    ∀ j, (ios j).fd ≠ s ∧ (ios j).fd ≠ SS_INVALID_FD := by
  rcases hsearch : searchLoop ios s (List.finRange SS_NUM_IOS) none with ⟨_ | i, ffi⟩
  · obtain ⟨hfd, hsome, hnone⟩ := searchLoop_none hsearch
    cases ffi with
    | none => exact .inr (.inr fun j => ⟨hfd j (List.mem_finRange j), (hnone rfl).2 j (List.mem_finRange j)⟩)
    | some i =>
      refine .inr (.inl ⟨fun j => hfd j (List.mem_finRange j), i, ?_, ?_⟩)
      · rcases hsome i rfl with h | h
        · cases h
        · exact h
      · rw [slot, hsearch]
  · refine .inl ⟨i, searchLoop_found hsearch, ?_⟩
    rw [slot, hsearch]

/-! ### One call -/

namespace Accounts

theorem init : Accounts resolv_init fun _ => 0 where
  free _ _ := rfl
  used _ h := absurd rfl h
  once _ h := absurd rfl h

theorem wanted_of_fd (h : Accounts ios w) (hi : (ios i).fd = s) : w s ≠ 0 := by
  obtain ⟨s', hs', heq⟩ := h.used i (hi ▸ natCast_ne_invalid s)
  rw [heq] at hi
  obtain rfl : s' = s := Int.ofNat_inj.1 hi
  exact hs'

/-- The other slots in use are those of other sockets. -/
theorem used_other (h : Accounts ios w) (hi : Takes ios i s) {e : Nat} {j : Fin SS_NUM_IOS} (hji : j ≠ i)
    (hj : (ios j).fd ≠ SS_INVALID_FD) : ∃ s', update w s e s' ≠ 0 ∧ ios j = ⟨s', update w s e s', true⟩ := by
  obtain ⟨s', hs', heq⟩ := h.used j hj
  have hne : s' ≠ s := by
    rintro rfl
    have hfd : (ios j).fd = s' := by rw [heq]
    rcases hi with hi | ⟨hnone, -⟩
    · exact hji ((h.once s' hs').unique hfd hi)
    · exact hnone j hfd
  exact ⟨s', by rwa [update_of_ne hne], by rw [update_of_ne hne, heq]⟩

/-- The other sockets keep their slots. -/
theorem once_other (h : Accounts ios w) (hi : Takes ios i s) {s' : Nat} (hs' : w s' ≠ 0) (hne : s' ≠ s) {x : Io}
    (hx : x.fd ≠ s') : ∃! j, (update ios i x j).fd = s' := by
  obtain ⟨k, hk, huniq⟩ := h.once s' hs'
  have hki : k ≠ i := by
    rintro rfl
    rcases hi with hi | ⟨-, hfree⟩
    · exact hne (Int.ofNat_inj.1 (hk.symm.trans hi))
    · exact natCast_ne_invalid s' (hk.symm.trans hfree)
  refine ⟨k, ?_, fun j hj => ?_⟩
  · show (update ios i x k).fd = s'
    rwa [update_of_ne hki]
  · change (update ios i x j).fd = s' at hj
    by_cases hji : j = i
    · subst hji
      rw [update_self] at hj
      exact absurd hj hx
    · rw [update_of_ne hji] at hj
      exact huniq j hj

/-- A slot that is the socket's or free gets the socket's events. -/
theorem put (h : Accounts ios w) {e : Nat} (he : e ≠ 0) (hi : Takes ios i s) :
    Accounts (update ios i ⟨s, e, true⟩) (update w s e) where
  free j hj := by
    by_cases hji : j = i
    · subst hji
      rw [update_self] at hj
      exact absurd hj (natCast_ne_invalid s)
    · rw [update_of_ne hji] at hj ⊢
      exact h.free j hj
  used j hj := by
    by_cases hji : j = i
    · subst hji
      exact ⟨s, by rwa [update_self], by rw [update_self, update_self]⟩
    · rw [update_of_ne hji] at hj ⊢
      exact h.used_other hi hji hj
  once s' hs' := by
    by_cases hne : s' = s
    · subst hne
      refine ⟨i, ?_, fun j hj => ?_⟩
      · show (update ios i _ i).fd = s'
        rw [update_self]
      · change (update ios i _ j).fd = s' at hj
        by_contra hji
        rw [update_of_ne hji] at hj
        rcases hi with hi | ⟨hnone, -⟩
        · exact hji ((h.once s' (h.wanted_of_fd hj)).unique hj hi)
        · exact hnone j hj
    · rw [update_of_ne hne] at hs'
      exact h.once_other hi hs' hne fun heq => hne (Int.ofNat_inj.1 heq).symm

/-- A slot that is the socket's or free is given back. -/
theorem clear (h : Accounts ios w) (hi : Takes ios i s) :
    Accounts (update ios i ⟨SS_INVALID_FD, 0, false⟩) (update w s 0) where
  free j hj := by
    by_cases hji : j = i
    · subst hji
      rw [update_self]
    · rw [update_of_ne hji] at hj ⊢
      exact h.free j hj
  used j hj := by
    by_cases hji : j = i
    · subst hji
      rw [update_self] at hj
      exact absurd rfl hj
    · rw [update_of_ne hji] at hj ⊢
      exact h.used_other hi hji hj
  once s' hs' := by
    have hne : s' ≠ s := by
      rintro rfl
      rw [update_self] at hs'
      exact hs' rfl
    rw [update_of_ne hne] at hs'
    exact h.once_other hi hs' hne (natCast_ne_invalid s').symm

/-- A full table has as many sockets as slots. -/
theorem full (h : Accounts ios w) (hfull : ∀ j, (ios j).fd ≠ s ∧ (ios j).fd ≠ SS_INVALID_FD) {e : Nat} (he : e ≠ 0) :
    ¬ Within (update w s e) := by
  intro hwithin
  choose f hf using fun j => h.used j (hfull j).2
  have hfd : ∀ j, (ios j).fd = f j := fun j => by rw [(hf j).2]
  have hinj : Injective f := by
    intro j k hjk
    refine (h.once (f j) (hf j).1).unique (hfd j) ?_
    rw [hfd k, hjk]
  have hs : ∀ j, f j ≠ s := fun j hj => (hfull j).1 (hj ▸ hfd j)
  have hnodup : (s :: (List.finRange SS_NUM_IOS).map f).Nodup := by
    refine List.nodup_cons.2 ⟨fun hmem => ?_, (List.nodup_finRange _).map hinj⟩
    obtain ⟨j, -, hj⟩ := List.mem_map.1 hmem
    exact hs j hj
  have hlen := hwithin _ hnodup fun s' hs' => by
    rcases List.mem_cons.1 hs' with rfl | hmem
    · rwa [update_self]
    · obtain ⟨j, -, rfl⟩ := List.mem_map.1 hmem
      rw [update_of_ne (hs j)]
      exact (hf j).1
  rw [List.length_cons, List.length_map, List.length_finRange] at hlen
  omega

theorem step (h : Accounts ios w) (hwithin : Within (update w c.s c.events)) (hc : ¬ Evicts ios c) :
    Accounts (resolv_sock_state_cb ios c) (update w c.s c.events) := by
  rcases slot_cases ios c.s with ⟨i, hi, hslot⟩ | ⟨hnone, i, hi, hslot⟩ | hfull
  · unfold resolv_sock_state_cb
    rw [hslot]
    simp only [update_self, update_idem]
    split
    · rename_i he
      exact h.put he (.inl hi)
    · rename_i he
      rw [not_not.1 he]
      exact h.clear (.inl hi)
  · unfold resolv_sock_state_cb
    rw [hslot]
    simp only
    split
    · rename_i he
      exact h.put he (.inr ⟨hnone, hi⟩)
    · rename_i he
      have hw : ev_io_set (ios i) SS_INVALID_FD 0 = ⟨SS_INVALID_FD, 0, false⟩ := by
        rw [ev_io_set, h.free i hi]
      rw [not_not.1 he, hw]
      exact h.clear (.inr ⟨hnone, hi⟩)
  · by_cases he : c.events = 0
    · exact absurd ⟨he, hfull⟩ hc
    · exact absurd hwithin (h.full hfull he)

/-- A socket that events are wanted of has a slot. -/
theorem not_evicts (h : Accounts ios w) (hc : c.events = 0 → w c.s ≠ 0) : ¬ Evicts ios c := by
  rintro ⟨he, hfull⟩
  obtain ⟨i, hi, -⟩ := h.once c.s (hc he)
  exact (hfull i).1 hi

end Accounts

/-! ### Every sequence of calls -/

theorem table_concat (cs : List Call) (c : Call) : table (cs ++ [c]) = resolv_sock_state_cb (table cs) c := by
  unfold table
  rw [List.foldl_concat]

theorem wanted_concat (cs : List Call) (c : Call) : wanted (cs ++ [c]) = update (wanted cs) c.s c.events := by
  unfold wanted
  rw [List.foldl_concat]

/-- At every time the sockets of which events are wanted have room in the table, and no call evicts one of them. -/
theorem accounts_run (cs : List Call) (hwithin : ∀ pre, pre <+: cs → Within (wanted pre))
    (hevicts : ∀ pre c, pre ++ [c] <+: cs → ¬ Evicts (table pre) c) : Accounts (table cs) (wanted cs) := by
  induction cs using List.reverseRecOn with
  | nil => exact Accounts.init
  | append_singleton cs c ih =>
    have hcs := ih (fun pre hpre => hwithin pre (hpre.trans (List.prefix_append _ _)))
      (fun pre c' hpre => hevicts pre c' (hpre.trans (List.prefix_append _ _)))
    have hlast := hwithin (cs ++ [c]) List.prefix_rfl
    rw [wanted_concat] at hlast
    rw [table_concat, wanted_concat]
    exact hcs.step hlast (hevicts cs c List.prefix_rfl)

/-- The table holds the sockets that c-ares wants events of, whatever they are and in any order
that they come and go. -/
theorem accounts_of_withdraws (cs : List Call) (hwithin : ∀ pre, pre <+: cs → Within (wanted pre))
    (hwithdraws : Withdraws cs) : Accounts (table cs) (wanted cs) := by
  refine accounts_run cs hwithin fun pre c hpre => ?_
  have hpre' : pre <+: cs := (List.prefix_append _ _).trans hpre
  have hlt : pre.length < cs.length := by
    have hle := hpre.length_le
    rw [List.length_append, List.length_singleton] at hle
    exact hle
  -- the calls before are accounted for
  have haccounts := accounts_of_withdraws pre (fun pre' h => hwithin pre' (h.trans hpre'))
    fun pre' c' h => hwithdraws pre' c' (h.trans hpre')
  exact haccounts.not_evicts (hwithdraws pre c hpre)
termination_by cs.length

theorem exists_call (h : wanted cs s ≠ 0) : ∃ c ∈ cs, c.s = s ∧ c.events ≠ 0 := by
  induction cs using List.reverseRecOn with
  | nil => exact absurd rfl h
  | append_singleton cs c ih =>
    rw [wanted_concat] at h
    by_cases hs : c.s = s
    · rw [hs, update_self] at h
      exact ⟨c, by simp, hs, h⟩
    · rw [update_of_ne (Ne.symm hs)] at h
      obtain ⟨c', hc', hs'⟩ := ih h
      exact ⟨c', List.mem_append_left _ hc', hs'⟩

/-- Calls that want events of no more sockets than there are slots. -/
theorem within_of_calls {l : List Nat} (hl : l.length ≤ SS_NUM_IOS) (h : ∀ c ∈ cs, c.events ≠ 0 → c.s ∈ l) :
    ∀ pre, pre <+: cs → Within (wanted pre) := by
  intro pre hpre l' hnodup hl'
  have hsub : l' ⊆ l := by
    intro s hs
    obtain ⟨c, hc, rfl, he⟩ := exists_call (hl' s hs)
    exact h c (hpre.subset hc) he
  exact (List.subperm_of_subset hnodup hsub).length_le.trans hl

instance (ios : Ios) (c : Call) : Decidable (Evicts ios c) := inferInstanceAs (Decidable (_ ∧ ∀ _, _))

/-- Six sockets come, one goes, its descriptor comes again. -/
def comeAndGo : List Call :=
  [⟨4, true, false⟩, ⟨5, true, false⟩, ⟨6, true, true⟩, ⟨7, true, false⟩, ⟨8, true, false⟩, ⟨9, true, false⟩,
    ⟨6, false, false⟩, ⟨6, true, false⟩]

/-- Six sockets, and a request for nothing of a seventh. -/
def idleSeventh : List Call :=
  [⟨4, true, false⟩, ⟨5, true, false⟩, ⟨6, true, false⟩, ⟨7, true, false⟩, ⟨8, true, false⟩, ⟨9, true, false⟩,
    ⟨10, false, false⟩]

theorem accounts_of_withdraws_comeAndGo : Accounts (table comeAndGo) (wanted comeAndGo) := by
  refine accounts_of_withdraws comeAndGo (within_of_calls (l := [4, 5, 6, 7, 8, 9]) (by decide) (by decide))
    fun pre c hpre => ?_
  have hcalls : ∀ n : Fin comeAndGo.length, comeAndGo[n].events = 0 →
      wanted (comeAndGo.take n) comeAndGo[n].s ≠ 0 := by decide
  obtain ⟨post, hpost⟩ := hpre
  have hlen : pre.length < comeAndGo.length := by
    rw [← hpost]
    simp
  have hcall := hcalls ⟨pre.length, hlen⟩
  simp only [← hpost] at hcall
  simpa using hcall

/-- Such a request, which c-ares does not make, takes the slot of socket 4. -/
theorem idle_evicts : (∀ pre, pre <+: idleSeventh → Within (wanted pre)) ∧
    ¬ Accounts (table idleSeventh) (wanted idleSeventh) := by
  refine ⟨within_of_calls (l := [4, 5, 6, 7, 8, 9]) (by decide) (by decide), fun h => ?_⟩
  obtain ⟨i, hi, -⟩ := h.once 4 (by decide)
  revert i
  decide

end OutlineServer.ResolvSocks
