import OutlineServer.IpLock
import OutlineServer.Lib.Recency

/-!
# The recent addresses (`ip_lock_push_recent`)

The calls on one of the two arrays of `ip_lock.c` since it has been reset, in any order: an address is pushed, or the
array is pruned when the status is written. What is in the array are the first of the addresses pushed, by their last
push and as far as they were up to date when it was pruned last.
-/

namespace OutlineServer
open Recency

inductive RecentCall
  | push (ip : Text) (now : Nat)
  | prune (now : Nat)
deriving DecidableEq

namespace RecentCall

def now : RecentCall → Nat
  | push _ now => now
  | prune now => now

def run (store : List RecentEntry) : RecentCall → List RecentEntry
  | push ip now => ip_lock_push_recent store ip now
  | prune now => ip_lock_prune_recent store now

def entry? : RecentCall → Option RecentEntry
  | push ip now => some ⟨ip, now⟩
  | prune _ => none

/-- The addresses fit into an entry. -/
def Fits : RecentCall → Prop
  | push ip _ => ip ≠ [] ∧ ip.length < INET6_ADDRSTRLEN
  | prune _ => True

instance : (c : RecentCall) → Decidable c.Fits
  | push ip _ => inferInstanceAs (Decidable (ip ≠ [] ∧ ip.length < INET6_ADDRSTRLEN))
  | prune _ => isTrue trivial

end RecentCall

/-- The array after the calls. -/
def recentEntries (calls : List RecentCall) : List RecentEntry := calls.foldl RecentCall.run []

/-- What has been pushed, the last push first. -/
def pushed (calls : List RecentCall) : List RecentEntry := (calls.filterMap RecentCall.entry?).reverse

/-- The time of the last call; each call prunes. -/
def lastPrune (calls : List RecentCall) : Nat := (calls.getLast?.map RecentCall.now).getD 0

def upToDate (now : Nat) (e : RecentEntry) : Bool := now - e.seen_at ≤ IP_LOCK_RECENT_TTL_SEC

/-- The first addresses of `pushes`, but the ones that are up to date. -/
def firstRecent (pushes : List RecentEntry) (now : Nat) : List RecentEntry :=
  ((latest RecentEntry.ip pushes).take IP_LOCK_RECENT_MAX).filter (upToDate now)

variable {pushes store : List RecentEntry} {e : RecentEntry} {ip : Text} {now now' : Nat}

theorem upToDate_self : upToDate now ⟨ip, now⟩ = true := by simp [upToDate]

theorem upToDate_mono (h : now ≤ now') (he : upToDate now' e) : upToDate now e := by
  simp only [upToDate, decide_eq_true_eq] at he ⊢
  omega

/-- Of two pushes the later one is up to date if the other one is. -/
theorem upward_upToDate (h : pushes.Pairwise fun e e' => e'.seen_at ≤ e.seen_at) (now : Nat) :
    Upward (upToDate now) pushes := by
  refine h.imp fun hle he => ?_
  simp only [upToDate, decide_eq_true_eq] at he ⊢
  omega

theorem prune_eq (store : List RecentEntry) (now : Nat) :
    ip_lock_prune_recent store now = store.filter (upToDate now) := rfl

/-- An address that is there moves to the front; another one is put there, and the last may have to go. -/
theorem push_eq (hne : ip ≠ []) (hlen : ip.length < INET6_ADDRSTRLEN) (hnodup : (store.map RecentEntry.ip).Nodup)
    (hmax : store.length ≤ IP_LOCK_RECENT_MAX) (now : Nat) : ip_lock_push_recent store ip now =
      ⟨ip, now⟩ :: ((store.filter (upToDate now)).filter (·.ip ≠ ip)).take (IP_LOCK_RECENT_MAX - 1) := by
  have hnodup' : ((store.filter (upToDate now)).map RecentEntry.ip).Nodup :=
    hnodup.sublist (List.filter_sublist.map _)
  have hmax' : (store.filter (upToDate now)).length ≤ IP_LOCK_RECENT_MAX :=
    Nat.le_trans (List.length_filter_le _ _) hmax
  unfold ip_lock_push_recent
  rw [if_neg hne, prune_eq]
  generalize store.filter (upToDate now) = pruned at hnodup' hmax' ⊢
  dsimp only
  cases hfind : pruned.findIdx? (·.ip = ip) with
  | some i =>
    have hi : i < pruned.length := (List.findIdx?_eq_some_iff_getElem.1 hfind).1
    have hle : (pruned.take i ++ pruned.drop (i + 1)).length ≤ IP_LOCK_RECENT_MAX - 1 := by
      simp only [List.length_append, List.length_take, List.length_drop]
      omega
    rw [filter_key_eq_eraseIdx hnodup' hfind, List.take_of_length_le hle]
  | none =>
    have hall : ∀ e ∈ pruned, e.ip ≠ ip := by
      intro e he
      simpa using List.findIdx?_eq_none_iff.1 hfind e he
    rw [filter_key_eq_self hall]
    have hcopy : strncpyz INET6_ADDRSTRLEN ip = ip := List.take_of_length_le (Nat.le_pred_of_lt hlen)
    simp only [hcopy]
    split
    · rename_i hroom
      have hle : pruned.length ≤ IP_LOCK_RECENT_MAX - 1 := Nat.le_pred_of_lt hroom
      rw [Nat.add_sub_cancel, List.take_of_length_le (Nat.le_refl _), List.take_of_length_le hle]
    · rfl

/-! ### Runs -/

/-- The array holds the first of `pushes`, which are in the order of their times and no later than `now`. -/
structure RecentInv (pushes store : List RecentEntry) (now : Nat) : Prop where
  store_eq : store = firstRecent pushes now
  sorted : pushes.Pairwise fun e e' => e'.seen_at ≤ e.seen_at
  past : ∀ e ∈ pushes, e.seen_at ≤ now

namespace RecentInv

theorem upward (h : RecentInv pushes store now) (now' : Nat) : Upward (upToDate now') (latest RecentEntry.ip pushes) :=
  (upward_upToDate h.sorted now').sublist latest_sublist

theorem nodup (h : RecentInv pushes store now) : (store.map RecentEntry.ip).Nodup := by
  rw [h.store_eq]
  exact nodup_latest.sublist ((List.filter_sublist.trans (List.take_sublist _ _)).map _)

theorem length_le (h : RecentInv pushes store now) : store.length ≤ IP_LOCK_RECENT_MAX := by
  rw [h.store_eq]
  exact Nat.le_trans (List.length_filter_le _ _) (List.length_take_le _ _)

theorem prune (h : RecentInv pushes store now) (hnow : now ≤ now') :
    RecentInv pushes (ip_lock_prune_recent store now') now' where
  store_eq := by
    rw [prune_eq, h.store_eq]
    unfold firstRecent
    rw [List.filter_filter]
    refine List.filter_congr fun e _ => ?_
    cases he : upToDate now' e with
    | false => rfl
    | true => exact upToDate_mono hnow he
  sorted := h.sorted
  past e he := Nat.le_trans (h.past e he) hnow

theorem push (h : RecentInv pushes store now) (hnow : now ≤ now') (hne : ip ≠ [])
    (hlen : ip.length < INET6_ADDRSTRLEN) :
    RecentInv (⟨ip, now'⟩ :: pushes) (ip_lock_push_recent store ip now') now' where
  store_eq := by
    rw [push_eq hne hlen h.nodup h.length_le, h.store_eq]
    have hsorted : (⟨ip, now'⟩ :: pushes).Pairwise fun e e' : RecentEntry => e'.seen_at ≤ e.seen_at :=
      List.pairwise_cons.2 ⟨fun e he => Nat.le_trans (h.past e he) hnow, h.sorted⟩
    have hup : Upward (upToDate now') (latest RecentEntry.ip (⟨ip, now'⟩ :: pushes)) :=
      (upward_upToDate hsorted now').sublist latest_sublist
    unfold firstRecent
    rw [← take_filter hup, ← take_filter (h.upward now)]
    exact (take_latest_cons (fun e _ => upToDate_mono hnow) (h.upward now') upToDate_self _).symm
  sorted := List.pairwise_cons.2 ⟨fun e he => Nat.le_trans (h.past e he) hnow, h.sorted⟩
  past e he := by
    rcases List.mem_cons.1 he with rfl | he
    · exact Nat.le_refl _
    · exact Nat.le_trans (h.past e he) hnow

theorem call {c : RecentCall} (h : RecentInv pushes store now) (hnow : now ≤ c.now) (hc : c.Fits) :
    RecentInv (c.entry?.toList ++ pushes) (c.run store) c.now := by
  cases c with
  | push ip now' => exact h.push hnow hc.1 hc.2
  | prune now' => exact h.prune hnow

theorem calls {calls : List RecentCall} (hsorted : (calls.map RecentCall.now).Pairwise (· ≤ ·))
    (hfits : ∀ c ∈ calls, c.Fits) : RecentInv (pushed calls) (recentEntries calls) (lastPrune calls) := by
  induction calls using List.reverseRecOn with
  | nil => exact ⟨rfl, .nil, fun e he => by cases he⟩
  | append_singleton calls c ih =>
    rw [List.map_append, List.pairwise_append] at hsorted
    have hlast : lastPrune calls ≤ c.now := by
      unfold lastPrune
      cases hl : calls.getLast? with
      | none => exact Nat.zero_le _
      | some c' => exact hsorted.2.2 _ (List.mem_map_of_mem (List.mem_of_getLast? hl)) _ (List.mem_singleton.2 rfl)
    have hc := (ih hsorted.1 fun c' hc' => hfits c' (List.mem_append_left _ hc')).call hlast
      (hfits c (List.mem_append_right _ (List.mem_singleton.2 rfl)))
    have hpushed : pushed (calls ++ [c]) = c.entry?.toList ++ pushed calls := by
      unfold pushed
      cases c <;> simp [RecentCall.entry?]
    have hentries : recentEntries (calls ++ [c]) = c.run (recentEntries calls) := List.foldl_concat _ _ _ _
    have htime : lastPrune (calls ++ [c]) = c.now := by simp [lastPrune]
    rw [hpushed, hentries, htime]
    exact hc

end RecentInv

/-- What the array of recent addresses holds. -/
theorem recent_entries {calls : List RecentCall} (hsorted : (calls.map RecentCall.now).Pairwise (· ≤ ·))
    (hfits : ∀ c ∈ calls, c.Fits) :
    recentEntries calls = ((latest RecentEntry.ip (pushed calls)).take IP_LOCK_RECENT_MAX).filter
      (fun e => lastPrune calls - e.seen_at ≤ IP_LOCK_RECENT_TTL_SEC) ∧
    ((recentEntries calls).map RecentEntry.ip).Nodup ∧ (recentEntries calls).length ≤ IP_LOCK_RECENT_MAX :=
  have h := RecentInv.calls hsorted hfits
  ⟨h.store_eq, h.nodup, h.length_le⟩

/-- Ten addresses, then two of them again. -/
def tenPeers : List RecentCall :=
  (List.range 10).map (fun i => .push ("10.0.0.".toList ++ (Nat.repr i).toList) (20 * (i / 5))) ++
    [.push "10.0.0.7".toList 31, .push "10.0.0.0".toList 51]

theorem recent_entries_tenPeers :
    recentEntries tenPeers = ((latest RecentEntry.ip (pushed tenPeers)).take IP_LOCK_RECENT_MAX).filter
      (fun e => lastPrune tenPeers - e.seen_at ≤ IP_LOCK_RECENT_TTL_SEC) ∧
    ((recentEntries tenPeers).map RecentEntry.ip).Nodup ∧ (recentEntries tenPeers).length ≤ IP_LOCK_RECENT_MAX :=
  recent_entries (by decide +kernel) (by decide +kernel)

end OutlineServer
