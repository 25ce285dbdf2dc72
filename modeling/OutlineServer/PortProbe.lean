import Mathlib.Data.List.Perm.Basic
import OutlineServer.Servers

/-!
# The sockets of the port probe (`create_and_bind` and `check_port` of `manager.c`)

`create_and_bind` closes the socket that it has bound and answers its number; `check_port` closes all the numbers it has
been answered, so these are closed a second time, while a socket that could not be bound is not closed at all. The
descriptors of the call are accounted for (`accounted_iff`) just if the second closes happen to be those of the sockets
that were left open.
-/

namespace OutlineServer.PortProbe
open Servers

/-- What `socket` and `bind` make of an address. -/
inductive Outcome
  | no_socket
  | not_bound (fd : Nat)
  | bound (fd : Nat)

/-- An `addrinfo`. -/
structure Addr where
  inet6 : Bool
  outcome : Outcome

/-- A host and what `getaddrinfo` makes of it, `none` if that fails. -/
structure Host where
  host : Option Text
  tcp : Option (List Addr)
  udp : Option (List Addr)

inductive Event
  | opened (fd : Nat)
  | closed (fd : Nat)

/-- `rp` before the loop: without a host, the first IPv6 address if there is one. -/
def firstAddr (host : Option Text) (result : List Addr) : List Addr :=
  match host, result.dropWhile fun a => !a.inet6 with
  | none, rp :: rest => rp :: rest
  | _, _ => result

/-- The loop of `create_and_bind`. -/
def bindLoop : List Addr → Int × List Event
  | [] => (-1, [])
  | rp :: rest =>
    match rp.outcome with
    | .no_socket => bindLoop rest
    | .bound fd => (fd, [.opened fd, .closed fd])
    | .not_bound fd => ((bindLoop rest).1, .opened fd :: (bindLoop rest).2)

def create_and_bind (host : Option Text) (result : Option (List Addr)) : Int × List Event :=
  match result with
  | none => (-1, [])
  | some result => bindLoop (firstAddr host result)

/-- The loop of `check_port` over the hosts from `i` on; the value is `bind_err` and `sock_fds`. -/
def probeLoop (mode : Mode) (host_num : Nat) : List Host → (i : Nat) → (sock_fds : List Int) →
    (Int × List Int) × List Event
  | [], _, sock_fds => ((0, sock_fds), [])
  | h :: rest, i, sock_fds =>
    let first := create_and_bind h.host (if mode = .UDP_ONLY then h.udp else h.tcp)
    let sock_fds := sock_fds.set i first.1
    if mode = .TCP_AND_UDP then
      let second := create_and_bind h.host h.udp
      let sock_fds := sock_fds.set (i + host_num) second.1
      if first.1 = -1 ∨ second.1 = -1 then
        ((-1, sock_fds), first.2 ++ second.2)
      else
        let r := probeLoop mode host_num rest (i + 1) sock_fds
        (r.1, first.2 ++ second.2 ++ r.2)
    else if first.1 = -1 then
      ((-1, sock_fds), first.2)
    else
      let r := probeLoop mode host_num rest (i + 1) sock_fds
      (r.1, first.2 ++ r.2)

/-- The descriptors that are closed under `clean socks`. -/
def clean (sock_fds : List Int) : List Nat := (sock_fds.filter fun fd => 0 < fd).map Int.toNat

def check_port (mode : Mode) (hosts : List Host) : Int × List Event :=
  let fd_count := hosts.length * if mode = .TCP_AND_UDP then 2 else 1
  let r := probeLoop mode hosts.length hosts 0 (List.replicate fd_count 0)
  (r.1.1, r.2 ++ (clean r.1.2).map .closed)

/-- The descriptors of the call that are open after the events; `none` if one is closed that is not. -/
def run : List Nat → List Event → Option (List Nat)
  | mine, [] => some mine
  | mine, .opened fd :: es => run (fd :: mine) es
  | mine, .closed fd :: es => if fd ∈ mine then run (mine.erase fd) es else none

/-- Only descriptors of the call that are open are closed, and none is left open. -/
def Accounted (es : List Event) : Prop := run [] es = some []

instance (es : List Event) : Decidable (Accounted es) := inferInstanceAs (Decidable (run [] es = some []))

/-! ### The calls of `socket` and `bind` that are made -/

/-- The outcomes up to the first socket that is bound. -/
def upToBound : List Outcome → List Outcome
  | [] => []
  | .bound fd :: _ => [.bound fd]
  | o :: rest => o :: upToBound rest

/-- What is made of the addresses of a host. -/
def binds (host : Option Text) (result : Option (List Addr)) : List Outcome :=
  match result with
  | none => []
  | some result => upToBound ((firstAddr host result).map (·.outcome))

/-- What is made of the addresses of a host under one protocol or under both. -/
def Host.binds (mode : Mode) (h : Host) : List (List Outcome) :=
  match mode with
  | .TCP_ONLY => [PortProbe.binds h.host h.tcp]
  | .UDP_ONLY => [PortProbe.binds h.host h.udp]
  | .TCP_AND_UDP => [PortProbe.binds h.host h.tcp, PortProbe.binds h.host h.udp]

def Outcome.boundFd : Outcome → Option Nat
  | .bound fd => some fd
  | _ => none

def Outcome.notBoundFd : Outcome → Option Nat
  | .not_bound fd => some fd
  | _ => none

def boundFds (os : List Outcome) : List Nat := os.filterMap Outcome.boundFd
def notBoundFds (os : List Outcome) : List Nat := os.filterMap Outcome.notBoundFd

/-- The outcomes for the hosts up to the first one with a protocol under which no socket is bound. -/
def outcomes (mode : Mode) : List Host → List Outcome
  | [] => []
  | h :: rest =>
    (h.binds mode).flatten ++ if ∃ os ∈ h.binds mode, boundFds os = [] then [] else outcomes mode rest

variable {mode : Mode} {host : Option Text} {result : Option (List Addr)} {as : List Addr} {h : Host}
  {hosts : List Host} {mine : List Nat} {es es' : List Event} {fds : List Int} {i n : Nat} {x : Int}

/-! ### One probe -/

theorem run_append : run mine (es ++ es') = (run mine es).bind fun mine => run mine es' := by
  induction es generalizing mine with
  | nil => rfl
  | cons e es ih =>
    cases e with
    | opened fd =>
      show run (fd :: mine) (es ++ es') = _
      rw [ih]
      rfl
    | closed fd =>
      rw [List.cons_append, run, run]
      split
      · exact ih
      · rfl

theorem run_bindLoop (mine : List Nat) (as : List Addr) :
    run mine (bindLoop as).2 = some ((notBoundFds (upToBound (as.map (·.outcome)))).reverse ++ mine) := by
  induction as generalizing mine with
  | nil => rfl
  | cons a as ih =>
    rw [bindLoop, List.map_cons]
    cases a.outcome with
    | no_socket => exact ih mine
    | bound fd => simp [run, upToBound, notBoundFds, Outcome.notBoundFd]
    | not_bound fd =>
      show run (fd :: mine) (bindLoop as).2 = _
      rw [ih]
      simp [upToBound, notBoundFds, Outcome.notBoundFd]

theorem run_create_and_bind (mine : List Nat) (host : Option Text) (result : Option (List Addr)) :
    run mine (create_and_bind host result).2 = some ((notBoundFds (binds host result)).reverse ++ mine) := by
  cases result with
  | none => rfl
  | some result => exact run_bindLoop mine _

theorem bindLoop_fst (as : List Addr) :
    boundFds (upToBound (as.map (·.outcome))) = [] ∧ (bindLoop as).1 = -1 ∨
      ∃ fd : Nat, boundFds (upToBound (as.map (·.outcome))) = [fd] ∧ (bindLoop as).1 = fd := by
  induction as with
  | nil => exact .inl ⟨rfl, rfl⟩
  | cons a as ih =>
    rw [bindLoop, List.map_cons]
    cases a.outcome with
    | no_socket => exact ih
    | bound fd => exact .inr ⟨fd, rfl, rfl⟩
    | not_bound fd => exact ih

theorem create_and_bind_fst (host : Option Text) (result : Option (List Addr)) :
    boundFds (binds host result) = [] ∧ (create_and_bind host result).1 = -1 ∨
      ∃ fd : Nat, boundFds (binds host result) = [fd] ∧ (create_and_bind host result).1 = fd := by
  cases result with
  | none => exact .inl ⟨rfl, rfl⟩
  | some result => exact bindLoop_fst _

theorem create_and_bind_eq_neg_one : (create_and_bind host result).1 = -1 ↔ boundFds (binds host result) = [] := by
  rcases create_and_bind_fst host result with ⟨hb, hfd⟩ | ⟨fd, hb, hfd⟩
  · rw [hb, hfd]
    exact ⟨fun _ => rfl, fun _ => rfl⟩
  · rw [hb, hfd]
    exact ⟨fun hn => by omega, fun hn => by cases hn⟩

theorem clean_create_and_bind :
    clean [(create_and_bind host result).1] = (boundFds (binds host result)).filter (· ≠ 0) := by
  rcases create_and_bind_fst host result with ⟨hb, hfd⟩ | ⟨fd, hb, hfd⟩
  · rw [hb, hfd]
    rfl
  · rw [hb, hfd]
    cases fd with
    | zero => rfl
    | succ fd => simp [clean]

/-! ### The array of the descriptors -/

theorem clean_cons : clean (x :: fds) = if 0 < x then x.toNat :: clean fds else clean fds := by
  unfold clean
  rw [List.filter_cons]
  by_cases hx : 0 < x
  · rw [if_pos hx, if_pos (decide_eq_true hx), List.map_cons]
  · rw [if_neg hx, if_neg (by simpa using hx)]

theorem clean_set (hi : fds[i]? = some 0) : (clean (fds.set i x)).Perm (clean [x] ++ clean fds) := by
  induction fds generalizing i with
  | nil => cases hi
  | cons y fds ih =>
    cases i with
    | zero =>
      cases hi
      rw [List.set_cons_zero, clean, clean, clean, ← List.map_append, ← List.filter_append]
      rfl
    | succ i =>
      have hrest := ih hi
      rw [List.set_cons_succ, clean_cons, @clean_cons fds y]
      split
      · exact (hrest.cons _).trans List.perm_middle.symm
      · exact hrest

/-- The places of the hosts from `i` on are as `memset` leaves them. -/
def Zero (mode : Mode) (n i : Nat) (fds : List Int) : Prop :=
  ∀ j, i ≤ j → j < n → fds[j]? = some 0 ∧ (mode = .TCP_AND_UDP → fds[j + n]? = some 0)

theorem Zero.replicate : Zero mode n i (List.replicate (n * if mode = .TCP_AND_UDP then 2 else 1) 0) := by
  intro j _ hjn
  refine ⟨?_, fun hmode => ?_⟩
  · rw [List.getElem?_replicate]
    split <;> rw [if_pos (by omega)]
  · rw [if_pos hmode, List.getElem?_replicate, if_pos (by omega)]

theorem Zero.set (hz : Zero mode n i fds) : Zero mode n (i + 1) (fds.set i x) := by
  intro j hij hjn
  rw [List.getElem?_set_ne (by omega), List.getElem?_set_ne (by omega)]
  exact hz j (by omega) hjn

theorem Zero.set_add (hz : Zero mode n (i + 1) fds) : Zero mode n (i + 1) (fds.set (i + n) x) := by
  intro j hij hjn
  rw [List.getElem?_set_ne (by omega), List.getElem?_set_ne (by omega)]
  exact hz j hij hjn

/-! ### The probes of the hosts -/

theorem Host.binds_of_ne (hm : mode ≠ .TCP_AND_UDP) :
    h.binds mode = [PortProbe.binds h.host (if mode = .UDP_ONLY then h.udp else h.tcp)] := by
  cases mode with
  | TCP_ONLY => rfl
  | UDP_ONLY => rfl
  | TCP_AND_UDP => exact absurd rfl hm

theorem notBoundFds_append (os os' : List Outcome) : notBoundFds (os ++ os') = notBoundFds os ++ notBoundFds os' :=
  List.filterMap_append

theorem boundFds_append (os os' : List Outcome) : boundFds (os ++ os') = boundFds os ++ boundFds os' :=
  List.filterMap_append

/-- The places of a host are set, and the loop goes on if a socket was bound under each of its protocols. -/
theorem probeLoop_cons (hi : i < n) (hz : Zero mode n i fds) (h : Host) (rest : List Host) :
    ∃ fds' es, (∀ mine, run mine es = some ((notBoundFds (h.binds mode).flatten).reverse ++ mine)) ∧
      (clean fds').Perm ((boundFds (h.binds mode).flatten).filter (· ≠ 0) ++ clean fds) ∧
      Zero mode n (i + 1) fds' ∧
      probeLoop mode n (h :: rest) i fds =
        if ∃ os ∈ h.binds mode, boundFds os = [] then ((-1, fds'), es)
        else ((probeLoop mode n rest (i + 1) fds').1, es ++ (probeLoop mode n rest (i + 1) fds').2) := by
  have hhere := hz i le_rfl hi
  set result := if mode = .UDP_ONLY then h.udp else h.tcp with hresult
  set first := create_and_bind h.host result with hfirst
  have hclean : (clean (fds.set i first.1)).Perm ((boundFds (binds h.host result)).filter (· ≠ 0) ++ clean fds) := by
    rw [← clean_create_and_bind]
    exact clean_set hhere.1
  by_cases hm : mode = .TCP_AND_UDP
  · have hres : result = h.tcp := by rw [hresult, hm, if_neg (by decide)]
    have hbinds : h.binds mode = [binds h.host result, binds h.host h.udp] := by rw [hm, hres]; rfl
    set second := create_and_bind h.host h.udp with hsecond
    have hzero : (fds.set i first.1)[i + n]? = some 0 := by
      rw [List.getElem?_set_ne (by omega)]
      exact hhere.2 hm
    refine ⟨(fds.set i first.1).set (i + n) second.1, first.2 ++ second.2, fun mine => ?_, ?_, hz.set.set_add, ?_⟩
    · rw [run_append, run_create_and_bind, Option.bind_some, run_create_and_bind, hbinds]
      simp only [List.flatten_cons, List.flatten_nil, List.append_nil, notBoundFds_append, List.reverse_append,
        List.append_assoc]
    · have hset : (clean ((fds.set i first.1).set (i + n) second.1)).Perm
          ((boundFds (binds h.host h.udp)).filter (· ≠ 0) ++ clean (fds.set i first.1)) := by
        rw [← clean_create_and_bind]
        exact clean_set hzero
      rw [hbinds, List.flatten_cons, List.flatten_cons, List.flatten_nil, List.append_nil, boundFds_append,
        List.filter_append, List.append_assoc]
      refine hset.trans ((hclean.append_left _).trans ?_)
      rw [← List.append_assoc, ← List.append_assoc]
      exact List.perm_append_comm.append_right _
    · have hfail : (∃ os ∈ h.binds mode, boundFds os = []) ↔ first.1 = -1 ∨ second.1 = -1 := by
        rw [hbinds, hfirst, hsecond, create_and_bind_eq_neg_one, create_and_bind_eq_neg_one]
        simp only [List.mem_cons, List.not_mem_nil, or_false, exists_eq_or_imp, exists_eq_left]
      simp only [probeLoop, if_pos hm, hfail]
      rfl
  · refine ⟨fds.set i first.1, first.2, fun mine => ?_, ?_, hz.set, ?_⟩
    · rw [run_create_and_bind, Host.binds_of_ne hm, List.flatten_cons, List.flatten_nil, List.append_nil]
    · rw [Host.binds_of_ne hm, List.flatten_cons, List.flatten_nil, List.append_nil]
      exact hclean
    · have hfail : (∃ os ∈ h.binds mode, boundFds os = []) ↔ first.1 = -1 := by
        rw [Host.binds_of_ne hm, hfirst, create_and_bind_eq_neg_one]
        simp only [List.mem_cons, List.not_mem_nil, or_false, exists_eq_left, hresult]
      simp only [probeLoop, if_neg hm, hfail]
      rfl

theorem run_probeLoop (hin : i + hosts.length = n) (hz : Zero mode n i fds) (mine : List Nat) :
    (∃ mine', run mine (probeLoop mode n hosts i fds).2 = some mine' ∧
      mine'.Perm (notBoundFds (outcomes mode hosts) ++ mine)) ∧
    (clean (probeLoop mode n hosts i fds).1.2).Perm
      ((boundFds (outcomes mode hosts)).filter (· ≠ 0) ++ clean fds) := by
  induction hosts generalizing i fds mine with
  | nil => exact ⟨⟨mine, rfl, .refl _⟩, .refl _⟩
  | cons h rest ih =>
    rw [List.length_cons] at hin
    obtain ⟨fds', es, hrun, hclean, hz', heq⟩ := probeLoop_cons (by omega) hz h rest
    rw [heq, outcomes, notBoundFds_append, boundFds_append, List.filter_append]
    split
    · exact ⟨⟨_, hrun mine, by
        show (_ ++ mine).Perm (notBoundFds (h.binds mode).flatten ++ [] ++ mine)
        rw [List.append_nil]
        exact (List.reverse_perm _).append_right _⟩, by
        show (clean fds').Perm ((boundFds (h.binds mode).flatten).filter (· ≠ 0) ++ [] ++ clean fds)
        rw [List.append_nil]
        exact hclean⟩
    · obtain ⟨⟨mine', hrest, hmine'⟩, hcleanRest⟩ :=
        ih (by omega) hz' ((notBoundFds (h.binds mode).flatten).reverse ++ mine)
      refine ⟨⟨mine', ?_, hmine'.trans ?_⟩, hcleanRest.trans ?_⟩
      · show run mine (es ++ (probeLoop mode n rest (i + 1) fds').2) = some mine'
        rw [run_append, hrun, Option.bind_some, hrest]
      · rw [← List.append_assoc]
        exact ((List.reverse_perm _).append_left _ |>.trans List.perm_append_comm).append_right _
      · refine (hclean.append_left _).trans ?_
        rw [← List.append_assoc]
        exact List.perm_append_comm.append_right _

/-- What is closed in the end is what is open. -/
theorem run_closed (mine fds : List Nat) : run mine (fds.map .closed) = some [] ↔ fds.Perm mine := by
  induction fds generalizing mine with
  | nil =>
    show some mine = some [] ↔ _
    rw [Option.some.injEq, List.nil_perm]
  | cons fd fds ih =>
    rw [List.map_cons, run, List.cons_perm_iff_perm_erase]
    split
    · rename_i hfd
      rw [ih]
      exact ⟨fun hp => ⟨hfd, hp⟩, fun hp => hp.2⟩
    · rename_i hfd
      exact ⟨nofun, fun hp => absurd hp.1 hfd⟩

/-- `clean socks` closes the sockets that have been bound once more. It closes what is left open just if these have the
numbers of those that have not been bound. -/
theorem accounted_iff (mode : Mode) (hosts : List Host) :
    Accounted (check_port mode hosts).2 ↔
      ((boundFds (outcomes mode hosts)).filter (· ≠ 0)).Perm (notBoundFds (outcomes mode hosts)) := by
  obtain ⟨⟨mine, hrun, hmine⟩, hclean⟩ := run_probeLoop (Nat.zero_add hosts.length) Zero.replicate []
  have hzero : clean (List.replicate (hosts.length * if mode = .TCP_AND_UDP then 2 else 1) 0) = [] := by
    rw [clean, List.filter_replicate, if_neg (by decide), List.map_nil]
  rw [hzero, List.append_nil] at hclean
  rw [List.append_nil] at hmine
  show run [] (_ ++ _) = some [] ↔ _
  rw [run_append, hrun, Option.bind_some, run_closed]
  exact ⟨fun hp => hclean.symm.trans (hp.trans hmine), fun hp => hclean.trans (hp.trans hmine.symm)⟩

/-- One host, one address, and a socket that can be bound. -/
theorem accounted_not_one :
    ¬ Accounted (check_port .TCP_ONLY [⟨some "0.0.0.0".toList, some [⟨false, .bound 5⟩], none⟩]).2 := by
  decide +kernel

/-- The number of the first socket is taken again by the second one, which cannot be bound. -/
example : Accounted (check_port .TCP_AND_UDP
    [⟨some "0.0.0.0".toList, some [⟨false, .bound 5⟩], some [⟨false, .not_bound 5⟩]⟩]).2 := by
  decide +kernel

/-! ### The answer -/

theorem probeLoop_fst (hin : i + hosts.length = n) (hz : Zero mode n i fds) :
    (probeLoop mode n hosts i fds).1.1 = 0 ↔ ∀ h ∈ hosts, ∀ os ∈ h.binds mode, boundFds os ≠ [] := by
  induction hosts generalizing i fds with
  | nil => simp [probeLoop]
  | cons h rest ih =>
    rw [List.length_cons] at hin
    obtain ⟨fds', es, -, -, hz', heq⟩ := probeLoop_cons (by omega) hz h rest
    rw [heq, List.forall_mem_cons]
    split
    · rename_i hfail
      obtain ⟨os, hos, hb⟩ := hfail
      exact ⟨nofun, fun hall => absurd hb (hall.1 os hos)⟩
    · rename_i hfail
      rw [ih (by omega) hz']
      exact ⟨fun hrest => ⟨fun os hos hb => hfail ⟨os, hos, hb⟩, hrest⟩, fun hall => hall.2⟩

theorem runs_check_host (manager : ManagerCtx) (server : Server) (w : Os) (h : Host) (name : Text) :
    Prog.Runs ServerStep (check_host manager server name) w
      (decide (∀ os ∈ h.binds manager.mode, boundFds os ≠ [])) w := by
  rw [check_host, Prog.runs_bind]
  by_cases hm : manager.mode = .TCP_AND_UDP
  · refine ⟨decide (boundFds (binds h.host h.tcp) ≠ []), w, Prog.runs_op.2 (.create_and_bind ..), ?_⟩
    rw [if_pos hm, Prog.runs_bind]
    refine ⟨decide (boundFds (binds h.host h.udp) ≠ []), w, Prog.runs_op.2 (.create_and_bind ..), ?_⟩
    refine Prog.runs_ret.2 ⟨?_, rfl⟩
    rw [hm, ← Bool.decide_and, decide_eq_decide]
    simp only [Host.binds, List.forall_mem_cons, List.not_mem_nil, false_imp_iff, implies_true, and_true]
  · refine ⟨decide (∀ os ∈ h.binds manager.mode, boundFds os ≠ []), w, Prog.runs_op.2 (.create_and_bind ..), ?_⟩
    rw [if_neg hm]
    exact Prog.runs_ret.2 ⟨rfl, rfl⟩

theorem runs_check_hosts (manager : ManagerCtx) (server : Server) (w : Os) (hosts : List Host) {names : List Text}
    (hnames : hosts.length = names.length) :
    Prog.Runs ServerStep (check_hosts manager server names) w
      (decide (∀ h ∈ hosts, ∀ os ∈ h.binds manager.mode, boundFds os ≠ [])) w := by
  induction hosts generalizing names with
  | nil =>
    cases List.eq_nil_of_length_eq_zero hnames.symm
    exact Prog.runs_ret.2 ⟨decide_eq_true (by simp), rfl⟩
  | cons h rest ih =>
    obtain ⟨name, names, rfl⟩ := List.exists_cons_of_length_eq_add_one hnames.symm
    rw [check_hosts, Prog.runs_bind]
    refine ⟨_, w, runs_check_host manager server w h name, ?_⟩
    by_cases hhere : ∀ os ∈ h.binds manager.mode, boundFds os ≠ []
    · rw [if_pos (decide_eq_true hhere), decide_eq_decide.2 (List.forall_mem_cons.trans (and_iff_right hhere))]
      exact ih (by simpa using hnames)
    · rw [if_neg (by simpa using hhere)]
      exact Prog.runs_ret.2 ⟨decide_eq_false fun hall => hhere (hall h List.mem_cons_self), rfl⟩

/-- What `ServerStep` says of the trial binds. -/
theorem runs_check_port (manager : ManagerCtx) (server : Server) (w : Os) (hosts : List Host)
    (hnames : hosts.map (·.host) = manager.hosts.map some) :
    Prog.Runs ServerStep (Servers.check_port manager server) w
      (decide ((check_port manager.mode hosts).1 = 0)) w := by
  have hlen : hosts.length = manager.hosts.length := by
    rw [← List.length_map (·.host), hnames, List.length_map]
  have hans : (check_port manager.mode hosts).1 = 0 ↔
      ∀ h ∈ hosts, ∀ os ∈ h.binds manager.mode, boundFds os ≠ [] :=
    probeLoop_fst (Nat.zero_add hosts.length) Zero.replicate
  rw [decide_eq_decide.2 hans]
  exact runs_check_hosts manager server w hosts hlen

end OutlineServer.PortProbe
