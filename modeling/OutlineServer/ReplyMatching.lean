import OutlineServer.Lib.Trans
import OutlineServer.ManagerList

/-!
# Commands and replies

A `LibevManagerClient` (`libev_client.py`) binds the same path for every command, and `manager_recv_cb` answers to the
path. No datagram says which command it answers: one that is still to come when the next call binds the path is taken
for the answer to that call. If nothing is to come then, every call returns the reply to its own command
(`reply_matches`).
-/

namespace OutlineServer.Replies
open Decimal
open Servers (Server BUF_SIZE cstr listEntry entryLen)

/-! ### `manager_recv_cb` -/

/-- An entry of `server_table`. -/
structure Listed where
  server : Server
  port_le : server.port.length ≤ 7
  traffic_lt : server.traffic < 2 ^ 64

/-- What the commands come to in a state of the manager. -/
structure Handlers (W : Type) where
  /-- `get_server` and `add_server`; `none` for an invalid command -/
  add : W → Text → Option Int × W
  /-- Whether `get_server` finds a port that `remove_server` then removes. -/
  remove : W → Text → Bool × W
  stat : W → Text → W
  set_ip : W → Text → Bool × W
  clear_ip : W → Text → Bool × W
  /-- `read_port_status` fills `status`. -/
  ip_status : W → Text → Option {s : Text // s.length < IP_LOCK_STATUS_JSON_MAX + 128}
  /-- `server_table`, as the iterator visits it -/
  servers : W → List Listed
  manager : Servers.ManagerCtx

def get_action (data : Text) : Option Text :=
  match data.dropWhile isSpace with
  | [] => none
  | text => some (cstr (text.takeWhile fun c => !isSpace c && c ≠ ':'))

/-- `"err"`, or the reply of a command that has been carried out -/
def okReply (ok : Bool) : List Text := [(if ok then "ok" else "err").toList]

def pingEntry (s : Listed) : Text :=
  '"' :: s.server.port ++ "\":".toList ++ ofInt s.server.traffic ++ [',']

/-- The server at which the buffer is found full is left out. -/
def pingLoop : Text → List Listed → List Text × Text
  | buf, [] => ([], buf)
  | buf, s :: rest =>
    if BUF_SIZE / 2 < buf.length then
      let (sent, last) := pingLoop [] rest
      ((buf.take (buf.length - 1) ++ ['\x7d']) :: sent, last)
    else
      pingLoop (buf ++ pingEntry s) rest

def pingReply (servers : List Listed) : List Text :=
  let (sent, last) := pingLoop "stat: \x7b".toList servers
  sent ++ [if 7 < last.length then last.take (last.length - 1) ++ ['\x7d'] else last ++ ['\x7d']]

/-- The datagrams that the command in `data` is answered with. -/
def manager_recv_cb {W : Type} (H : Handlers W) (w : W) (data : Text) : List Text × W :=
  if BUF_SIZE / 2 < data.length then
    ([], w)
  else
    match get_action data with
    | none => ([], w)
    | some action =>
      if action = "add".toList then
        match H.add w data with
        | (none, w) => (okReply false, w)
        | (some ret, w) => ([(if ret = -1 then "port is not available" else "ok").toList], w)
      else if action = "list".toList then
        (Servers.list_reply H.manager ((H.servers w).map Listed.server), w)
      else if action = "remove".toList then
        let (ok, w) := H.remove w data
        (okReply ok, w)
      else if action = "stat".toList then
        ([], H.stat w data)
      else if action = "ping".toList then
        (pingReply (H.servers w), w)
      else if action = "set_ip".toList then
        let (ok, w) := H.set_ip w data
        (okReply ok, w)
      else if action = "clear_ip".toList then
        let (ok, w) := H.clear_ip w data
        (okReply ok, w)
      else if action = "ip_status".toList then
        match H.ip_status w data with
        | none => (okReply false, w)
        | some status => ([status.1], w)
      else
        ([], w)

/-- The commands that have a reply. -/
def replying : List String := ["add", "list", "remove", "ping", "set_ip", "clear_ip", "ip_status"]

/-- Whether `manager_recv_cb` replies to `data`. -/
def answered (data : Text) : Bool :=
  data.length ≤ BUF_SIZE / 2 && replying.any fun action => get_action data = some action.toList

/-- Every entry is printed behind the ones before it: `size` is its length, and `limit` how full the buffer may be. -/
def Fits (size limit : Listed → Nat) : Nat → List Listed → Prop
  | _, [] => True
  | pos, s :: rest => pos ≤ limit s ∧ Fits size limit (pos + size s) rest

instance (size limit : Listed → Nat) : ∀ pos servers, Decidable (Fits size limit pos servers)
  | _, [] => isTrue trivial
  | pos, s :: rest =>
    have := instDecidableFits size limit (pos + size s) rest
    inferInstanceAs (Decidable (_ ∧ _))

/-- The table is small enough for one datagram, if the command asks for the table. -/
def OneDatagram {W : Type} (H : Handlers W) (w : W) (data : Text) : Prop :=
  (get_action data = some "list".toList →
    Fits (fun s => (listEntry H.manager s.server).length) (fun s => BUF_SIZE - entryLen H.manager s.server - 50) 1
      (H.servers w)) ∧
  (get_action data = some "ping".toList → Fits (fun s => (pingEntry s).length) (fun _ => BUF_SIZE / 2) 7 (H.servers w))

/-! ### One datagram -/

section
variable {W : Type} {H : Handlers W} {w : W} {data : Text}

theorem listLoop_fits {manager : Servers.ManagerCtx} : ∀ (servers : List Listed) (buf : Text),
    Fits (fun s => (listEntry manager s.server).length) (fun s => BUF_SIZE - entryLen manager s.server - 50) buf.length
      servers →
    Servers.listLoop manager (servers.map Listed.server) buf =
      ([], buf ++ servers.flatMap fun s => listEntry manager s.server)
  | [], buf, _ => by simp [Servers.listLoop]
  | s :: rest, buf, ⟨hle, hfits⟩ => by
    have hfull : ¬ Servers.listFull manager s.server buf.length = true := by
      rw [Servers.listFull_iff]
      exact fun h => Nat.not_lt.2 hle h.2
    rw [List.map_cons, Servers.listLoop, if_neg hfull, listLoop_fits rest _ (by rwa [List.length_append]),
      List.append_assoc, List.flatMap_cons]

theorem pingLoop_fits : ∀ (servers : List Listed) (buf : Text),
    Fits (fun s => (pingEntry s).length) (fun _ => BUF_SIZE / 2) buf.length servers →
      pingLoop buf servers = ([], buf ++ servers.flatMap pingEntry)
  | [], buf, _ => by simp [pingLoop]
  | s :: rest, buf, ⟨hle, hfits⟩ => by
    rw [pingLoop, if_neg (Nat.not_lt.2 hle), pingLoop_fits rest _ (by rwa [List.length_append]), List.append_assoc,
      List.flatMap_cons]

/-- What has been printed is within `bound`, if an entry that is printed stays within it. -/
theorem Fits.length_le {size limit : Listed → Nat} {bound : Nat} {entry : Listed → Text}
    (hsize : ∀ s, size s = (entry s).length) (hbound : ∀ s, ∀ pos ≤ limit s, 0 < pos → pos + size s ≤ bound) :
    ∀ (servers : List Listed) (buf : Text), 0 < buf.length → buf.length ≤ bound →
      Fits size limit buf.length servers → (buf ++ servers.flatMap entry).length ≤ bound
  | [], buf, _, hle, _ => by simpa using hle
  | s :: rest, buf, hpos, _, ⟨hlimit, hfits⟩ => by
    rw [List.flatMap_cons, ← List.append_assoc]
    have hlen : (buf ++ entry s).length = buf.length + size s := by
      rw [List.length_append, hsize]
    refine length_le hsize hbound rest _ (by omega) ?_ ?_
    · rw [hlen]
      exact hbound s _ hlimit hpos
    · rw [hlen]
      exact hfits

theorem length_pingEntry_le (s : Listed) : (pingEntry s).length ≤ 31 := by
  have hport := s.port_le
  have htraffic : (ofInt s.server.traffic).length ≤ 20 := by
    change s.server.traffic.repr.toList.length ≤ 20
    rw [String.length_toList, Nat.length_repr_le_iff (by decide)]
    exact Nat.lt_trans s.traffic_lt (by decide)
  have h₁ : "\":".toList.length = 2 := by simp
  simp only [pingEntry, List.length_append, List.length_cons, List.length_nil, h₁]
  omega

theorem list_reply_fits {manager : Servers.ManagerCtx} {servers : List Listed}
    (h : Fits (fun s => (listEntry manager s.server).length) (fun s => BUF_SIZE - entryLen manager s.server - 50) 1
      servers) :
    ∃ reply, Servers.list_reply manager (servers.map Listed.server) = [reply] ∧ reply.length ≤ 65535 := by
  rw [Servers.list_reply, listLoop_fits servers ['['] h]
  refine ⟨_, rfl, ?_⟩
  have hlen := (@Fits.length_le _ _ 65532 fun s => listEntry manager s.server) (fun _ => rfl) ?_ servers ['[']
    (by decide) (by decide) h
  · have h₁ : "\n]".toList.length = 2 := by simp
    dsimp only
    rw [Servers.listEnd, List.length_append, List.length_take, h₁]
    omega
  · intro s pos hlimit hpos
    rw [Servers.length_listEntry]
    simp only [BUF_SIZE] at hlimit
    omega

theorem pingReply_fits {servers : List Listed}
    (h : Fits (fun s => (pingEntry s).length) (fun _ => BUF_SIZE / 2) 7 servers) :
    ∃ reply, pingReply servers = [reply] ∧ reply.length ≤ 65535 := by
  rw [pingReply, pingLoop_fits servers "stat: \x7b".toList h]
  refine ⟨_, rfl, ?_⟩
  have hlen := (@Fits.length_le _ _ 40000 pingEntry) (fun _ => rfl) ?_ servers "stat: \x7b".toList
    (by decide) (by decide) h
  · split
    · rw [List.length_append, List.length_take, List.length_singleton]
      omega
    · rw [List.length_append, List.length_singleton]
      omega
  · intro s pos hlimit _
    have hsize := length_pingEntry_le s
    simp only [BUF_SIZE] at hlimit
    omega

theorem okReply_one (ok : Bool) : ∃ reply, okReply ok = [reply] ∧ reply.length ≤ 65535 := by
  cases ok
  · exact ⟨_, rfl, by decide⟩
  · exact ⟨_, rfl, by decide⟩

/-- The replies to a command. -/
inductive Reply (H : Handlers W) (w : W) (data : Text) : List Text → Prop
  | ok (ok : Bool) : Reply H w data (okReply ok)
  | unavailable : Reply H w data ["port is not available".toList]
  | list (h : get_action data = some "list".toList) :
    Reply H w data (Servers.list_reply H.manager ((H.servers w).map Listed.server))
  | ping (h : get_action data = some "ping".toList) : Reply H w data (pingReply (H.servers w))
  | status (s : {s : Text // s.length < IP_LOCK_STATUS_JSON_MAX + 128}) : Reply H w data [s.1]

theorem answered_of_action {action : Text} {name : String} (hlen : ¬ BUF_SIZE / 2 < data.length)
    (ha : get_action data = some action) (hname : name ∈ replying) (h : action = name.toList) : answered data = true :=
  Bool.and_eq_true_iff.2
    ⟨decide_eq_true (Nat.not_lt.1 hlen), List.any_eq_true.2 ⟨name, hname, decide_eq_true (ha.trans (congrArg some h))⟩⟩

theorem manager_recv_cb_cases (H : Handlers W) (w : W) (data : Text) :
    (manager_recv_cb H w data).1 = [] ∨ (answered data = true ∧ Reply H w data (manager_recv_cb H w data).1) := by
  rw [manager_recv_cb]
  by_cases hlen : BUF_SIZE / 2 < data.length
  · rw [if_pos hlen]
    exact .inl rfl
  rw [if_neg hlen]
  cases ha : get_action data with
  | none => exact .inl rfl
  | some action =>
    dsimp only
    by_cases hadd : action = "add".toList
    · rw [if_pos hadd]
      refine .inr ⟨answered_of_action hlen ha (by decide) hadd, ?_⟩
      rcases H.add w data with ⟨_ | ret, w'⟩
      · exact .ok false
      · by_cases hret : ret = -1
        · simp only [if_pos hret]
          exact .unavailable
        · simp only [if_neg hret]
          exact .ok true
    rw [if_neg hadd]
    by_cases hlist : action = "list".toList
    · rw [if_pos hlist]
      exact .inr ⟨answered_of_action hlen ha (by decide) hlist, .list (ha.trans (congrArg some hlist))⟩
    rw [if_neg hlist]
    by_cases hremove : action = "remove".toList
    · rw [if_pos hremove]
      exact .inr ⟨answered_of_action hlen ha (by decide) hremove, .ok _⟩
    rw [if_neg hremove]
    by_cases hstat : action = "stat".toList
    · rw [if_pos hstat]
      exact .inl rfl
    rw [if_neg hstat]
    by_cases hping : action = "ping".toList
    · rw [if_pos hping]
      exact .inr ⟨answered_of_action hlen ha (by decide) hping, .ping (ha.trans (congrArg some hping))⟩
    rw [if_neg hping]
    by_cases hset : action = "set_ip".toList
    · rw [if_pos hset]
      exact .inr ⟨answered_of_action hlen ha (by decide) hset, .ok _⟩
    rw [if_neg hset]
    by_cases hclear : action = "clear_ip".toList
    · rw [if_pos hclear]
      exact .inr ⟨answered_of_action hlen ha (by decide) hclear, .ok _⟩
    rw [if_neg hclear]
    by_cases hstatus : action = "ip_status".toList
    · rw [if_pos hstatus]
      refine .inr ⟨answered_of_action hlen ha (by decide) hstatus, ?_⟩
      cases H.ip_status w data with
      | none => exact .ok false
      | some status => exact .status status
    rw [if_neg hstatus]
    exact .inl rfl

theorem manager_recv_cb_not_answered (h : answered data = false) : (manager_recv_cb H w data).1 = [] := by
  rcases manager_recv_cb_cases H w data with hnil | ⟨hyes, -⟩
  · exact hnil
  · rw [h] at hyes
    cases hyes

theorem Reply.one {left : List Text} (h : Reply H w data left) (hone : OneDatagram H w data) :
    ∃ reply, left = [reply] ∧ reply.length ≤ 65535 := by
  cases h with
  | ok => exact okReply_one _
  | unavailable => exact ⟨_, rfl, by decide⟩
  | list ha => exact list_reply_fits (hone.1 ha)
  | ping ha => exact pingReply_fits (hone.2 ha)
  | status s =>
    refine ⟨_, rfl, ?_⟩
    have hlen := s.2
    simp only [IP_LOCK_STATUS_JSON_MAX] at hlen
    omega

end

/-! ### The client, the manager and their sockets -/

/-- A command in the queue of the manager's socket; `call` is the call of the client that has sent it. -/
structure Request where
  claddr : Text
  call : Option Nat
  data : Text

/-- The datagrams that are still to be sent for a command. -/
structure Job where
  request : Request
  left : List Text

/-- A reply in the queue of the client's socket, with the call whose command it replies to. -/
structure Datagram where
  call : Option Nat
  data : Text

/-- How far `_send_unix` is. -/
inductive Phase
  | idle
  | created
  | bound
  | sent
  /-- `finally` -/
  | closing
deriving DecidableEq

structure World (W : Type) where
  manager : W
  inbox : List Request
  job : Option Job
  phase : Phase
  /-- The queue of the socket that is bound to the client's path. -/
  socket : Option (List Datagram)
  /-- The commands that `_send_unix` has been called with. -/
  calls : List Text
  /-- The commands that the manager has read, each with the manager's state then. -/
  handled : List (Request × W)
  /-- The calls that have returned, with what they returned. -/
  returned : List (Nat × Text)

/-- A socket call with a `Bool` may fail, and `sendto` may time out. -/
inductive Event (W : Type)
  /-- `target`: `os.path.exists(target)` -/
  | call (command : Text) (target : Bool)
  | bind (ok : Bool)
  | sendto (ok : Bool)
  | recvfrom
  | timeout
  | close
  | manager_recvfrom
  | manager_sendto (ok : Bool)
  | manager_return
  /-- Another process sends a command. -/
  | other (claddr data : Text)
  /-- Whatever else changes the manager. -/
  | change (manager : W)
  | restart (manager : W)

/-- `str.strip("\x00")` -/
def stripNul (s : Text) : Text := (s.dropWhile (· = '\x00')).rdropWhile (· = '\x00')

/-- `client_path`, what `encode("utf-8")` makes of a command unless it raises, and `decode("utf-8", errors="replace")`.
A character of a datagram is a byte. -/
structure Client where
  path : Text
  encode : Text → Option Text
  decode : Text → Text

/-- The call that is being made, or was made last. -/
def World.current {W : Type} (w : World W) : Nat := w.calls.length - 1

/-- A datagram to the client's path reaches the socket that is bound there. -/
def World.deliver {W : Type} (w : World W) (d : Datagram) : World W :=
  { w with socket := w.socket.map (· ++ [d]) }

def step {W : Type} (C : Client) (H : Handlers W) (w : World W) : Event W → Option (World W)
  | .call command target =>
    if w.phase = .idle then
      some { w with calls := w.calls ++ [command], phase := if target then .created else .idle }
    else
      none
  | .bind ok =>
    if w.phase = .created then
      some (if ok then { w with phase := .bound, socket := some [] } else { w with phase := .closing })
    else
      none
  | .sendto ok =>
    if w.phase = .bound then
      match w.calls.getLast?.bind C.encode with
      | none => some { w with phase := .closing }
      | some data =>
        if ok then
          some { w with phase := .sent, inbox := w.inbox ++ [⟨C.path, some w.current, data⟩] }
        else
          some { w with phase := .closing }
    else
      none
  | .recvfrom =>
    if w.phase = .sent then
      match w.socket with
      | some (d :: queue) =>
        some { w with
          phase := .closing
          socket := some queue
          returned := w.returned ++ [(w.current, stripNul (C.decode (d.data.take 65535)))] }
      | _ => none
    else
      none
  | .timeout => if w.phase = .sent then some { w with phase := .closing } else none
  | .close => if w.phase = .closing then some { w with phase := .idle, socket := none } else none
  | .manager_recvfrom =>
    match w.job, w.inbox with
    | none, r :: inbox =>
      let (left, manager) := manager_recv_cb H w.manager (r.data.take BUF_SIZE)
      some { w with manager, inbox, job := some ⟨r, left⟩, handled := w.handled ++ [(r, w.manager)] }
    | _, _ => none
  | .manager_sendto ok =>
    match w.job with
    | some ⟨r, text :: left⟩ =>
      let w := { w with job := some ⟨r, left⟩ }
      some (if ok ∧ r.claddr = C.path then w.deliver ⟨r.call, text⟩ else w)
    | _ => none
  | .manager_return =>
    match w.job with
    | some ⟨_, []⟩ => some { w with job := none }
    | _ => none
  | .other claddr data => if claddr = C.path then none else some { w with inbox := w.inbox ++ [⟨claddr, none, data⟩] }
  | .change manager => some { w with manager }
  | .restart manager => some { w with manager, inbox := [], job := none }

/-- The runs of a client and the manager. At the start commands of earlier processes with the client's number may be in
the queue, or be answered. -/
def system {W : Type} (C : Client) (H : Handlers W) : Lts (World W) (Event W) where
  init w := ∃ manager inbox job, (∀ r ∈ inbox, r.call = none) ∧ (∀ j ∈ job, (Job.request j).call = none) ∧
    w = ⟨manager, inbox, job, .idle, none, [], [], []⟩
  step w e w' := step C H w e = some w'

/-- `reply` is what the manager has answered to the command of call `call`. -/
def IsReply {W : Type} (C : Client) (H : Handlers W) (w : World W) (call : Nat) (reply : Text) : Prop :=
  ∃ command r m, w.calls[call]? = some command ∧ C.encode command = some r.data ∧ r.call = some call ∧
    (r, m) ∈ w.handled ∧ (manager_recv_cb H m (r.data.take BUF_SIZE)).1 = [reply]

/-- `text` is what `_send_unix` makes of the reply to the command of call `call`. -/
def Matches {W : Type} (C : Client) (H : Handlers W) (w : World W) (call : Nat) (text : Text) : Prop :=
  ∃ reply, IsReply C H w call reply ∧ text = stripNul (C.decode reply)

/-- No reply to a command from the client's path is still to come. -/
structure Quiet {W : Type} (C : Client) (w : World W) : Prop where
  inbox : ∀ r ∈ w.inbox, r.claddr = C.path → answered (r.data.take BUF_SIZE) = false
  job : ∀ r left, w.job = some ⟨r, left⟩ → r.claddr = C.path → left = []

/-- A call binds the path only when no reply is to come, and the client's commands are answered with one datagram. -/
def Admitted {W : Type} (C : Client) (H : Handlers W) (w : World W) : Event W → Prop
  | .bind _ => Quiet C w
  | .manager_recvfrom => ∀ r ∈ w.inbox.head?, r.call.isSome → OneDatagram H w.manager (r.data.take BUF_SIZE)
  | _ => True

/-! ### Runs -/

section
variable {W : Type} {C : Client} {H : Handlers W} {w w' : World W}

/-- A command in the manager's queue is that of its call. -/
def Sent (C : Client) (w : World W) (r : Request) : Prop :=
  ∀ call, r.call = some call → ∃ command, w.calls[call]? = some command ∧ C.encode command = some r.data

/-- A datagram for `call` that is sent, or has been. -/
def Carries (C : Client) (H : Handlers W) (w : World W) (call : Nat) (text : Text) : Prop :=
  IsReply C H w call text ∧ text.length ≤ 65535

structure Inv (C : Client) (H : Handlers W) (w : World W) : Prop where
  inbox : ∀ r ∈ w.inbox, Sent C w r
  job : ∀ r left, w.job = some ⟨r, left⟩ → ∀ call, r.call = some call →
    left = [] ∨ ∃ reply, left = [reply] ∧ Carries C H w call reply
  socket : ∀ queue, w.socket = some queue → ∀ d ∈ queue, Carries C H w w.current d.data
  /-- While the path is bound, what is to come is for the call that has bound it. -/
  inbox_current : w.socket ≠ none → ∀ r ∈ w.inbox, r.claddr = C.path → answered (r.data.take BUF_SIZE) = true →
    r.call = some w.current
  job_current : w.socket ≠ none → ∀ r left, w.job = some ⟨r, left⟩ → r.claddr = C.path → left ≠ [] →
    r.call = some w.current
  unbound : w.phase = .idle ∨ w.phase = .created → w.socket = none
  returned : ∀ p ∈ w.returned, Matches C H w p.1 p.2

/-- `calls` and `handled` only grow. -/
structure Grows (w w' : World W) : Prop where
  calls : w.calls <+: w'.calls
  handled : w.handled <+: w'.handled

theorem Grows.getElem? (h : Grows w w') {call : Nat} {command : Text} (hc : w.calls[call]? = some command) :
    w'.calls[call]? = some command := by
  obtain ⟨l, hl⟩ := h.calls
  rw [← hl, List.getElem?_append_left (List.getElem?_eq_some_iff.1 hc).1]
  exact hc

theorem Sent.mono {r : Request} (h : Sent C w r) (hg : Grows w w') : Sent C w' r := by
  intro call hcall
  obtain ⟨command, hc, he⟩ := h call hcall
  exact ⟨command, hg.getElem? hc, he⟩

theorem IsReply.mono {call : Nat} {reply : Text} (h : IsReply C H w call reply) (hg : Grows w w') :
    IsReply C H w' call reply := by
  obtain ⟨command, r, m, hc, he, hr, hm, hreply⟩ := h
  exact ⟨command, r, m, hg.getElem? hc, he, hr, hg.handled.subset hm, hreply⟩

theorem Carries.mono {call : Nat} {text : Text} (h : Carries C H w call text) (hg : Grows w w') :
    Carries C H w' call text :=
  ⟨h.1.mono hg, h.2⟩

theorem Matches.mono {call : Nat} {text : Text} (h : Matches C H w call text) (hg : Grows w w') :
    Matches C H w' call text := by
  obtain ⟨reply, hreply, rfl⟩ := h
  exact ⟨reply, hreply.mono hg, rfl⟩

/-- Steps that send nothing and after which no more is bound or to come than before. -/
theorem Inv.of_le (h : Inv C H w) (hcalls : w'.calls = w.calls) (hhandled : w'.handled = w.handled)
    (hreturned : w'.returned = w.returned) (hinbox : ∀ r ∈ w'.inbox, r ∈ w.inbox ∨ r.call = none ∧ r.claddr ≠ C.path)
    (hjob : w'.job = w.job ∨ w'.job = none) (hsocket : w'.socket = w.socket ∨ w'.socket = none)
    (hphase : w'.phase = .idle ∨ w'.phase = .created → w'.socket = none) : Inv C H w' := by
  have hg : Grows w w' := ⟨hcalls ▸ List.prefix_rfl, hhandled ▸ List.prefix_rfl⟩
  have hcur : w'.current = w.current := by rw [World.current, hcalls, World.current]
  have hbound : w'.socket ≠ none → w'.socket = w.socket := fun hne => hsocket.resolve_right hne
  have hjob' {j} (hj : w'.job = some j) : w.job = some j := by
    rcases hjob with hjob | hjob
    · rwa [← hjob]
    · rw [hjob] at hj
      cases hj
  refine ⟨?_, ?_, ?_, ?_, ?_, hphase, ?_⟩
  · intro r hr
    rcases hinbox r hr with hr | ⟨hnone, -⟩
    · exact (h.inbox r hr).mono hg
    · intro call hcall
      rw [hnone] at hcall
      cases hcall
  · intro r left hj call hcall
    refine (h.job r left (hjob' hj) call hcall).imp_right ?_
    rintro ⟨reply, hleft, hreply⟩
    exact ⟨reply, hleft, hreply.mono hg⟩
  · intro queue hq d hd
    rw [hcur]
    exact (h.socket queue (hbound (by simp [hq]) ▸ hq) d hd).mono hg
  · intro hs r hr hcladdr hans
    rw [hcur]
    rcases hinbox r hr with hr | ⟨-, hother⟩
    · exact h.inbox_current (hbound hs ▸ hs) r hr hcladdr hans
    · exact absurd hcladdr hother
  · intro hs r left hj hcladdr hne
    rw [hcur]
    exact h.job_current (hbound hs ▸ hs) r left (hjob' hj) hcladdr hne
  · intro p hp
    exact (h.returned p (hreturned ▸ hp)).mono hg

theorem Inv.call (h : Inv C H w) (hidle : w.phase = .idle) (command : Text) (phase : Phase) :
    Inv C H { w with calls := w.calls ++ [command], phase } := by
  have hg : Grows w { w with calls := w.calls ++ [command], phase } := ⟨List.prefix_append _ _, List.prefix_rfl⟩
  have hs : w.socket = none := h.unbound (.inl hidle)
  refine ⟨fun r hr => (h.inbox r hr).mono hg, ?_, ?_, fun hne => absurd hs hne, fun hne => absurd hs hne, fun _ => hs,
    fun p hp => (h.returned p hp).mono hg⟩
  · intro r left hj call hcall
    refine (h.job r left hj call hcall).imp_right ?_
    rintro ⟨reply, hleft, hreply⟩
    exact ⟨reply, hleft, hreply.mono hg⟩
  · intro queue hq
    rw [hs] at hq
    cases hq

theorem Inv.bind (h : Inv C H w) (hquiet : Quiet C w) : Inv C H { w with phase := .bound, socket := some [] } := by
  have hg : Grows w { w with phase := .bound, socket := some [] } := ⟨List.prefix_rfl, List.prefix_rfl⟩
  refine ⟨h.inbox, h.job, ?_, ?_, ?_, ?_, h.returned⟩
  · rintro _ ⟨⟩ d hd
    cases hd
  · intro _ r hr hcladdr hans
    rw [hquiet.inbox r hr hcladdr] at hans
    cases hans
  · intro _ r left hj hcladdr hne
    exact absurd (hquiet.job r left hj hcladdr) hne
  · rintro (hp | hp) <;> cases hp

theorem Inv.sendto (h : Inv C H w) {data : Text} (hdata : w.calls.getLast?.bind C.encode = some data) :
    Inv C H { w with phase := .sent, inbox := w.inbox ++ [⟨C.path, some w.current, data⟩] } := by
  refine ⟨?_, h.job, h.socket, ?_, h.job_current, ?_, h.returned⟩
  · intro r hr
    rcases List.mem_append.1 hr with hr | hr
    · exact h.inbox r hr
    · cases List.mem_singleton.1 hr
      rintro _ ⟨⟩
      obtain ⟨command, hlast, he⟩ := Option.bind_eq_some_iff.1 hdata
      exact ⟨command, List.getLast?_eq_getElem? ▸ hlast, he⟩
  · intro hs r hr hcladdr hans
    rcases List.mem_append.1 hr with hr | hr
    · exact h.inbox_current hs r hr hcladdr hans
    · cases List.mem_singleton.1 hr
      rfl
  · rintro (hp | hp) <;> cases hp

theorem Inv.recvfrom (h : Inv C H w) {d : Datagram} {queue : List Datagram} (hs : w.socket = some (d :: queue)) :
    Inv C H { w with
      phase := .closing
      socket := some queue
      returned := w.returned ++ [(w.current, stripNul (C.decode (d.data.take 65535)))] } := by
  have hbound : w.socket ≠ none := by simp [hs]
  refine ⟨h.inbox, h.job, ?_, fun _ => h.inbox_current hbound, fun _ => h.job_current hbound, ?_, ?_⟩
  · rintro _ ⟨⟩ d' hd
    exact h.socket _ hs d' (List.mem_cons_of_mem _ hd)
  · rintro (hp | hp) <;> cases hp
  · intro p hp
    rcases List.mem_append.1 hp with hp | hp
    · exact h.returned p hp
    · cases List.mem_singleton.1 hp
      obtain ⟨hreply, hlen⟩ := h.socket _ hs d List.mem_cons_self
      refine ⟨d.data, hreply, ?_⟩
      rw [List.take_of_length_le hlen]

theorem Inv.manager_recvfrom (h : Inv C H w) {r : Request} {inbox : List Request} (hi : w.inbox = r :: inbox)
    (hone : r.call.isSome → OneDatagram H w.manager (r.data.take BUF_SIZE)) :
    Inv C H { w with
      manager := (manager_recv_cb H w.manager (r.data.take BUF_SIZE)).2
      inbox
      job := some ⟨r, (manager_recv_cb H w.manager (r.data.take BUF_SIZE)).1⟩
      handled := w.handled ++ [(r, w.manager)] } := by
  have hr : r ∈ w.inbox := hi ▸ List.mem_cons_self
  have hrest : ∀ x ∈ inbox, x ∈ w.inbox := fun x hx => hi ▸ List.mem_cons_of_mem _ hx
  have hg : Grows w { w with
      manager := (manager_recv_cb H w.manager (r.data.take BUF_SIZE)).2
      inbox
      job := some ⟨r, (manager_recv_cb H w.manager (r.data.take BUF_SIZE)).1⟩
      handled := w.handled ++ [(r, w.manager)] } := ⟨List.prefix_rfl, List.prefix_append _ _⟩
  refine ⟨fun x hx => (h.inbox x (hrest x hx)).mono hg, ?_, fun queue hq d hd => (h.socket queue hq d hd).mono hg,
    fun hs x hx => h.inbox_current hs x (hrest x hx), ?_, h.unbound, fun p hp => (h.returned p hp).mono hg⟩
  · rintro _ _ ⟨⟩ call hcall
    rcases manager_recv_cb_cases H w.manager (r.data.take BUF_SIZE) with hnil | ⟨-, hreply⟩
    · exact .inl hnil
    · obtain ⟨reply, hleft, hlen⟩ := hreply.one (hone (by rw [hcall]; rfl))
      obtain ⟨command, hc, he⟩ := h.inbox r hr call hcall
      exact .inr ⟨reply, hleft, ⟨command, r, w.manager, hc, he, hcall, List.mem_append_right _ List.mem_cons_self,
        hleft⟩, hlen⟩
  · rintro hs _ _ ⟨⟩ hcladdr hne
    refine h.inbox_current hs r hr hcladdr ?_
    by_contra hans
    exact hne (manager_recv_cb_not_answered (Bool.not_eq_true _ ▸ hans))

/-- The manager's `sendto`, wherever the datagram goes. -/
theorem Inv.manager_sendto (h : Inv C H w) {r : Request} {text : Text} {left : List Text}
    (hj : w.job = some ⟨r, text :: left⟩) : Inv C H { w with job := some ⟨r, left⟩ } := by
  refine ⟨h.inbox, ?_, h.socket, h.inbox_current, ?_, h.unbound, h.returned⟩
  · rintro _ _ ⟨⟩ call hcall
    rcases h.job _ _ hj call hcall with hnil | ⟨reply, hleft, -⟩
    · cases hnil
    · cases hleft
      exact .inl rfl
  · rintro hs _ _ ⟨⟩ hcladdr -
    exact h.job_current hs _ _ hj hcladdr (List.cons_ne_nil _ _)

theorem Inv.deliver (h : Inv C H w) {d : Datagram} (hd : w.socket ≠ none → Carries C H w w.current d.data) :
    Inv C H (w.deliver d) := by
  have hbound : (w.deliver d).socket ≠ none → w.socket ≠ none := by simp [World.deliver]
  refine ⟨h.inbox, h.job, ?_, fun hs => h.inbox_current (hbound hs), fun hs => h.job_current (hbound hs), ?_,
    h.returned⟩
  · intro queue hq x hx
    obtain ⟨queue', hq', rfl⟩ := Option.map_eq_some_iff.1 hq
    rcases List.mem_append.1 hx with hx | hx
    · exact h.socket queue' hq' x hx
    · cases List.mem_singleton.1 hx
      exact hd (by simp [hq'])
  · intro hp
    exact Option.map_eq_none_iff.2 (h.unbound hp)

theorem Inv.step (h : Inv C H w) {e : Event W} (hadm : Admitted C H w e) (hstep : step C H w e = some w') :
    Inv C H w' := by
  cases e with
  | call command target =>
    obtain ⟨hidle, ⟨⟩⟩ := Option.ite_none_right_eq_some.1 hstep
    exact h.call hidle command _
  | bind ok =>
    obtain ⟨hp, ⟨⟩⟩ := Option.ite_none_right_eq_some.1 hstep
    cases ok
    · exact h.of_le rfl rfl rfl (fun r hr => .inl hr) (.inl rfl) (.inl rfl) fun _ => h.unbound (.inr hp)
    · exact h.bind hadm
  | sendto ok =>
    obtain ⟨hp, hstep⟩ := Option.ite_none_right_eq_some.1 hstep
    split at hstep
    · cases hstep
      exact h.of_le rfl rfl rfl (fun r hr => .inl hr) (.inl rfl) (.inl rfl) nofun
    · cases ok <;> cases hstep
      · exact h.of_le rfl rfl rfl (fun r hr => .inl hr) (.inl rfl) (.inl rfl) nofun
      · exact h.sendto ‹_›
  | recvfrom =>
    obtain ⟨hp, hstep⟩ := Option.ite_none_right_eq_some.1 hstep
    split at hstep
    · cases hstep
      exact h.recvfrom ‹_›
    · cases hstep
  | timeout =>
    obtain ⟨hp, ⟨⟩⟩ := Option.ite_none_right_eq_some.1 hstep
    exact h.of_le rfl rfl rfl (fun r hr => .inl hr) (.inl rfl) (.inl rfl) nofun
  | close =>
    obtain ⟨hp, ⟨⟩⟩ := Option.ite_none_right_eq_some.1 hstep
    exact h.of_le rfl rfl rfl (fun r hr => .inl hr) (.inl rfl) (.inr rfl) fun _ => rfl
  | manager_recvfrom =>
    simp only [Replies.step] at hstep
    split at hstep
    · rename_i r inbox hj hi
      cases hstep
      exact h.manager_recvfrom hi (hadm r (by rw [hi]; rfl))
    · cases hstep
  | manager_sendto ok =>
    simp only [Replies.step] at hstep
    split at hstep
    · rename_i r text left hj
      cases hstep
      split
      · rename_i hpath
        refine (h.manager_sendto hj).deliver fun hs => ?_
        have hcall := h.job_current hs _ _ hj hpath.2 (List.cons_ne_nil _ _)
        rcases h.job _ _ hj _ hcall with hnil | ⟨reply, hleft, hreply⟩
        · cases hnil
        · cases hleft
          exact hreply.mono ⟨List.prefix_rfl, List.prefix_rfl⟩
      · exact h.manager_sendto hj
    · cases hstep
  | manager_return =>
    simp only [Replies.step] at hstep
    split at hstep
    · cases hstep
      exact h.of_le rfl rfl rfl (fun r hr => .inl hr) (.inr rfl) (.inl rfl) h.unbound
    · cases hstep
  | other claddr data =>
    obtain ⟨hne, ⟨⟩⟩ := Option.ite_none_left_eq_some.1 hstep
    refine h.of_le rfl rfl rfl ?_ (.inl rfl) (.inl rfl) h.unbound
    intro r hr
    refine (List.mem_append.1 hr).imp_right fun hr => ?_
    cases List.mem_singleton.1 hr
    exact ⟨rfl, hne⟩
  | change manager =>
    cases hstep
    exact h.of_le rfl rfl rfl (fun r hr => .inl hr) (.inl rfl) (.inl rfl) h.unbound
  | restart manager =>
    cases hstep
    exact h.of_le rfl rfl rfl (fun r hr => absurd hr List.not_mem_nil) (.inr rfl) (.inl rfl) h.unbound

end

/-- In a run in which every call binds the path only when no reply is to come, and the tables asked for fit into a
datagram, every call that returns does so with the reply to its own command. -/
theorem reply_matches {W : Type} (C : Client) (H : Handlers W) {w : World W}
    (h : ((system C H).guarded (Admitted C H)).Reach w) : ∀ p ∈ w.returned, Matches C H w p.1 p.2 := by
  have hinv : Inv C H w := by
    refine h.invariant (I := Inv C H) ?_ ?_
    · rintro w ⟨manager, inbox, job, hinbox, hjob, rfl⟩
      refine ⟨?_, ?_, nofun, nofun, nofun, fun _ => rfl, nofun⟩
      · intro r hr call hcall
        rw [hinbox r hr] at hcall
        cases hcall
      · intro r left hj call hcall
        rw [hjob _ hj] at hcall
        cases hcall
    · rintro w e w' - hw ⟨hadm, hstep⟩
      exact hw.step hadm hstep
  exact hinv.returned

/-! ### A command that times out -/

/-- A manager without servers. -/
def emptyManager : Handlers Unit where
  add w _ := (none, w)
  remove w _ := (false, w)
  stat w _ := w
  set_ip w _ := (false, w)
  clear_ip w _ := (false, w)
  ip_status _ _ := none
  servers _ := []
  manager := Servers.plainManager

/-- A client whose commands and replies are ASCII. -/
def asciiClient : Client := ⟨"/tmp/libev-cli-7.sock".toList, some, id⟩

def emptyWorld : World Unit := ⟨(), [], none, .idle, none, [], [], []⟩

theorem emptyWorld_init : (system asciiClient emptyManager).init emptyWorld :=
  ⟨(), [], none, fun _ h => absurd h List.not_mem_nil, fun _ h => absurd h (Option.not_mem_none _), rfl⟩

/-- The client sends `command`. -/
def send (command : String) : List (Event Unit) := [.call command.toList true, .bind true, .sendto true]

def giveUp : List (Event Unit) := [.timeout, .close]

/-- The manager reads a command and replies. -/
def handle : List (Event Unit) := [.manager_recvfrom, .manager_sendto true, .manager_return]

/-- The manager replies to `ping` when the call has given up, and then to `list`. -/
theorem reply_matches_late : ∃ w, w.returned = [(1, "[\n]".toList)] ∧
    ∀ p ∈ w.returned, Matches asciiClient emptyManager w p.1 p.2 := by
  let calm (w : World Unit) : Event Unit → Bool
    | .bind _ => w.inbox.isEmpty && w.job.isNone
    | _ => true
  have hrun : ((send "ping" ++ giveUp ++ handle ++ send "list" ++ handle ++ [Event.recvfrom]).foldlM
      (fun w e => if calm w e then step asciiClient emptyManager w e else none) emptyWorld).map World.returned =
        some [(1, "[\n]".toList)] := by
    decide +kernel
  obtain ⟨w, hw, hret⟩ := Option.map_eq_some_iff.1 hrun
  refine ⟨w, hret, reply_matches asciiClient emptyManager ?_⟩
  refine (Lts.Run.of_foldlM (fun w e w' h => ?_) hw).reach (.init emptyWorld_init)
  obtain ⟨hcalm, hstep⟩ := Option.ite_none_right_eq_some.1 h
  refine ⟨?_, hstep⟩
  cases e with
  | bind ok =>
    obtain ⟨hinbox, hjob⟩ := Bool.and_eq_true_iff.1 hcalm
    refine ⟨fun r hr => ?_, fun r left hj => ?_⟩
    · rw [List.isEmpty_iff.1 hinbox] at hr
      cases hr
    · rw [Option.isNone_iff_eq_none.1 hjob] at hj
      cases hj
  | manager_recvfrom => exact fun _ _ _ => ⟨fun _ => trivial, fun _ => trivial⟩
  | _ => trivial

/-- The reply to `ping` comes when `list` has bound the path, and is returned as the reply to `list`. -/
theorem late_reply_mismatched : ∃ w, (system asciiClient emptyManager).Reach w ∧
    ¬ ∀ p ∈ w.returned, Matches asciiClient emptyManager w p.1 p.2 := by
  have hrun : ((send "ping" ++ giveUp ++ send "list" ++ handle ++ [Event.recvfrom]).foldlM
      (step asciiClient emptyManager) emptyWorld).map
        (fun w : World Unit => (w.returned, w.handled.map fun p : Request × Unit => p.1.call)) =
          some ([(1, "stat: \x7b\x7d".toList)], [some 0]) := by
    decide +kernel
  obtain ⟨w, hw, hfacts⟩ := Option.map_eq_some_iff.1 hrun
  obtain ⟨hret, hhandled⟩ := Prod.mk.inj hfacts
  refine ⟨w, (Lts.Run.of_foldlM (fun w e w' h => h) hw).reach (.init emptyWorld_init), fun hall => ?_⟩
  obtain ⟨-, ⟨-, r, m, -, -, hcall, hmem, -⟩, -⟩ := hall _ (hret ▸ List.mem_cons_self)
  have hr : r.call ∈ w.handled.map fun p => p.1.call := List.mem_map.2 ⟨(r, m), hmem, rfl⟩
  rw [hhandled, hcall] at hr
  cases List.mem_singleton.1 hr

end OutlineServer.Replies
