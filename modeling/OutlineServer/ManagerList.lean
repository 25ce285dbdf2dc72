import OutlineServer.Servers

/-!
# The datagrams of a list (`manager_recv_cb` of `manager.c`)

The manager prints its table into a buffer, which it sends off before an entry that might not fit. A `sendto` that
fails is only logged, and what the buffer held is in no datagram.
-/

namespace OutlineServer.Servers

def listMethod (manager : ManagerCtx) (server : Server) : Text := (server.method.or manager.method).getD []

/-- `"\n\t{\"server_port\":\"%s\",\"password\":\"%s\",\"method\":\"%s\"},"` -/
def listEntry (manager : ManagerCtx) (server : Server) : Text :=
  "\n\t\x7b\"server_port\":\"".toList ++ server.port ++ "\",\"password\":\"".toList ++ server.password ++
    "\",\"method\":\"".toList ++ listMethod manager server ++ "\"\x7d,".toList

def entryLen (manager : ManagerCtx) (server : Server) : Nat :=
  server.port.length + server.password.length + (listMethod manager server).length

/-- `pos > BUF_SIZE - entry_len - 50`, of type `size_t` -/
def lenFull (entry_len pos : Nat) : Bool := entry_len + 50 ≤ BUF_SIZE ∧ BUF_SIZE - entry_len - 50 < pos

def listFull (manager : ManagerCtx) (server : Server) (pos : Nat) : Bool := lenFull (entryLen manager server) pos

/-- What is handed to `sendto` before the end, and the buffer for that. -/
def listLoop (manager : ManagerCtx) : List Server → Text → List Text × Text
  | [], buf => ([], buf)
  | server :: table, buf =>
    if listFull manager server buf.length then
      let r := listLoop manager table (listEntry manager server)
      (buf :: r.1, r.2)
    else listLoop manager table (buf ++ listEntry manager server)

/-- `strcpy(buf + max(pos - 1, 1), "\n]")` -/
def listEnd (buf : Text) : Text := buf.take (max (buf.length - 1) 1) ++ "\n]".toList

/-- What is handed to `sendto` for a table, in the order of its iterator. -/
def list_reply (manager : ManagerCtx) (table : List Server) : List Text :=
  let r := listLoop manager table ['[']
  r.1 ++ [listEnd r.2]

/-- The datagrams that are sent; whether the `k`-th call, of `n` bytes, sends them is `sendto k n`. -/
def sent (sendto : Nat → Nat → Bool) : Nat → List Text → List Text
  | _, [] => []
  | k, text :: texts => if sendto k text.length then text :: sent sendto (k + 1) texts else sent sendto (k + 1) texts

variable {manager : ManagerCtx} {server : Server} {sendto : Nat → Nat → Bool}

theorem length_listEntry (manager : ManagerCtx) (server : Server) :
    (listEntry manager server).length = entryLen manager server + 47 := by
  have h₁ : "\n\t\x7b\"server_port\":\"".toList.length = 18 := rfl
  have h₂ : "\",\"password\":\"".toList.length = 14 := rfl
  have h₃ : "\",\"method\":\"".toList.length = 12 := rfl
  have h₄ : "\"\x7d,".toList.length = 3 := rfl
  unfold listEntry entryLen
  rw [List.length_append, List.length_append, List.length_append, List.length_append, List.length_append,
    List.length_append, h₁, h₂, h₃, h₄]
  omega

theorem lenFull_iff {entry_len pos : Nat} :
    lenFull entry_len pos = true ↔ entry_len + 50 ≤ BUF_SIZE ∧ BUF_SIZE - entry_len - 50 < pos := by
  simp only [lenFull, decide_eq_true_eq, Bool.and_eq_true, Bool.decide_and]

theorem listFull_iff {pos : Nat} : listFull manager server pos = true ↔
    entryLen manager server + 50 ≤ BUF_SIZE ∧ BUF_SIZE - entryLen manager server - 50 < pos := lenFull_iff

theorem sent_all {texts : List Text} {k : Nat} : sent (fun _ _ => true) k texts = texts := by
  induction texts generalizing k with
  | nil => rfl
  | cons text texts ih => rw [sent, if_pos rfl, ih]

end OutlineServer.Servers
