import OutlineServer.Lib.Files
import Mathlib.Algebra.Group.Nat.Defs
import Mathlib.Data.List.DropRight

/-!
# The per-port IP lock (`ip_lock.c`)

The module's static variables are the record `IpLock`; its functions are programs over the file
operations, so that another process can be interleaved between two of their system calls. A C string
is its characters up to the terminating NUL; the two recent-address arrays are lists whose length is
the C count.
-/

namespace OutlineServer

abbrev Text := List Char

abbrev FsProg := FileProg Text

def INET6_ADDRSTRLEN : Nat := 46
def IP_LOCK_RUNTIME_DIR : Text := "/run/shadowsocks-manager".toList
def IP_LOCK_MAX_TRACK_IPS : Nat := 16
def IP_LOCK_RECENT_MAX : Nat := 8
def IP_LOCK_RECENT_TTL_SEC : Nat := 30
def IP_LOCK_STATUS_JSON_MAX : Nat := 1024

/-! ### C strings -/

/-- `strncpy(dst, s, n - 1); dst[n - 1] = '\0'` into an array of `n` bytes. -/
def strncpyz (n : Nat) (s : Text) : Text := s.take (n - 1)

/-- The characters of the first line, its newline included, but at most `n`. -/
def takeLine : Nat → Text → Text
  | 0, _ => []
  | _ + 1, [] => []
  | n + 1, c :: cs => if c = '\n' then [c] else c :: takeLine n cs

/-- `fgets(dst, n, f)` at the start of a file, then `dst` read as a C string; `none` at end of file. -/
def fgets (n : Nat) (content : Text) : Option Text :=
  if content = [] then none else some ((takeLine (n - 1) content).takeWhile (· ≠ '\x00'))

/-- `a - b` in `size_t`. -/
def size_t_sub (a b : Nat) : Nat := (a + 2 ^ 64 - b) % 2 ^ 64

/-- `snprintf(out + pos, out_size - pos, "%s", s)`: the C string `out` afterwards. -/
def snprintf (out : Text) (out_size pos : Nat) (s : Text) : Text :=
  if size_t_sub out_size pos = 0 then out else out.take pos ++ s.take (size_t_sub out_size pos - 1)

/-! ### The state of `ip_lock.c` -/

structure RecentEntry where
  ip : Text
  seen_at : Nat
deriving DecidableEq

structure IpLock where
  ip_lock_enabled : Bool
  lock_file_path : Text
  status_file_path : Text
  locked_ip : Text
  recent_incoming : List RecentEntry
  blocked_ips : List RecentEntry
  lock_file_mtime : Nat
deriving DecidableEq

def IpLock.static : IpLock := ⟨false, [], [], [], [], [], 0⟩

def ip_lock_ip_in_list (ips : List Text) (ip : Text) : Bool :=
  if ip = [] then false else ips.any (· = ip)

def ip_lock_prune_recent (store : List RecentEntry) (now : Nat) : List RecentEntry :=
  store.filter fun e => now - e.seen_at ≤ IP_LOCK_RECENT_TTL_SEC

def ip_lock_push_recent (store : List RecentEntry) (ip : Text) (now : Nat) : List RecentEntry :=
  if ip = [] then store
  else
    let store := ip_lock_prune_recent store now
    match store.findIdx? (·.ip = ip) with
    | some i => ⟨ip, now⟩ :: (store.take i ++ store.drop (i + 1))
    | none =>
      let count := if store.length < IP_LOCK_RECENT_MAX then store.length + 1 else IP_LOCK_RECENT_MAX
      ⟨strncpyz INET6_ADDRSTRLEN ip, now⟩ :: store.take (count - 1)

def IpLock.ip_lock_reset_recent_lists (s : IpLock) : IpLock :=
  { s with recent_incoming := [], blocked_ips := [] }

def ip_lock_sidecar_path (port suffix : Text) : Text :=
  snprintf [] 512 0 (IP_LOCK_RUNTIME_DIR ++ "/.shadowsocks_".toList ++ port ++ ['.'] ++ suffix)

def isLockBlank (c : Char) : Bool := c = '\n' ∨ c = '\r' ∨ c = ' '

/-- What `ip_lock_reload` makes of a lock file's text: `fgets`, then the stripping loop. -/
def readLock (content : Text) : Text :=
  match fgets INET6_ADDRSTRLEN content with
  | none => []
  | some line => line.rdropWhile isLockBlank

def ip_lock_reload (s : IpLock) : FsProg IpLock := do
  if s.lock_file_path = [] then
    return s
  let previous_ip := s.locked_ip
  match ← Sys.stat s.lock_file_path with
  | none =>
    let s := if s.locked_ip ≠ [] then s.ip_lock_reset_recent_lists else s
    return { s with locked_ip := [], lock_file_mtime := 0 }
  | some st_mtime =>
    if st_mtime = s.lock_file_mtime then
      return s
    let s := { s with lock_file_mtime := st_mtime }
    match ← Sys.fopenR s.lock_file_path with
    | none => return { s with locked_ip := [] }
    | some f =>
      let content ← Sys.fread f
      let s := { s with locked_ip := readLock content }
      if previous_ip ≠ s.locked_ip then
        return s.ip_lock_reset_recent_lists
      return s

def ip_lock_init (lock_file status_file : Text) : FsProg IpLock := do
  Sys.mkdir IP_LOCK_RUNTIME_DIR
  ip_lock_reload
    { IpLock.static with
      ip_lock_enabled := true
      lock_file_path := strncpyz 512 lock_file
      status_file_path := strncpyz 512 status_file }

def ip_lock_set (s : IpLock) (ip : Text) : FsProg IpLock := do
  if ip = [] then
    return s
  let s := if s.locked_ip ≠ [] ∧ s.locked_ip ≠ ip then s.ip_lock_reset_recent_lists else s
  let s := { s with locked_ip := strncpyz INET6_ADDRSTRLEN ip }
  if s.lock_file_path = [] then
    return s
  match ← Sys.fopenW s.lock_file_path with
  | none => return s
  | some f =>
    Sys.fputs f (s.locked_ip ++ ['\n'])
    match ← Sys.stat s.lock_file_path with
    | none => return s
    | some st_mtime => return { s with lock_file_mtime := st_mtime }

def ip_lock_record_incoming (s : IpLock) (ip : Text) : FsProg IpLock := do
  if !s.ip_lock_enabled then
    return s
  let now ← Sys.time
  return { s with recent_incoming := ip_lock_push_recent s.recent_incoming ip now }

def ip_lock_record_blocked (s : IpLock) (ip : Text) : FsProg IpLock := do
  if !s.ip_lock_enabled then
    return s
  let now ← Sys.time
  return { s with blocked_ips := ip_lock_push_recent s.blocked_ips ip now }

/-! ### The status file -/

/-- The loop of `ip_lock_format_active_ips`: the text and `pos` when it ends. -/
def formatIpsLoop (out_size : Nat) : List Text → Text → Nat → Text × Nat
  | [], out, pos => (out, pos)
  | ip :: ips, out, pos =>
    if ip = [] then formatIpsLoop out_size ips out pos
    else
      let comma : Bool := 1 < pos ∧ (pos : Int) < (out_size : Int) - 1
      let out := if comma then snprintf out out_size pos [','] else out
      let pos := if comma then pos + 1 else pos
      if (out_size : Int) - 2 ≤ pos then (out, pos)
      else
        let quoted := '"' :: ip ++ ['"']
        let out := snprintf out out_size pos quoted
        if (out_size : Int) - 2 ≤ pos + quoted.length then (out, pos)
        else formatIpsLoop out_size ips out (pos + quoted.length)

def ip_lock_format_active_ips (ips : List Text) (out_size : Nat) : Text :=
  if out_size = 0 then []
  else if ips = [] then snprintf [] out_size 0 ['[', ']']
  else
    let r := formatIpsLoop out_size ips (snprintf [] out_size 0 ['[']) 1
    snprintf r.1 out_size r.2 [']']

/-- The loop of `ip_lock_json_escape` from position `pos` of the output. -/
def ip_lock_json_escape (out_size : Nat) : Text → Nat → Text
  | [], _ => []
  | c :: cs, pos =>
    if pos + 1 < out_size then
      if c = '"' ∨ c = '\\' then
        if out_size ≤ pos + 2 then [] else '\\' :: c :: ip_lock_json_escape out_size cs (pos + 2)
      else c :: ip_lock_json_escape out_size cs (pos + 1)
    else []

def statusLine (locked_esc : Text) (total_conn : Nat) (active_json incoming_json blocked_json : Text) :
    Text :=
  "\x7b\"locked_ip\":\"".toList ++ locked_esc ++ "\",\"connections\":".toList ++
    (Nat.repr total_conn).toList ++ ",\"active_ips\":".toList ++ active_json ++
    ",\"recent_incoming\":".toList ++ incoming_json ++ ",\"blocked_ips\":".toList ++ blocked_json ++
    "\x7d\n".toList

def ip_lock_write_status (s : IpLock) (total_conn : Nat) (active_ips : List Text) : FsProg IpLock := do
  let now ← Sys.time
  if s.status_file_path = [] then
    return s
  let s := { s with
    recent_incoming := ip_lock_prune_recent s.recent_incoming now
    blocked_ips := ip_lock_prune_recent s.blocked_ips now }
  let incoming := (s.recent_incoming.map RecentEntry.ip).filter (!ip_lock_ip_in_list active_ips ·)
  let blocked := (s.blocked_ips.map RecentEntry.ip).filter (!ip_lock_ip_in_list active_ips ·)
  match ← Sys.fopenW s.status_file_path with
  | none => return s
  | some f =>
    Sys.fputs f (statusLine (ip_lock_json_escape (INET6_ADDRSTRLEN * 2) s.locked_ip 0) total_conn
      (ip_lock_format_active_ips active_ips IP_LOCK_STATUS_JSON_MAX)
      (ip_lock_format_active_ips incoming IP_LOCK_STATUS_JSON_MAX)
      (ip_lock_format_active_ips blocked IP_LOCK_STATUS_JSON_MAX))
    return s

end OutlineServer
