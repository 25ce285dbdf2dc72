import OutlineServer.KeyStoreSpec
import OutlineServer.ServerKill

/-!
# The exchange with the manager

An `Exchange` sums up what the manager makes of `add` and `remove`. Every run of the manager's own commands
(`manager_add`, `manager_remove`) is an exchange: it replies what the exchange replies and leaves the ports in its table
that the exchange leaves.
-/

namespace OutlineServer.Servers
open Prog

/-- The numbers are the ports of the table. -/
def Lists (table : List Int) (servers : Dict Text Server) : Prop := ∀ port, port ∈ table ↔ strInt port ∈ servers.keys

variable {manager : ManagerCtx} {server : Server} {w w' : Os} {port : Int} {table : List Int}

theorem kill_table (w : Os) (pid : Int) : (w.kill pid).table = w.table := by
  unfold Os.kill
  split <;> rfl

theorem runs_remove_server_table {key : Text} {u : Unit} (h : Runs ServerStep (remove_server manager key) w u w') :
    w'.table = w.table.erase key := by
  unfold remove_server at h
  obtain ⟨r, w₁, hs, h⟩ := runs_serverOp_bind.1 h
  cases hs
  obtain ⟨r, w₁, hs, h⟩ := runs_serverOp_bind.1 h
  cases hs
  obtain ⟨r, w₁, hs, h⟩ := runs_serverOp_bind.1 h
  cases hs
  unfold stop_server at h
  obtain ⟨r, w₁, hs, h⟩ := runs_serverOp_bind.1 h
  cases hs
  split at h
  · rw [serverOp, runs_op] at h
    cases h
    exact kill_table _ _
  · obtain ⟨-, rfl⟩ := runs_ret.1 h
    rfl

theorem runs_build_config_table {u : Unit} (h : Runs ServerStep (build_config manager server) w u w') :
    w'.table = w.table := by
  unfold build_config at h
  obtain ⟨r, w₁, hs, h⟩ := runs_serverOp_bind.1 h
  obtain ⟨-, rfl⟩ := runs_ret.1 h
  cases hs with
  | write_config => rfl
  | not_opened => rfl

/-- The record is in the table unless the port is not available, also if the server cannot be started. -/
theorem runs_add_server_table {ret : Int} (h : Runs ServerStep (add_server manager server) w ret w') :
    w'.table = w.table.set server.port server ∧ (ret = 0 ∨ ret = -1) ∨ w'.table = w.table ∧ ret = -1 := by
  unfold add_server at h
  obtain ⟨b, w₁, hc, h⟩ := runs_bind.1 h
  cases runs_check_hosts hc
  split at h
  swap
  · obtain ⟨hret, rfl⟩ := runs_ret.1 h
    exact .inr ⟨rfl, hret⟩
  obtain ⟨r, w₁, hs, h⟩ := runs_serverOp_bind.1 h
  cases hs
  obtain ⟨r, w₂, hb, h⟩ := runs_bind.1 h
  have htable := runs_build_config_table hb
  obtain ⟨r, w₃, hs, h⟩ := runs_serverOp_bind.1 h
  have hsystem : w₃.table = w₂.table := by
    cases hs with
    | no_fork => rfl
    | no_child => rfl
    | started => rfl
  refine .inl ?_
  split at h
  · obtain ⟨hret, rfl⟩ := runs_ret.1 h
    exact ⟨hsystem.trans htable, .inl hret⟩
  · obtain ⟨hret, rfl⟩ := runs_ret.1 h
    exact ⟨hsystem.trans htable, .inr hret⟩

theorem Lists.erase {servers : Dict Text Server} (h : Lists table servers) :
    Lists (table.filter (· ≠ port)) (servers.erase (strInt port)) := by
  intro p
  rw [List.mem_filter, decide_eq_true_eq, Dict.mem_keys_erase, h p]
  exact and_congr_right fun _ => not_congr ⟨congrArg strInt, strInt_injective⟩

theorem Lists.set {servers : Dict Text Server} (h : Lists table servers) :
    Lists (port :: table) (servers.set (strInt port) server) := by
  intro p
  rw [List.mem_cons, Dict.mem_keys_set, h p]
  exact or_congr_left ⟨congrArg strInt, strInt_injective⟩

/-- An `add` that is not refused. -/
theorem exchange_of_add {reply : Text} (hport : server.port = strInt port) (hlists : Lists table w.table)
    (h : Runs ServerStep (manager_add manager server) w reply w') (password method : Value) :
    ∃ x : Exchange, x.reply = some reply ∧ Lists (x.acted.table (.add port password method) table) w'.table := by
  unfold manager_add at h
  obtain ⟨_, w₁, hr, h⟩ := runs_bind.1 h
  obtain ⟨ret, w₂, ha, h⟩ := runs_bind.1 h
  obtain ⟨rfl, rfl⟩ := runs_ret.1 h
  have hremoved := @Lists.erase port _ _ hlists
  rw [← hport, ← runs_remove_server_table hr] at hremoved
  rcases runs_add_server_table ha with ⟨htable, rfl | rfl⟩ | ⟨htable, rfl⟩
  · refine ⟨⟨.done, true⟩, rfl, ?_⟩
    rw [htable, hport]
    exact hremoved.set
  · refine ⟨⟨.unstarted, true⟩, rfl, ?_⟩
    rw [htable, hport]
    exact hremoved.set
  · refine ⟨⟨.unavailable, true⟩, rfl, ?_⟩
    rw [htable]
    exact hremoved

theorem exchange_of_remove {reply : Text} (hlists : Lists table w.table)
    (h : Runs ServerStep (manager_remove manager (strInt port)) w reply w') :
    ∃ x : Exchange, x.Ok ∧ x.reply = some reply ∧ Lists (x.acted.table (.remove port) table) w'.table := by
  unfold manager_remove at h
  obtain ⟨_, w₁, hr, h⟩ := runs_bind.1 h
  obtain ⟨rfl, rfl⟩ := runs_ret.1 h
  refine ⟨⟨.done, true⟩, ⟨rfl, rfl⟩, rfl, ?_⟩
  rw [runs_remove_server_table hr]
  exact hlists.erase

end OutlineServer.Servers
