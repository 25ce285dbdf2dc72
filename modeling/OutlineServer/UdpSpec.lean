import OutlineServer.ResolvSpec
import OutlineServer.Udp

/-!
# What the UDP relay keeps

Between callbacks the live contexts are those of the connection cache, under the key of their family and source
(`Cached`). A context leaves the cache, and is freed, when its timer expires or when a new one needs its room
(`takes`); no callback looks whether a pending `query_ctx` has it recorded.
-/

namespace OutlineServer.Udp

open Mem

variable {G : Type} {K : CryptoAll G} {N : NetLib} {resolv_mode : ResolvMode} {w w' : World G} {io : NetIo}
  {c : Nat} {rem : RemoteCtx} {out lost : Option Nat} {D : Nat → Prop}

/-! ### The cache and the contexts -/

/-- The cached contexts are the live ones except for `out`. -/
structure Cached (out : Option Nat) (ps : List (Key × Nat)) (remotes : Heap RemoteCtx) : Prop where
  nodup : (ps.map Prod.fst).Nodup
  mem : ∀ k c, (k, c) ∈ ps ↔ some c ≠ out ∧ ∃ rem, remotes.get c = some rem ∧ k = hash_key rem.af rem.src_addr

namespace Cached

variable {ps ps' : List (Key × Nat)} {remotes : Heap RemoteCtx}

theorem perm (h : Cached out ps remotes) (hp : ps'.Perm ps) : Cached out ps' remotes where
  nodup := (hp.map Prod.fst).nodup_iff.2 h.nodup
  mem k c := by
    rw [← h.mem]
    exact hp.mem_iff

/-- A context under its old key. -/
theorem put (h : Cached out ps remotes) (hc : remotes.get c = some rem) {rem' : RemoteCtx}
    (hkey : hash_key rem'.af rem'.src_addr = hash_key rem.af rem.src_addr) : Cached out ps (remotes.put c rem') where
  nodup := h.nodup
  mem k c' := by
    rw [h.mem, Heap.get_put hc]
    split
    · subst c'
      simp [hc, hkey]
    · rfl

theorem put_out (h : Cached (some c) ps remotes) (hc : remotes.get c = some rem) (rem' : RemoteCtx) :
    Cached (some c) ps (remotes.put c rem') where
  nodup := h.nodup
  mem k c' := by
    rw [h.mem, Heap.get_put hc]
    split
    · subst c'
      simp
    · rfl

theorem alloc (h : Cached none ps remotes) (rem : RemoteCtx) :
    Cached (some remotes.next) ps (remotes.alloc rem) where
  nodup := h.nodup
  mem k c := by
    rw [h.mem, Heap.get_alloc]
    split
    · subst c
      simp
    · simp [*]

theorem free_out (h : Cached (some c) ps remotes) : Cached none ps (remotes.free c) where
  nodup := h.nodup
  mem k c' := by
    rw [h.mem, Heap.get_free]
    split
    · subst c'
      simp
    · simp [*]

/-- A context leaves the cache and is freed. -/
theorem remove {k : Key} (h : Cached out ((k, c) :: ps) remotes) : Cached out ps (remotes.free c) where
  nodup := List.Nodup.of_cons h.nodup
  mem k' c' := by
    have hfresh : k ∉ ps.map Prod.fst := (List.nodup_cons.1 h.nodup).1
    have hold := h.mem k' c'
    obtain ⟨-, rem, hrem, hk⟩ := (h.mem k c).1 List.mem_cons_self
    rw [List.mem_cons] at hold
    rw [Heap.get_free]
    split
    · subst c'
      refine iff_of_false (fun hmem => ?_) (by simp)
      obtain ⟨-, rem', hrem', hk'⟩ := hold.1 (.inr hmem)
      rw [hrem] at hrem'
      cases hrem'
      exact hfresh (List.mem_map.2 ⟨(k', c), hmem, by rw [hk', hk]⟩)
    · rw [← hold]
      simp [*]

/-- The context outside gets into the cache. -/
theorem insert (h : Cached (some c) ps remotes) (hc : remotes.get c = some rem)
    (hnew : ∀ d, (hash_key rem.af rem.src_addr, d) ∉ ps) :
    Cached none ((hash_key rem.af rem.src_addr, c) :: ps) remotes where
  nodup := by
    refine List.nodup_cons.2 ⟨fun hmem => ?_, h.nodup⟩
    obtain ⟨⟨k, d⟩, hd, rfl⟩ := List.mem_map.1 hmem
    exact hnew d hd
  mem k c' := by
    rw [List.mem_cons, h.mem]
    by_cases hcc : c' = c
    · subst c'
      simp [hc]
    · simp [hcc]

end Cached

/-! ### Contexts -/

def Live (w : World G) (c : Nat) : Prop := ∃ rem, w.remotes.get c = some rem

/-- Between callbacks, except for the queries. -/
structure World.Ok (w : World G) : Prop where
  cap : w.conn_cache.max_entries = MAX_UDP_CONN_NUM
  cached : Cached none w.conn_cache.pairs w.remotes

/-- A callback's work on the contexts: it gives up `lost`, at most. -/
structure Gives (lost : Option Nat) (w w' : World G) : Prop where
  ok : w'.Ok
  queries : w'.queries = w.queries
  live : ∀ c, Live w c → some c ≠ lost → Live w' c

theorem Gives.refl (h : w.Ok) : Gives none w w := ⟨h, rfl, fun _ hc _ => hc⟩

theorem Gives.trans {w'' : World G} (h : Gives none w w') (h' : Gives lost w' w'') : Gives lost w w'' where
  ok := h'.ok
  queries := h'.queries.trans h.queries
  live c hc hne := h'.live c (h.live c hc (Option.some_ne_none c)) hne

theorem World.Ok.lookup (h : w.Ok) (now : Nat) (key : Key) :
    Gives none w { w with conn_cache := (cache_lookup now w.conn_cache key).2 } where
  ok := ⟨(cache_lookup_max now w.conn_cache key).trans h.cap, h.cached.perm (cache_lookup_pairs now w.conn_cache key)⟩
  queries := rfl
  live _ hc _ := hc

/-- What the cache finds is a context with the key. -/
theorem World.Ok.found (h : w.Ok) {key : Key} {tmp : CacheEntry Key Nat} (hf : w.conn_cache.find key = some tmp) :
    ∃ rem, w.remotes.get tmp.data = some rem ∧ key = hash_key rem.af rem.src_addr :=
  ((h.cached.mem key tmp.data).1 (Cache.mem_of_find hf)).2

theorem Live.put (h : Live w c) {d : Nat} (hd : w.remotes.get d = some rem) (rem' : RemoteCtx) :
    Live { w with remotes := w.remotes.put d rem' } c := by
  obtain ⟨rem₀, h₀⟩ := h
  by_cases hcd : c = d
  · exact ⟨rem', by simp [Heap.get_put hd, hcd]⟩
  · exact ⟨rem₀, by simp [Heap.get_put hd, hcd, h₀]⟩

theorem Live.free (h : Live w c) {d : Nat} (hne : c ≠ d) : Live { w with remotes := w.remotes.free d } c := by
  obtain ⟨rem, hrem⟩ := h
  exact ⟨rem, by simp [Heap.get_free, hne, hrem]⟩

theorem Live.new_remote (h : Live w c) (fd : Family) (src_addr : SockAddr) (dst_addr : Option SockAddr) :
    Live (new_remote w fd src_addr dst_addr) c ∧ c ≠ w.remotes.next := by
  obtain ⟨rem, hrem⟩ := h
  have hne : c ≠ w.remotes.next := Nat.ne_of_lt (Heap.lt_next_of_get hrem)
  exact ⟨⟨rem, by simp [Udp.new_remote, Heap.get_alloc, hne, hrem]⟩, hne⟩

theorem World.Ok.put (h : w.Ok) (hc : w.remotes.get c = some rem) {rem' : RemoteCtx}
    (hkey : hash_key rem'.af rem'.src_addr = hash_key rem.af rem.src_addr) :
    Gives none w { w with remotes := w.remotes.put c rem' } where
  ok := ⟨h.cap, h.cached.put hc hkey⟩
  queries := rfl
  live _ hd _ := hd.put hc rem'

theorem sendRemote_hit (h : w.Ok) (hc : w.remotes.get c = some rem) (io : NetIo) (addr : SockAddr)
    (af : Option Family) : (sendRemote w io c addr true af).Safe (Gives none w) := by
  refine Safe.deref_bind hc ?_
  exact Safe.pure ⟨⟨h.cap, h.cached⟩, rfl, fun c hc _ => hc⟩

/-- `cache_insert` of the context outside, and its watchers. -/
theorem insertRemote_safe (hcap : w.conn_cache.max_entries = MAX_UDP_CONN_NUM)
    (h : Cached (some c) w.conn_cache.pairs w.remotes) (hc : w.remotes.get c = some rem)
    (hnew : ∀ d, (hash_key rem.af rem.src_addr, d) ∉ w.conn_cache.pairs) (io : NetIo) :
    (insertRemote w io c).Safe (Gives w.conn_cache.victim w) := by
  have hmax : 2 ≤ w.conn_cache.max_entries := by
    rw [hcap]
    decide
  obtain ⟨hfst, hmax, hpairs⟩ := cache_insert_pairs hmax io.now (hash_key rem.af rem.src_addr) c
  refine Safe.deref_bind hc ?_
  generalize cache_insert io.now w.conn_cache (hash_key rem.af rem.src_addr) c = inserted at hfst hmax hpairs
  obtain ⟨evicted, conn_cache⟩ := inserted
  dsimp only at hfst hmax hpairs ⊢
  rw [hfst]
  cases hv : w.conn_cache.victim with
  | none =>
    rw [hv] at hpairs
    have hcached := (h.insert hc hnew).perm hpairs
    refine Safe.deref_bind hc (Safe.pure ⟨⟨hmax.trans hcap, hcached.put hc rfl⟩, rfl, fun d hd _ => ?_⟩)
    exact hd.put (w := { w with conn_cache }) hc _
  | some v =>
    rw [hv] at hpairs
    obtain ⟨k, ps, hps, hperm⟩ := hpairs
    rw [hps] at h hnew
    obtain ⟨hvc, rem', hrem', -⟩ := (h.mem k v).1 List.mem_cons_self
    have hcv : c ≠ v := fun heq => hvc (by rw [heq])
    have hc' : (w.remotes.free v).get c = some rem := by
      rw [Heap.get_free, if_neg hcv]
      exact hc
    have hcached := (h.remove.insert hc' fun d hd => hnew d (List.mem_cons_of_mem _ hd)).perm hperm
    refine Safe.bind (P := (· = { w with conn_cache, remotes := w.remotes.free v })) ?_ ?_
    · exact Safe.deref_bind hrem' (Safe.pure rfl)
    rintro _ rfl
    refine Safe.deref_bind hc' (Safe.pure ?_)
    refine ⟨⟨hmax.trans hcap, hcached.put hc' rfl⟩, rfl, fun d hd hdv => ?_⟩
    have hne : d ≠ v := fun heq => hdv (by rw [heq])
    exact (hd.free hne).put (w := { w with conn_cache, remotes := w.remotes.free v }) hc' _

/-- A new context for `src_addr`, which the cache does not have. -/
theorem sendRemote_new (h : w.Ok) {src_addr : SockAddr} {af : Option Family}
    (hnew : w.conn_cache.find (hash_key af src_addr) = none) (fd : Family) (dst_addr : Option SockAddr) (io : NetIo)
    (addr : SockAddr) :
    (sendRemote (new_remote w fd src_addr dst_addr) io w.remotes.next addr false af).Safe
      (Gives (if io.sendto then w.conn_cache.victim else none) w) := by
  have hget : (new_remote w fd src_addr dst_addr).remotes.get w.remotes.next =
      some { io := false, watcher := false, af := none, fd, src_addr, dst_addr } := by
    simp [new_remote, Heap.get_alloc]
  have hcached := h.cached.alloc { io := false, watcher := false, af := none, fd, src_addr, dst_addr }
  have hput := Heap.get_put hget { io := false, watcher := false, af, fd, src_addr, dst_addr }
  refine Safe.deref_bind hget ?_
  simp only [Bool.false_eq_true, ↓reduceIte]
  split
  · have hins := insertRemote_safe (c := w.remotes.next) (w := { new_remote w fd src_addr dst_addr with
      sent := (fd, addr) :: w.sent
      remotes := (new_remote w fd src_addr dst_addr).remotes.put w.remotes.next
        { io := false, watcher := false, af, fd, src_addr, dst_addr } }) h.cap (hcached.put_out hget _)
      ((hput _).trans (if_pos rfl)) (Cache.not_mem_of_find hnew) io
    refine Safe.mono hins ?_
    rintro w' ⟨hok, hqueries, hlive⟩
    refine ⟨hok, hqueries, fun d hd hdv => hlive d ?_ hdv⟩
    exact (hd.new_remote fd src_addr dst_addr).1.put hget _
  · refine Safe.deref_bind hget (Safe.pure ⟨⟨h.cap, hcached.free_out⟩, rfl, fun d hd _ => ?_⟩)
    have hd' := hd.new_remote fd src_addr dst_addr
    exact hd'.1.free hd'.2

end OutlineServer.Udp
