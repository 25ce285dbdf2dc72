import OutlineServer.TcpRuns
import OutlineServer.UdpRuns

/-!
# Who is contacted

Each event of the TCP server contacts the destination that the client asks for (`Tcp.asks`) at most, if the check of
`connect_to_remote` admits it; each one of the UDP relay sends to the destination that the client asks for (`Udp.asks`),
whatever the list says.
-/

namespace OutlineServer

open Mem

variable {Ctx G : Type} {K : CryptoT Ctx G} {N : NetLib} {resolv_mode : ResolvMode}

namespace Tcp

variable {w w' : World Ctx G} {r r' : Resolver (World Ctx G)} {e : Event Ctx} {server : Nat}

/-- The destination of a connection that is tried. -/
def connectsTo (N : NetLib) (addr : SockAddr) : Connect → List SockAddr
  | .noSocket => []
  | _ =>
    if N.blocks (N.inet_ntop addr.ip) then [] else [addr]

/-- What `server_recv_cb` makes of the first bytes of a client. -/
def firstRequest (K : CryptoT Ctx G) (N : NetLib) (g : G) (s : Server Ctx) (bs : Bytes) : C (Option Request) := do
  let buf ← s.buf.put 0 bs
  let (ret, buf, _, _) ← K.decrypt g { buf with len := bs.length } s.d_ctx SOCKET_BUF_SIZE
  match ret with
  | .CRYPTO_OK => return some (← serverRequest N buf)
  | _ => return none

def requestAsks (resolv_mode : ResolvMode) (x : Block × Connect) (now4 now6 : Option Answer) (query : Nat) :
    Option Request → Option (SockAddr × Connect)
  | some (.connect addr _) => some (addr, x.2)
  | some (.query _ port _) =>
    match now4, now6 with
    | some he4, some he6 => (resolv_mode.choose (.both port query he4 he6)).map fun addr => (addr, x.2)
    | _, _ => none
  | _ => none

/-- The destination that an event asks for, with what the system calls return. -/
def asks (K : CryptoT Ctx G) (N : NetLib) (resolv_mode : ResolvMode) (r : Resolver (World Ctx G)) :
    Event Ctx → Option (SockAddr × Connect)
  | .serverRecv server (.data bs) _ x now4 now6 =>
    match r.app.servers.get server with
    | some s =>
      if s.stage = .INIT then
        match firstRequest K N r.app.g s bs with
        | .ok request => requestAsks resolv_mode x now4 now6 r.app.queries.next request
        | .error _ => none
      else
        none
    | none => none
  | .answer q f he x =>
    match r.lookups.get q with
    | some lookup =>
      if all_requests_are_null (lookup.answered f he) && (r.app.queries.get lookup.data).any (·.server.isSome) then
        (resolv_mode.choose (lookup.answered f he)).map fun addr => (addr, x.2)
      else
        none
    | none => none
  | _ => none

/-! ### What leaves the history alone -/

theorem free_remote_same (w : World Ctx G) (remote : Nat) :
    (free_remote w remote).Yields fun w' => w'.connects = w.connects := by
  refine Yields.deref_bind fun rem _ => ?_
  split
  · exact Yields.pure rfl
  · exact Yields.deref_bind fun s _ => Yields.pure rfl

theorem close_and_free_remote_same (w : World Ctx G) (remote : Option Nat) :
    (close_and_free_remote w remote).Yields fun w' => w'.connects = w.connects := by
  cases remote with
  | none => exact Yields.pure rfl
  | some remote => exact free_remote_same w remote

theorem free_server_same (w : World Ctx G) (server : Nat) :
    (free_server w server).Yields fun w' => w'.connects = w.connects := by
  refine Yields.deref_bind fun s _ => ?_
  split
  · exact Yields.pure rfl
  · exact Yields.deref_bind fun rem _ => Yields.pure rfl

theorem close_and_free_server_same (w : World Ctx G) (server : Nat) :
    (close_and_free_server w server).Yields fun w' => w'.connects = w.connects := by
  refine Yields.deref_bind fun s _ => ?_
  split
  · exact free_server_same w server
  · exact Yields.deref_bind fun q _ => free_server_same _ server

theorem closeBoth_same (w : World Ctx G) (remote : Option Nat) (server : Nat) :
    (closeBoth w remote server).Yields fun w' => w'.connects = w.connects := by
  refine (close_and_free_remote_same w remote).bind fun w₁ h₁ => ?_
  exact (close_and_free_server_same w₁ server).mono fun w' hw' => hw'.trans h₁

theorem attachRemote_same (w : World Ctx G) (server : Nat) (remote : Option Nat) :
    (attachRemote w server remote).Yields fun w' => w'.connects = w.connects := by
  cases remote with
  | none => exact close_and_free_server_same w server
  | some remote =>
    refine Yields.deref_bind fun s _ => Yields.deref_bind fun rem _ => ?_
    split
    · exact Yields.lift_bind fun payload _ => Yields.lift_bind fun rbuf _ => Yields.pure rfl
    · exact Yields.pure rfl

theorem resolv_free_cb_same (w : World Ctx G) (query : Nat) :
    (resolv_free_cb query w).Yields fun w' => w'.connects = w.connects := by
  refine Yields.deref_bind fun q _ => ?_
  split
  · exact Yields.pure rfl
  · exact Yields.deref_bind fun s _ => Yields.pure rfl

theorem server_send_cb_same (w : World Ctx G) (server : Nat) (send : Send) :
    (server_send_cb w server send).Yields fun w' => w'.connects = w.connects := by
  refine Yields.deref_bind fun s _ => ?_
  split
  · exact close_and_free_server_same w server
  split
  · exact closeBoth_same w _ server
  split
  · exact closeBoth_same w _ server
  · exact Yields.pure rfl
  · refine Yields.lift_bind fun _ _ => ?_
    split
    · exact Yields.pure rfl
    · exact Yields.deref_bind fun rem _ => Yields.pure rfl

theorem server_timeout_cb_same (w : World Ctx G) (server : Nat) :
    (server_timeout_cb w server).Yields fun w' => w'.connects = w.connects :=
  Yields.deref_bind fun s _ => closeBoth_same w s.remote server

theorem remote_recv_cb_same (K : CryptoT Ctx G) (w : World Ctx G) (remote : Nat) (recv : Recv) (send : Send) :
    (remote_recv_cb K w remote recv send).Yields fun w' => w'.connects = w.connects := by
  refine Yields.deref_bind fun rem _ => ?_
  split
  · exact close_and_free_remote_same w _
  refine Yields.deref_bind fun s _ => ?_
  split
  · exact Yields.pure rfl
  · exact closeBoth_same w _ _
  · exact closeBoth_same w _ _
  refine Yields.lift_bind fun buf _ => ?_
  split
  · exact Yields.pure rfl
  refine Yields.lift_bind fun res _ => ?_
  dsimp only
  split
  · exact closeBoth_same _ _ _
  split
  · exact closeBoth_same _ _ _
  · exact Yields.pure rfl
  · refine Yields.lift_bind fun _ _ => ?_
    split
    · exact Yields.pure rfl
    · exact Yields.pure rfl

theorem remoteSendData_same (w : World Ctx G) (remote : Nat) (rem : Remote) (server : Nat) (s : Server Ctx)
    (send : Send) : (remoteSendData w remote rem server s send).Yields fun w' => w'.connects = w.connects := by
  unfold remoteSendData
  split
  · exact closeBoth_same w _ server
  split
  · exact closeBoth_same w _ server
  · exact Yields.pure rfl
  · refine Yields.lift_bind fun _ _ => ?_
    split
    · exact Yields.pure rfl
    split
    · exact Yields.pure rfl
    · exact Yields.pure rfl

theorem remote_send_cb_same (w : World Ctx G) (remote : Nat) (connected : Bool) (send : Send) :
    (remote_send_cb w remote connected send).Yields fun w' => w'.connects = w.connects := by
  refine Yields.deref_bind fun rem _ => ?_
  split
  · exact close_and_free_remote_same w _
  refine Yields.deref_bind fun s _ => ?_
  split
  · exact remoteSendData_same w _ _ _ _ _
  split
  · dsimp only
    split
    · exact Yields.pure rfl
    · exact remoteSendData_same w _ _ _ _ _
  · exact closeBoth_same w _ _

theorem serverRecvStream_same (w : World Ctx G) (server : Nat) (s : Server Ctx) (remote : Nat) (rem : Remote)
    (ret : CryptoRet) (send : Send) :
    (serverRecvStream w server s remote rem ret send).Yields fun w' => w'.connects = w.connects := by
  unfold serverRecvStream
  split
  · exact Yields.pure rfl
  · exact Yields.pure rfl
  · exact closeBoth_same w _ server
  · exact Yields.pure rfl
  · refine Yields.lift_bind fun _ _ => ?_
    split
    · exact Yields.pure rfl
    · exact Yields.pure rfl

/-! ### Connections -/

theorem connect_to_remote_yields (N : NetLib) (addr : SockAddr) (w : World Ctx G) (server : Nat) (junk : Block)
    (t : Connect) :
    (connect_to_remote N addr w server junk t).Yields fun p => p.1.connects = connectsTo N addr t ++ w.connects := by
  unfold connect_to_remote
  split
  · rename_i hblocks
    refine Yields.pure ?_
    cases t <;> simp [connectsTo, hblocks]
  · rename_i hblocks
    cases t with
    | noSocket => exact Yields.pure rfl
    | fails =>
      refine (close_and_free_remote_same _ _).bind fun w' hw' => Yields.pure (hw'.trans ?_)
      simp [new_remote, connectsTo, hblocks]
    | started => exact Yields.pure (by simp [new_remote, connectsTo, hblocks])
    | fastOpen n =>
      refine Yields.deref_bind fun s _ => Yields.lift_bind fun _ _ => Yields.pure ?_
      simp [new_remote, connectsTo, hblocks]

theorem connect_attach_yields (N : NetLib) (addr : SockAddr) (w : World Ctx G) (server : Nat) (junk : Block)
    (t : Connect) :
    (do
      let (w, remote) ← connect_to_remote N addr w server junk t
      attachRemote w server remote).Yields fun w' => w'.connects = connectsTo N addr t ++ w.connects := by
  refine (connect_to_remote_yields N addr w server junk t).bind fun p hp => ?_
  exact (attachRemote_same p.1 server p.2).mono fun w' hw' => hw'.trans hp

/-- The destinations that an answered query has tried. -/
def resolvConnects (N : NetLib) (x : Block × Connect) (addr : Option SockAddr) (q : Option Query) : List SockAddr :=
  match addr, q.bind Query.server with
  | some addr, some _ => connectsTo N addr x.2
  | _, _ => []

theorem resolvClient_yields (N : NetLib) (x : Block × Connect) (addr : Option SockAddr) (query : Nat)
    (w : World Ctx G) :
    (((@resolvClient Ctx G) N).client_cb x addr query w >>=
      ((@resolvClient Ctx G) N).free_cb query).Yields fun w' =>
        w'.connects = resolvConnects N x addr (w.queries.get query) ++ w.connects := by
  refine Yields.bind (P := fun w' : World Ctx G =>
    w'.connects = resolvConnects N x addr (w.queries.get query) ++ w.connects) ?_ ?_
  · refine Yields.deref_bind fun q hq => ?_
    rw [hq]
    cases hserver : q.server with
    | none =>
      refine Yields.pure ?_
      cases addr <;> simp [resolvConnects, hserver]
    | some server =>
      refine Yields.deref_bind fun s _ => ?_
      cases addr with
      | none => exact close_and_free_server_same w server
      | some addr =>
        simp only [resolvConnects, Option.bind_some, hserver]
        exact connect_attach_yields N addr w server x.1 x.2
  · intro w' hw'
    exact (resolv_free_cb_same w' query).mono fun w'' h => h.trans hw'

/-! ### Events -/

/-- The destinations that an event contacts. -/
def contacts (N : NetLib) (asked : Option (SockAddr × Connect)) : List SockAddr :=
  match asked with
  | some (addr, t) => connectsTo N addr t
  | none => []

theorem serverRecvInit_yields (x : Block × Connect) (now4 now6 : Option Answer) (r : Resolver (World Ctx G))
    (server : Nat) (s : Server Ctx) (ret : CryptoRet) {asked : Option (SockAddr × Connect)}
    (hok : ∀ request, ret = .CRYPTO_OK → serverRequest N s.buf = .ok request →
      asked = requestAsks resolv_mode x now4 now6 r.app.queries.next (some request))
    (hother : ret ≠ .CRYPTO_OK → asked = none) :
    (serverRecvInit N resolv_mode x now4 now6 r server s ret).Yields fun r' =>
      r'.app.connects = contacts N asked ++ r.app.connects := by
  cases ret with
  | CRYPTO_ERROR =>
    rw [hother (by decide)]
    exact Yields.pure rfl
  | CRYPTO_NEED_MORE =>
    rw [hother (by decide)]
    exact Yields.pure rfl
  | CRYPTO_OK =>
    refine Yields.lift_bind fun request hrequest => ?_
    rw [hok request rfl hrequest]
    cases request with
    | stop => exact Yields.pure rfl
    | blocked => exact (close_and_free_server_same r.app server).bind fun w hw => Yields.pure hw
    | connect addr offset =>
      refine Yields.bind (connect_to_remote_yields N addr _ server x.1 x.2) fun p hp => ?_
      exact (attachRemote_same p.1 server p.2).bind fun w hw => Yields.pure (hw.trans hp)
    | query host port offset =>
      refine resolv_start_yields (Q := fun w : World Ctx G => w.connects =
        contacts N (requestAsks resolv_mode x now4 now6 r.app.queries.next (some (.query host port offset))) ++
          r.app.connects) x port now4 now6 ?_ ?_
      · rintro he4 he6 rfl rfl
        refine (resolvClient_yields N x _ _ _).mono fun w hw => hw.trans ?_
        simp only [Heap.get_alloc, ↓reduceIte, requestAsks]
        cases resolv_mode.choose (.both port r.app.queries.next he4 he6) <;> rfl
      · rintro (rfl | rfl)
        · rfl
        · cases now4 <;> rfl

theorem server_recv_cb_yields (x : Block × Connect) (now4 now6 : Option Answer) (recv : Recv) (send : Send)
    (r : Resolver (World Ctx G)) (server : Nat) :
    (server_recv_cb K N resolv_mode x now4 now6 recv send r server).Yields fun r' =>
      r'.app.connects =
        contacts N (asks K N resolv_mode r (.serverRecv server recv send x now4 now6)) ++ r.app.connects := by
  have hboth : ∀ remote, (do return { r with app := ← closeBoth r.app remote server } :
      Mem Fault (Resolver (World Ctx G))).Yields fun r' => r'.app.connects = r.app.connects := fun remote =>
    (closeBoth_same r.app remote server).bind fun w hw => Yields.pure hw
  refine Yields.deref_bind fun s hs => ?_
  split
  · -- the data goes to `remote`
    refine Yields.deref_bind fun remote _ => Yields.deref_bind fun rem _ => ?_
    cases recv with
    | again => exact Yields.pure rfl
    | eof => exact hboth _
    | error => exact hboth _
    | data bs =>
      have hstage : s.stage ≠ .INIT := by
        rw [‹s.stage = .STREAM›]
        decide
      simp only [asks, hs, hstage, ↓reduceIte]
      refine Yields.lift_bind fun buf _ => Yields.lift_bind fun res _ => ?_
      exact (serverRecvStream_same _ _ _ _ _ _ _).bind fun w hw => Yields.pure hw
  cases recv with
  | again => exact Yields.pure rfl
  | eof => exact hboth none
  | error => exact hboth none
  | data bs =>
    refine Yields.lift_bind fun buf hbuf => ?_
    simp only [asks, hs]
    split
    · have hstage : s.stage ≠ .INIT := by
        rw [‹s.stage = .STOP›]
        decide
      simp only [hstage, ↓reduceIte]
      exact Yields.pure rfl
    refine Yields.lift_bind fun res hres => ?_
    obtain ⟨ret, buf', d_ctx, g⟩ := res
    dsimp only
    split
    · exact Yields.error
    have hres : K.decrypt r.app.g { buf with len := bs.length } s.d_ctx SOCKET_BUF_SIZE = .ok (ret, buf', d_ctx, g) :=
      ‹_›
    refine (serverRecvInit_yields x now4 now6 { r with app.g := g } server _ ret ?_ ?_)
    · rintro request rfl hrequest
      have hinit : s.stage = .INIT := by
        by_contra hne
        exact absurd ⟨rfl, hne⟩ ‹¬ (_ ∧ _)›
      have hfirst : firstRequest K N r.app.g s bs = .ok (some request) := by
        simp only [firstRequest, hbuf, C.ok_bind, hres]
        rw [hrequest]
        rfl
      simp only [hinit, ↓reduceIte, hfirst]
    · intro hret
      split
      · have hfirst : firstRequest K N r.app.g s bs = .ok none := by
          simp only [firstRequest, hbuf, C.ok_bind, hres]
          cases ret with
          | CRYPTO_OK => exact absurd rfl hret
          | CRYPTO_NEED_MORE => rfl
          | CRYPTO_ERROR => rfl
        simp only [hfirst, requestAsks]
      · rfl

/-- Each event contacts what it asks for, if `connect_to_remote` admits it, and nothing else. -/
theorem fire_contacts (hfire : fire K N resolv_mode r e = .ok r') :
    r'.app.connects = contacts N (asks K N resolv_mode r e) ++ r.app.connects := by
  have hset : ∀ {x : Mem Fault (World Ctx G)}, x.Yields (fun w => w.connects = r.app.connects) →
      (do return { r with app := ← x } : Mem Fault (Resolver (World Ctx G))).Yields
        fun r' => r'.app.connects = r.app.connects :=
    fun hx => hx.bind fun app happ => Yields.pure happ
  cases e with
  | accept junk e_ctx d_ctx =>
    cases hfire
    rfl
  | serverRecv server recv send x now4 now6 => exact server_recv_cb_yields x now4 now6 recv send r server r' hfire
  | serverSend server send => exact hset (server_send_cb_same r.app server send) r' hfire
  | serverTimeout server => exact hset (server_timeout_cb_same r.app server) r' hfire
  | remoteRecv remote recv send => exact hset (remote_recv_cb_same K r.app remote recv send) r' hfire
  | remoteSend remote connected send => exact hset (remote_send_cb_same r.app remote connected send) r' hfire
  | answer q f he x =>
    refine Resolver.answer_yields (Q := fun w : World Ctx G =>
      w.connects = contacts N (asks K N resolv_mode r (.answer q f he x)) ++ r.app.connects) x he ?_ ?_ r' hfire
    · intro lookup hq hnull
      refine (resolvClient_yields N x _ _ _).mono fun w hw => hw.trans ?_
      simp only [asks, hq, hnull, Bool.true_and]
      cases r.app.queries.get lookup.data with
      | none => cases resolv_mode.choose (lookup.answered f he) <;> rfl
      | some q =>
        cases hserver : q.server with
        | none => cases resolv_mode.choose (lookup.answered f he) <;> simp [resolvConnects, hserver, contacts]
        | some server => cases resolv_mode.choose (lookup.answered f he) <;> simp [resolvConnects, hserver, contacts]
    · intro lookup hq hopen
      simp [asks, hq, hopen, contacts]

end Tcp

namespace Udp

variable {A : CryptoAll G} {w w' : World G} {r r' : Resolver (World G)} {e : Event} {io : NetIo}

def World.destinations (w : World G) : List SockAddr := w.sent.map Prod.snd

/-- The destination of an answered query, if there is a context for it or a socket. -/
def resolvAsks (io : NetIo) (w : World G) (src_addr : SockAddr) (remote_ctx : Option Nat) (addr : Option SockAddr) :
    Option SockAddr :=
  if remote_ctx.isSome || (w.conn_cache.find (hash_key none src_addr)).isSome || io.socket then addr else none

/-- The destination of a datagram, if there is a context for it or a socket. -/
def headerAsks (resolv_mode : ResolvMode) (io : NetIo) (now4 now6 : Option Answer) (w : World G) (src_addr : SockAddr)
    (h : UdpHeader) : Option SockAddr :=
  match lookupRemote io w (h.dst.map (·.ip.family)) src_addr with
  | .error _ => none
  | .ok (w, remote_ctx) =>
    match h.dst with
    | some dst => if remote_ctx.isSome || io.socket then some dst else none
    | none =>
      match now4, now6 with
      | some he4, some he6 =>
        resolvAsks io w src_addr remote_ctx (resolv_mode.choose (.both h.port w.queries.next he4 he6))
      | _, _ => none

/-- The destination that an event asks for. -/
def asks (A : CryptoAll G) (N : NetLib) (resolv_mode : ResolvMode) (r : Resolver (World G)) : Event → Option SockAddr
  | .serverRecv junk io now4 now6 src_addr packet =>
    match packet.map (recvHeader A N junk r.app.g) with
    | some (.ok (g, some (_, h))) => headerAsks resolv_mode io now4 now6 { r.app with g } src_addr h
    | _ => none
  | .answer q f he io =>
    match r.lookups.get q with
    | some lookup =>
      if all_requests_are_null (lookup.answered f he) then
        (r.app.queries.get lookup.data).bind fun query =>
          resolvAsks io r.app query.src_addr query.remote_ctx (resolv_mode.choose (lookup.answered f he))
      else
        none
    | none => none
  | .remoteRecv _ _ _ _ _ _ | .remoteTimeout _ => none

/-! ### What leaves the history alone -/

theorem free_cb_same (w : World G) (data : Option Nat) : (free_cb w data).Yields fun w' => w'.sent = w.sent := by
  cases data with
  | none => exact Yields.pure rfl
  | some c => exact Yields.deref_bind fun _ _ => Yields.pure rfl

theorem insertRemote_same (w : World G) (io : NetIo) (c : Nat) :
    (insertRemote w io c).Yields fun w' => w'.sent = w.sent := by
  refine Yields.deref_bind fun rem _ => ?_
  refine (free_cb_same _ _).bind fun w' hw' => ?_
  exact Yields.deref_bind fun rem _ => Yields.pure hw'

theorem remote_timeout_cb_same (w : World G) (c : Nat) : (remote_timeout_cb w c).Yields fun w' => w'.sent = w.sent :=
  Yields.deref_bind fun _ _ => free_cb_same _ _

theorem remote_recv_cb_same (A : CryptoAll G) (junk : Block) (salt : Bytes) (w : World G) (c : Nat)
    (src_addr : SockAddr) (packet : Option Bytes) (sent : Bool) :
    (remote_recv_cb A junk salt w c src_addr packet sent).Yields fun w' => w'.sent = w.sent := by
  refine Yields.deref_bind fun rem _ => ?_
  cases packet with
  | none => exact Yields.pure rfl
  | some bs =>
    refine Yields.lift_bind fun buf _ => Yields.lift_bind fun buf' _ => Yields.lift_bind fun res _ => ?_
    dsimp only
    split
    · exact Yields.pure rfl
    split
    · exact Yields.pure rfl
    · exact Yields.pure rfl

theorem lookupRemote_same (w : World G) (io : NetIo) (af : Option Family) (src_addr : SockAddr) :
    (lookupRemote io w af src_addr).Yields fun p => p.1.sent = w.sent := by
  unfold lookupRemote
  dsimp only
  split
  · exact Yields.pure rfl
  refine Yields.deref_bind fun rem _ => ?_
  split
  · exact Yields.pure rfl
  · exact Yields.pure rfl

/-! ### Datagrams -/

theorem sendRemote_yields (w : World G) (io : NetIo) (c : Nat) (addr : SockAddr) (cache_hit : Bool)
    (af : Option Family) :
    (sendRemote w io c addr cache_hit af).Yields fun w' => w'.destinations = addr :: w.destinations := by
  refine Yields.deref_bind fun rem _ => ?_
  dsimp only
  split
  · exact Yields.pure rfl
  split
  · refine (insertRemote_same _ io c).mono fun w' hw' => ?_
    rw [World.destinations, hw']
    rfl
  · exact Yields.deref_bind fun _ _ => Yields.pure rfl

theorem resolvClient_yields (io : NetIo) (addr : Option SockAddr) (d : Nat) (w : World G) :
    ((resolvClient (G := G)).client_cb io addr d w >>= (resolvClient (G := G)).free_cb d).Yields fun w' =>
      w'.destinations = ((w.queries.get d).bind fun q => resolvAsks io w q.src_addr q.remote_ctx addr).toList ++
        w.destinations := by
  refine Yields.bind (P := fun w' : World G => w'.destinations =
    ((w.queries.get d).bind fun q => resolvAsks io w q.src_addr q.remote_ctx addr).toList ++ w.destinations) ?_ ?_
  · refine Yields.deref_bind fun q hq => ?_
    rw [hq, Option.bind_some]
    cases addr with
    | none =>
      refine Yields.pure ?_
      simp [resolvAsks]
    | some addr =>
      cases hrc : q.remote_ctx with
      | some c =>
        refine Yields.deref_bind fun rem _ => (sendRemote_yields _ io c addr true rem.af).mono fun w' hw' =>
          hw'.trans ?_
        simp [resolvAsks, World.destinations]
      | none =>
        cases hf : w.conn_cache.find (hash_key none q.src_addr) with
        | some tmp =>
          have hfst := cache_lookup_fst io.now w.conn_cache (hash_key none q.src_addr)
          rw [hf, Option.map_some] at hfst
          simp only [hfst]
          refine Yields.deref_bind fun rem _ => (sendRemote_yields _ io _ addr true rem.af).mono fun w' hw' =>
            hw'.trans ?_
          simp [resolvAsks, hf, World.destinations]
        | none =>
          simp only [cache_lookup_miss hf]
          split
          · have hsocket : io.socket = true := ‹_›
            refine (sendRemote_yields _ io _ addr false none).mono fun w' hw' => hw'.trans ?_
            simp [resolvAsks, hsocket, World.destinations, new_remote]
          · have hsocket : io.socket = false := Bool.eq_false_iff.2 ‹_›
            refine Yields.pure ?_
            simp [resolvAsks, hsocket, hf]
  · intro w' hw'
    exact Yields.deref_bind fun _ _ => Yields.pure hw'

theorem serverRecvHeader_yields (io : NetIo) (now4 now6 : Option Answer) (r : Resolver (World G)) (src_addr : SockAddr)
    (buf : Buffer) (h : UdpHeader) :
    (serverRecvHeader resolv_mode io now4 now6 r src_addr buf h).Yields fun r' => r'.app.destinations =
      (headerAsks resolv_mode io now4 now6 r.app src_addr h).toList ++ r.app.destinations := by
  unfold serverRecvHeader headerAsks
  have hsame := lookupRemote_same r.app io (h.dst.map (·.ip.family)) src_addr
  cases hlook : lookupRemote io r.app (h.dst.map (·.ip.family)) src_addr with
  | error err => exact Yields.error
  | ok p =>
    obtain ⟨w, remote_ctx⟩ := p
    have hw : w.destinations = r.app.destinations := congrArg (List.map Prod.snd) (hsame _ hlook)
    simp only [ok_bind, ← hw]
    cases hdst : h.dst with
    | some dst =>
      cases remote_ctx with
      | some c => exact (sendRemote_yields w io c dst true _).bind fun w' hw' => Yields.pure hw'
      | none =>
        dsimp only
        split
        · have hsocket : io.socket = true := ‹_›
          refine (sendRemote_yields _ io _ dst false _).bind fun w' hw' => Yields.pure (hw'.trans ?_)
          simp [hsocket, World.destinations, new_remote]
        · have hsocket : io.socket = false := Bool.eq_false_iff.2 ‹_›
          refine Yields.pure ?_
          simp [hsocket]
    | none =>
      refine Yields.lift_bind fun payload _ => Yields.lift_bind fun addr_header _ => ?_
      refine resolv_start_yields (Q := fun w' : World G => w'.destinations = (match now4, now6 with
        | some he4, some he6 =>
          resolvAsks io w src_addr remote_ctx (resolv_mode.choose (.both h.port w.queries.next he4 he6))
        | _, _ => none).toList ++ w.destinations) io h.port now4 now6 ?_ ?_
      · rintro he4 he6 rfl rfl
        refine (resolvClient_yields io _ _ _).mono fun w' hw' => hw'.trans ?_
        simp only [Heap.get_alloc, ↓reduceIte, Option.bind_some]
        rfl
      · rintro (rfl | rfl)
        · rfl
        · cases now4 <;> rfl

/-- Each event sends to what it asks for, and to nobody else. -/
theorem fire_sends (hfire : fire A N resolv_mode r e = .ok r') :
    r'.app.destinations = (asks A N resolv_mode r e).toList ++ r.app.destinations := by
  have hset : ∀ {x : Mem Fault (World G)}, x.Yields (fun w => w.sent = r.app.sent) →
      (do return { r with app := ← x } : Mem Fault (Resolver (World G))).Yields
        fun r' => r'.app.destinations = r.app.destinations :=
    fun hx => hx.bind fun app happ => Yields.pure (congrArg (List.map Prod.snd) happ)
  cases e with
  | serverRecv junk io now4 now6 src_addr packet =>
    suffices hrecv : (server_recv_cb A N resolv_mode junk io now4 now6 r src_addr packet).Yields fun r' =>
        r'.app.destinations = (asks A N resolv_mode r (.serverRecv junk io now4 now6 src_addr packet)).toList ++
          r.app.destinations from hrecv r' hfire
    unfold server_recv_cb
    cases packet with
    | none => exact Yields.pure rfl
    | some bs =>
      refine Yields.lift_bind fun res hres => ?_
      obtain ⟨g, received⟩ := res
      simp only [asks, Option.map_some, hres]
      cases received with
      | none => exact Yields.pure rfl
      | some p => exact serverRecvHeader_yields io now4 now6 { r with app.g := g } src_addr p.1 p.2
  | remoteRecv junk salt remote_ctx src_addr packet sent =>
    exact hset (remote_recv_cb_same A junk salt r.app remote_ctx src_addr packet sent) r' hfire
  | remoteTimeout remote_ctx => exact hset (remote_timeout_cb_same r.app remote_ctx) r' hfire
  | answer q f he io =>
    refine Resolver.answer_yields (Q := fun w : World G => w.destinations =
      (asks A N resolv_mode r (.answer q f he io)).toList ++ r.app.destinations) io he ?_ ?_ r' hfire
    · intro lookup hq hnull
      refine (resolvClient_yields io _ _ _).mono fun w hw => hw.trans ?_
      simp only [asks, hq, hnull, ↓reduceIte]
    · intro lookup hq hopen
      simp [asks, hq, hopen]

end Udp

end OutlineServer
