import OutlineServer.AeadSender
import OutlineServer.RelayInv

/-!
# Integrity of the relay

Until a segment of the client fails to decrypt, each socket has accepted a prefix of what the other one sent, and
no receive watcher is active over unsent bytes (`relay_integrity`). After that the connection is inert
as long as the client's segments do not reach into bytes that it still has to be sent (`stopped_inert`).
-/

namespace OutlineServer

section
variable {Ctx G : Type} {K : CryptoT Ctx G} {N : NetLib} {c : Conn Ctx G}

theorem Conn.Inv.of_intact (h : ((relay K N).within fun c => c.failed = false).Reach c) : c.Inv := by
  refine h.invariant ?_ ?_
  · rintro c ⟨⟨g, junk, e_ctx, d_ctx, rfl⟩, -⟩
    exact acceptedConn_inv g junk e_ctx d_ctx
  · intro c e c' hc hinv hstep
    exact hinv.fire (hinv.undisturbed hc.within_holds e) hstep.1

theorem Conn.Inv.recv_empty (h : c.Inv) (hf : c.failed = false) {server : ServerT Ctx} (hs : c.server = some server)
    (hrecv : server.recv_io = true) :
    c.toRemote = c.decrypted ∧ (server.stage ≠ .STREAM → c.toClient = c.encrypted) := by
  obtain ⟨hdown, -, hphase⟩ := h.server server hs
  have hidle : server.send_io = false → c.toClient = c.encrypted := by
    intro hsend
    rw [hdown, ServerT.unsent, hsend]
    exact (List.append_nil _).symm
  rcases hphase with ⟨-, -, -, hsend, -, hnew⟩ | ⟨-, -, -, hr⟩ | ⟨_, -, -, -, hr⟩ | ⟨remote, hst, -, hr, -, -, hup, -⟩ |
    ⟨-, -, hok, -⟩
  · refine ⟨?_, fun _ => hidle hsend⟩
    rw [hnew]
    exact List.prefix_nil.1 (hnew ▸ h.toRemote)
  · rw [hr] at hrecv
    cases hrecv
  · rw [hr] at hrecv
    cases hrecv
  · refine ⟨?_, fun hstage => absurd hst hstage⟩
    rw [(h.remote remote hr).1, RemoteT.unsent, hup hrecv]
    exact (List.append_nil _).symm
  · obtain ⟨-, hsend, -, heq⟩ := hok hf
    exact ⟨heq, fun _ => hidle hsend⟩

theorem Conn.Inv.remote_recv_empty (h : c.Inv) {server : ServerT Ctx} (hs : c.server = some server)
    {remote : RemoteT} (hr : c.remote = some remote) (hrecv : remote.recv_io = true) : c.toClient = c.encrypted := by
  obtain ⟨hdown, -, hphase⟩ := h.server server hs
  obtain ⟨-, hsend, -⟩ := hphase.of_remote_recv hr hrecv
  rw [hdown, ServerT.unsent, hsend]
  exact (List.append_nil _).symm

/-- In every schedule in which no client read fails to decrypt: both sockets have accepted a prefix, the rest of what
has been read waits in the buffer of an active send watcher, and a receive watcher that would fill a buffer is active
only if everything has been accepted. -/
theorem relay_integrity (K : CryptoT Ctx G) (N : NetLib) {c : Conn Ctx G}
    (h : ((relay K N).within fun c => c.failed = false).Reach c) :
    c.toRemote <+: c.decrypted ∧ c.toClient <+: c.encrypted ∧
      (∀ remote, c.remote = some remote → c.decrypted = c.toRemote ++ remote.unsent) ∧
      (∀ server, c.server = some server → c.encrypted = c.toClient ++ server.unsent) ∧
      (∀ server, c.server = some server → server.recv_io = true →
        c.toRemote = c.decrypted ∧ (server.stage ≠ .STREAM → c.toClient = c.encrypted)) ∧
      ∀ server remote, c.server = some server → c.remote = some remote → remote.recv_io = true →
        c.toClient = c.encrypted := by
  have hinv := Conn.Inv.of_intact h
  refine ⟨hinv.toRemote, hinv.toClient, ?_, ?_, ?_, ?_⟩
  · intro remote hr
    exact (hinv.remote remote hr).1
  · intro server hs
    exact (hinv.server server hs).1
  · intro server hs hrecv
    exact hinv.recv_empty h.within_holds hs hrecv
  · intro server remote hs hr hrecv
    exact hinv.remote_recv_empty hs hr hrecv

/-- In every run in which what a stopped client sends stays below the bytes that are to be sent to it, no byte that was
received after a failure is sent to either side, and the client gets a prefix of what `remote` sent. -/
theorem stopped_inert (K : CryptoT Ctx G) (N : NetLib) {c : Conn Ctx G}
    (h : ((relay K N).guarded Undisturbed).Reach c) : c.leaked = false ∧ c.toClient <+: c.encrypted := by
  have hinv : c.Inv := by
    refine h.invariant ?_ ?_
    · rintro c ⟨g, junk, e_ctx, d_ctx, rfl⟩
      exact acceptedConn_inv g junk e_ctx d_ctx
    · intro c e c' _ hinv hstep
      exact hinv.fire hstep.1 hstep.2
  exact ⟨hinv.leaked, hinv.toClient⟩

/-- The run of the events `es`, if each of them can happen and `ok` admits it. -/
def Conn.run (K : CryptoT Ctx G) (N : NetLib) (ok : Conn Ctx G → RelayEvent G → Conn Ctx G → Bool) :
    Conn Ctx G → List (RelayEvent G) → Option (Conn Ctx G)
  | c, [] => some c
  | c, e :: es =>
    match c.fire K N e with
    | some (.ok c') => if ok c e c' then Conn.run K N ok c' es else none
    | _ => none

theorem Conn.of_run {ok : Conn Ctx G → RelayEvent G → Conn Ctx G → Bool} {M : Lts (Conn Ctx G) (RelayEvent G)}
    (hM : ∀ c e c', c.fire K N e = some (.ok c') → ok c e c' = true → M.step c e c') {es : List (RelayEvent G)}
    {c' : Conn Ctx G} (h : c.run K N ok es = some c') : M.Run c es c' := by
  induction es generalizing c with
  | nil =>
    cases h
    exact .nil _
  | cons e es ih =>
    rw [Conn.run] at h
    split at h
    · split at h
      · exact .cons (hM _ _ _ ‹_› ‹_›) (ih h)
      · cases h
    · cases h

end

/-! ### The AEAD ciphers -/

def aeadCrypto (L : CryptoLib) : CryptoT AeadCtx CryptoState := ⟨aead_encrypt L, aead_decrypt L⟩

def openNet : NetLib := ⟨fun _ => none, fun _ => [], fun _ _ => none, none⟩

/-- What `tagLib` makes of the next chunk of a stream. -/
def tagChunk (payload : Bytes) : Bytes :=
  [0, UInt8.ofNat payload.length] ++ List.replicate 16 0 ++ (payload ++ List.replicate 16 0)

def tagConn : Conn AeadCtx CryptoState :=
  acceptedConn .start (fun _ => 0)
    (aead_ctx_init (aead_key_init .AES128GCM (List.replicate 16 1)) (some (List.replicate 16 4)))
    (aead_ctx_init (aead_key_init .AES128GCM (List.replicate 16 1)) none)

/-- The client asks for 127.0.0.1:80, and takes 20 bytes of the answer. -/
def answerStalls : List (RelayEvent CryptoState) := [
  .serverRecv (fun _ => 0) (.data (List.replicate 16 2 ++ tagChunk [1, 127, 0, 0, 1, 0, 80, 65])) .again .started,
  .remoteSend true (.sent 9),
  .remoteRecv (.data [7, 8, 9]) (.sent 20)]

/-- The client sends two bytes more, of which `remote` takes one, and takes the rest of the answer. -/
theorem relay_integrity_tagConn :
    ∃ c : Conn AeadCtx CryptoState, (c.toRemote = [65, 66] ∧ c.decrypted = [65, 66, 67] ∧ c.toClient.length = 53) ∧
      c.toRemote <+: c.decrypted ∧ c.toClient <+: c.encrypted ∧
      (∀ remote, c.remote = some remote → c.decrypted = c.toRemote ++ remote.unsent) ∧
      (∀ server, c.server = some server → c.encrypted = c.toClient ++ server.unsent) ∧
      (∀ server, c.server = some server → server.recv_io = true →
        c.toRemote = c.decrypted ∧ (server.stage ≠ .STREAM → c.toClient = c.encrypted)) ∧
      ∀ server remote, c.server = some server → c.remote = some remote → remote.recv_io = true →
        c.toClient = c.encrypted := by
  have hrun : (tagConn.run (aeadCrypto (tagLib fun _ _ => true)) openNet (fun _ _ c => !c.failed) (answerStalls ++ [
      .serverRecv (fun _ => 0) (.data (tagChunk [66, 67])) .again .fails,
      .remoteSend true (.sent 1),
      .serverSend (.sent 100)])).map (fun c => (c.toRemote, c.decrypted, c.toClient.length)) =
        some ([65, 66], [65, 66, 67], 53) := by
    decide +kernel
  obtain ⟨c, hc, hfacts⟩ := Option.map_eq_some_iff.1 hrun
  simp only [Prod.mk.injEq] at hfacts
  refine ⟨c, hfacts, relay_integrity (aeadCrypto (tagLib fun _ _ => true)) openNet ?_⟩
  refine (Conn.of_run ?_ hc).reach (.init ⟨⟨_, _, _, _, rfl⟩, rfl⟩)
  intro c e c' hstep hok
  exact ⟨hstep, by simpa using hok⟩

/-- A client that fails to decrypt while 33 bytes of the answer are unsent, and sends 30 bytes more, gets
ten of them back. -/
theorem stopped_not_inert :
    ∃ c, (relay (aeadCrypto (tagLib fun _ _ => true)) openNet).Reach c ∧ c.failed = true ∧ c.leaked = true ∧
      ¬ c.toClient <+: c.encrypted := by
  have hrun : (tagConn.run (aeadCrypto (tagLib fun _ _ => true)) openNet (fun _ _ _ => true) (answerStalls ++ [
      .serverRecv (fun _ => 0) (.data (List.replicate 40 9)) .again .fails,
      .serverRecv (fun _ => 0) (.data (List.replicate 30 5)) .again .fails,
      .serverSend (.sent 100)])).map (fun c => (c.failed, c.leaked, decide (c.toClient <+: c.encrypted))) =
        some (true, true, false) := by
    decide +kernel
  obtain ⟨c, hc, hfacts⟩ := Option.map_eq_some_iff.1 hrun
  simp only [Prod.mk.injEq, decide_eq_false_iff_not] at hfacts
  refine ⟨c, ?_, hfacts⟩
  refine (Conn.of_run ?_ hc).reach (.init ⟨_, _, _, _, rfl⟩)
  intro c e c' hstep _
  exact hstep

/-- With 20 bytes instead, which have been sent, it gets the rest of the answer. -/
theorem stopped_inert_short :
    ∃ c : Conn AeadCtx CryptoState, (c.failed = true ∧ c.toClient.length = 53) ∧
      c.leaked = false ∧ c.toClient <+: c.encrypted := by
  have hrun :
      (tagConn.run (aeadCrypto (tagLib fun _ _ => true)) openNet (fun c e _ => Undisturbed c e) (answerStalls ++
        [.serverRecv (fun _ => 0) (.data (List.replicate 40 9)) .again .fails,
          .serverRecv (fun _ => 0) (.data (List.replicate 20 5)) .again .fails,
          .serverSend (.sent 100)])).map (fun c => (c.failed, c.toClient.length)) = some (true, 53) := by
    decide +kernel
  obtain ⟨c, hc, hfacts⟩ := Option.map_eq_some_iff.1 hrun
  simp only [Prod.mk.injEq] at hfacts
  refine ⟨c, hfacts, stopped_inert (aeadCrypto (tagLib fun _ _ => true)) openNet ?_⟩
  refine (Conn.of_run ?_ hc).reach (.init ⟨_, _, _, _, rfl⟩)
  intro c e c' hstep hok
  exact ⟨by simpa using hok, hstep⟩

end OutlineServer
