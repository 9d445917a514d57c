import MarketFeed.Lemmas.ConnectionFlags

/-!
# What has been read when a connection ends

`network_loop` looks at the bits of a report in a fixed order, and `EPOLLRDHUP` ends the connection before `EPOLLIN` is looked at. What
arrived together with the FIN is then not read. A connection that is ended with nothing unread has been fed all that its peer sent.
-/

namespace MarketFeed

open ConnectionFlagsAux

/-- What is asked of the kernel: a report has no error bits, and `recv` does not fail. -/
def FeedHandler.WithoutErrors (_ : FeedHandler) : HandlerEvent → Prop
  | .network (.wait (.ready events)) => ∀ r ∈ events, ∀ flags, r = .socket flags → flags.hup = false ∧ flags.err = false
  | .network (.recv result) => result ≠ .failed
  | _ => True

instance : DecidablePred fun r : Ready => ∀ flags, r = .socket flags → flags.hup = false ∧ flags.err = false
  | .eventFd => isTrue nofun
  | .socket flags => decidable_of_iff (flags.hup = false ∧ flags.err = false)
    ⟨fun h _ he => Ready.socket.inj he ▸ h, fun h => h flags rfl⟩

instance (s : FeedHandler) : DecidablePred s.WithoutErrors := fun e => by
  unfold FeedHandler.WithoutErrors
  split <;> infer_instance

/-- The condition on the steps: a report with `EPOLLRDHUP` is looked at while nothing is unread, and the heartbeat timeout ends no
connection before the FIN has arrived and everything before it has been read. -/
def FeedHandler.NothingUnread (s : FeedHandler) : HandlerEvent → Prop
  | .network .step =>
    match s.network with
    | .events (.socket flags :: _) => flags.rdHup = true → s.socket.queue = []
    | _ => True
  | .network (.check true) => s.socket.fin = true ∧ s.socket.queue = []
  | _ => True

instance (s : FeedHandler) : DecidablePred s.NothingUnread := fun e => by
  unfold FeedHandler.NothingUnread
  split
  · split <;> infer_instance
  · infer_instance
  · infer_instance

namespace PeerCloseAux

/-- No event of the socket is left. -/
def NoSocket (rest : List Ready) : Prop := rest.countP Ready.isSocket = 0

/-- There is at most one event of the socket, and it is about a connection that is open. -/
def RestOk (s : FeedHandler) (rest : List Ready) : Prop :=
  rest.countP Ready.isSocket ≤ 1 ∧ ∀ flags, Ready.socket flags ∈ rest →
    s.socket.isOpen = true ∧ (flags.rdHup = true → s.socket.fin = true) ∧ flags.hup = false ∧ flags.err = false

/-- No event of the socket is left behind the call. -/
def ResumeOk : Resume → Prop
  | .head => True
  | .events rest => NoSocket rest

/-- All that the peer has sent has been read. -/
def AllRead (s : FeedHandler) : Prop := s.socket.fin = true ∧ s.socket.queue = []

/-- The socket at each point of the network thread. -/
def SocketOk (s : FeedHandler) : NetworkPoint → Prop
  | .connect k | .connectFailed k => s.socket.isOpen = false ∧ ResumeOk k
  | .storeConnected k | .resetPolicy k => s.socket.isOpen = true ∧ ResumeOk k
  | .head | .epollWait | .loadConnected | .checkTimeout => s.socket.isOpen = s.connected
  | .events rest | .exchangePending rest => s.socket.isOpen = s.connected ∧ RestOk s rest
  | .drain rest => s.socket.isOpen = s.connected ∧ NoSocket rest
  | .exchangeConnected k => s.socket.isOpen = s.connected ∧ ResumeOk k ∧ (s.connected = true → AllRead s)
  | .closeSocket k => ResumeOk k ∧ AllRead s ∧ s.socket.isOpen = true
  | .loadRunning k | .storePending k | .signal k => s.socket.isOpen = false ∧ ResumeOk k
  | .finished => True

/-- The invariant: the bytes of the connection are fed, or unread; and what was ended had been fed all there was. -/
structure StreamOk (s : FeedHandler) : Prop where
  flags : FlagsOk s s.network
  socket : SocketOk s s.network
  stream : s.socket.fed ++ s.socket.queue = s.socket.sent
  ended : ∀ d ∈ s.ended, d.fin = true ∧ d.fed = d.sent

theorem StreamOk.init : StreamOk FeedHandler.init :=
  ⟨flagsOk_init, ⟨rfl, trivial⟩, rfl, fun _ hd => absurd hd List.not_mem_nil⟩

theorem noSocket_restOk {s : FeedHandler} {rest : List Ready} (h : NoSocket rest) : RestOk s rest := by
  refine ⟨by rw [h]; exact Nat.zero_le 1, fun flags hmem => ?_⟩
  exact absurd rfl (List.countP_eq_zero.mp h _ hmem)

theorem socketOk_point {s : FeedHandler} (hopen : s.socket.isOpen = s.connected) {k : Resume} (hk : ResumeOk k) :
    SocketOk s k.point := by
  cases k with
  | head => exact hopen
  | events rest => exact ⟨hopen, noSocket_restOk hk⟩

/-- What is left when the first event has been looked at. -/
theorem restOk_cons {s : FeedHandler} {r : Ready} {rest : List Ready} (h : RestOk s (r :: rest)) :
    RestOk s rest ∧ (r.isSocket = true → NoSocket rest) := by
  obtain ⟨hcount, hsocket⟩ := h
  rw [List.countP_cons] at hcount
  refine ⟨⟨by omega, fun flags hmem => hsocket flags (List.mem_cons_of_mem r hmem)⟩, fun hr => ?_⟩
  rw [if_pos hr] at hcount
  unfold NoSocket
  omega

/-- Without a connection no event of the socket is left. -/
theorem noSocket_of_closed {s : FeedHandler} {rest : List Ready} (h : RestOk s rest) (hclosed : s.socket.isOpen = false) :
    NoSocket rest := by
  refine List.countP_eq_zero.mpr fun r hr hsocket => ?_
  cases r with
  | eventFd => cases hsocket
  | socket flags =>
    have hopen := (h.2 flags hr).1
    rw [hclosed] at hopen
    cases hopen

/-! ## The other threads and the peer -/

/-- A step that leaves the socket and what is the network thread's. -/
theorem StreamOk.leave {s t : FeedHandler} (h : StreamOk s) (hl : LeavesNetwork s t) (hsocket : t.socket = s.socket) :
    StreamOk t := by
  refine ⟨?_, ?_, by rw [hsocket]; exact h.stream, by rw [hl.ended]; exact h.ended⟩
  · rw [hl.network]
    exact h.flags.leave hl
  · have hs := h.socket
    rw [hl.network]
    cases hp : s.network <;> rw [hp] at hs <;> simp only [SocketOk, RestOk, AllRead, hsocket, hl.connected] at hs ⊢ <;> exact hs

/-- What arrives is unread, and nothing arrives for a connection that is being ended. -/
theorem StreamOk.peer {s t : FeedHandler} {e : PeerEvent} (h : StreamOk s) (hs : s.peerStep e = some t) : StreamOk t := by
  have hl := peerStep_leaves hs
  obtain ⟨hopen, hfin, hcases⟩ := peerStep_cases hs
  have hopen' : t.socket.isOpen = s.socket.isOpen := by
    rcases hcases with ⟨bytes, rfl⟩ | rfl <;> rfl
  have hstream : t.socket.fed ++ t.socket.queue = t.socket.sent := by
    rcases hcases with ⟨bytes, rfl⟩ | rfl
    · show s.socket.fed ++ (s.socket.queue ++ bytes) = s.socket.sent ++ bytes
      rw [← List.append_assoc, h.stream]
    · exact h.stream
  have hunread : ¬AllRead s := by simp [AllRead, hfin]
  have hrest : ∀ rest, RestOk s rest → RestOk t rest := by
    intro rest hr
    refine ⟨hr.1, fun flags hmem => ?_⟩
    obtain ⟨-, hrd, herr⟩ := hr.2 flags hmem
    refine ⟨hopen'.trans hopen, fun hf => ?_, herr⟩
    have hfin' := hrd hf
    rw [hfin] at hfin'
    cases hfin'
  refine ⟨?_, ?_, hstream, by rw [hl.ended]; exact h.ended⟩
  · rw [hl.network]
    exact h.flags.leave hl
  · have hs := h.socket
    rw [hl.network]
    cases hp : s.network <;> rw [hp] at hs <;> simp only [SocketOk, hopen', hl.connected] at hs ⊢
    case events rest => exact ⟨hs.1, hrest rest hs.2⟩
    case exchangePending rest => exact ⟨hs.1, hrest rest hs.2⟩
    case exchangeConnected k => exact absurd (hs.2.2 (hs.1.symm.trans hopen)) hunread
    case closeSocket k => exact absurd hs.2.1 hunread
    all_goals exact hs

/-! ## The network thread -/

/-- Every step of the network thread keeps the invariant. -/
theorem StreamOk.network {s t : FeedHandler} {e : NetworkEvent} (h : StreamOk s) (hkernel : s.WithoutErrors (.network e))
    (hok : s.NothingUnread (.network e)) (hs : s.networkStep e = some t) : StreamOk t := by
  have hflags := h.flags.network hs
  have hmove := FeedHandler.networkStep_moves hs
  have hf := h.flags
  have hsock := h.socket
  generalize hp : s.network = p at hf hsock hmove
  cases hmove with
  | connected k => exact ⟨hflags, ⟨rfl, hsock.2⟩, rfl, h.ended⟩
  | notConnected k => exact ⟨hflags, ⟨rfl, hsock.2⟩, rfl, h.ended⟩
  | resetPolicy k => exact ⟨hflags, socketOk_point (hsock.1.trans hf.1.symm) hsock.2, h.stream, h.ended⟩
  | connectFailed k => exact ⟨hflags, socketOk_point (hsock.1.trans hf.1.symm) hsock.2, h.stream, h.ended⟩
  | leaveLoop hr => exact ⟨hflags, trivial, h.stream, h.ended⟩
  | ready events hlength hcount hreports =>
    refine ⟨hflags, ⟨hsock, hcount, fun flags hmem => ?_⟩, h.stream, h.ended⟩
    obtain ⟨hopen, -, hrd, -⟩ := hreports _ hmem
    exact ⟨hopen, fun hrd' => hrd.symm.trans hrd', hkernel _ hmem flags rfl⟩
  | failed => exact ⟨hflags, trivial, h.stream, h.ended⟩
  | batchDone => exact ⟨hflags, hsock.1, h.stream, h.ended⟩
  | eventFd rest => exact ⟨hflags, ⟨hsock.1, (restOk_cons hsock.2).1⟩, h.stream, h.ended⟩
  | hangUp flags rest hbits =>
    obtain ⟨-, hfin, hhup, herr⟩ := hsock.2.2 flags List.mem_cons_self
    have hrd : flags.rdHup = true := by simpa [hhup, herr] using hbits
    have hqueue : s.socket.queue = [] := by
      simp only [FeedHandler.NothingUnread, hp] at hok
      exact hok hrd
    exact ⟨hflags, ⟨hsock.1, (restOk_cons hsock.2).2 rfl, fun _ => ⟨hfin hrd, hqueue⟩⟩, h.stream, h.ended⟩
  | readable flags rest hbits hin => exact ⟨hflags, ⟨hsock.1, (restOk_cons hsock.2).2 rfl⟩, h.stream, h.ended⟩
  | noBits flags rest hbits hin => exact ⟨hflags, ⟨hsock.1, (restOk_cons hsock.2).1⟩, h.stream, h.ended⟩
  | takePending rest hpending =>
    -- a reconnect is pending, so there is no connection that the rest of the batch could be about
    have hclosed : s.socket.isOpen = false := by
      rw [hsock.1]
      by_contra hc
      rw [hf.1 (by simpa using hc)] at hpending
      cases hpending
    exact ⟨hflags, ⟨hclosed, noSocket_of_closed hsock.2 hclosed⟩, h.stream, h.ended⟩
  | received rest n hmay =>
    refine ⟨hflags, ?_, ?_, h.ended⟩
    · show SocketOk _ s.network
      rw [hp]
      exact hsock
    · show s.socket.fed ++ s.socket.queue.take n ++ s.socket.queue.drop n = s.socket.sent
      rw [List.append_assoc, List.take_append_drop]
      exact h.stream
  | peerClosed rest hmay => exact ⟨hflags, ⟨hsock.1, hsock.2, fun _ => ⟨hmay.2.2, hmay.2.1⟩⟩, h.stream, h.ended⟩
  | drained rest hmay => exact ⟨hflags, ⟨hsock.1, noSocket_restOk hsock.2⟩, h.stream, h.ended⟩
  | tryAgain rest hmay => exact h
  | recvError rest => exact absurd rfl hkernel
  | disconnect k hc => exact ⟨hflags, ⟨hsock.2.1, hsock.2.2 hc, hsock.1.trans hc⟩, h.stream, h.ended⟩
  | alreadyDisconnected k hc => exact ⟨hflags, socketOk_point hsock.1 hsock.2.1, h.stream, h.ended⟩
  | closeSocket k =>
    obtain ⟨hk, ⟨hfin, hqueue⟩, -⟩ := hsock
    refine ⟨hflags, ⟨rfl, hk⟩, rfl, fun d hd => ?_⟩
    rcases List.mem_append.mp hd with hd | hd
    · exact h.ended d hd
    · have hstream := h.stream
      rw [hqueue, List.append_nil] at hstream
      rw [List.mem_singleton.mp hd]
      exact ⟨hfin, hstream⟩
  | stopped k hr => exact ⟨hflags, socketOk_point (hsock.1.trans hf.1.symm) hsock.2, h.stream, h.ended⟩
  | signal k => exact ⟨hflags, socketOk_point (hsock.1.trans hf.1.symm) hsock.2, h.stream, h.ended⟩
  | timeout => exact ⟨hflags, ⟨hsock, trivial, fun _ => hok⟩, h.stream, h.ended⟩
  -- the other steps leave the socket as it is
  | _ => exact ⟨hflags, hsock, h.stream, h.ended⟩

/-- Every step that meets the conditions keeps the invariant. -/
theorem StreamOk.step {s t : FeedHandler} {e : HandlerEvent} (h : StreamOk s) (hok : s.WithoutErrors e ∧ s.NothingUnread e)
    (hs : s.step e = some t) : StreamOk t := by
  cases e with
  | network e => exact h.network hok.1 hok.2 hs
  | reconnect e =>
    obtain ⟨hl, hsocket⟩ := reconnectStep_leaves hs
    exact h.leave hl hsocket
  | stop =>
    cases hs
    obtain ⟨hl, hsocket⟩ := stopStep_leaves s
    exact h.leave hl hsocket
  | peer e => exact h.peer hs

end PeerCloseAux

open PeerCloseAux

/-- In every run in which the kernel reports no errors, no `EPOLLRDHUP` is looked at while bytes are unread, and no heartbeat timeout
expires before everything up to the FIN has been read: each connection that `on_disconnect` has ended has been fed exactly what its
peer sent before its FIN. -/
theorem ended_of_nothingUnread (es : List HandlerEvent) (s : FeedHandler)
    (hkernel : Run.Along FeedHandler.step FeedHandler.WithoutErrors FeedHandler.init es)
    (hok : Run.Along FeedHandler.step FeedHandler.NothingUnread FeedHandler.init es)
    (h : Run.exec FeedHandler.step FeedHandler.init es = some s) : ∀ d ∈ s.ended, d.fin = true ∧ d.fed = d.sent := by
  have hinv : StreamOk s :=
    Run.exec_invariant_along (fun _ _ _ hi hstep hs => hi.step hstep hs) StreamOk.init (hkernel.and hok) h
  exact hinv.ended

namespace PeerCloseAux

/-- The handler connects and goes to wait. -/
def connectSteps : List HandlerEvent :=
  [.network (.connect true), .network .step, .network .step, .network .step]

/-- Bytes arrive, are reported and are being read when the rest and the FIN arrive; `recv` goes on to the end. -/
def drainedRun : List HandlerEvent :=
  List.flatten [connectSteps, [.peer (.arrive [1, 2, 3]), .network (.wait (.ready [.socket ⟨true, false, false, false⟩])),
    .network .step, .network (.recv (.bytes 2)), .peer (.arrive [4]), .peer .fin, .network (.recv (.bytes 2)),
    .network (.recv .eof), .network .step, .network .step]]

/-- Bytes and the FIN arrive before `epoll_wait` returns. -/
def lastBytesRun : List HandlerEvent :=
  List.flatten [connectSteps, [.peer (.arrive [1, 2, 3]), .peer .fin,
    .network (.wait (.ready [.socket ⟨true, true, false, false⟩])), .network .step, .network .step, .network .step]]

end PeerCloseAux

/-- The run `drainedRun` meets the hypotheses of `ended_of_nothingUnread`. -/
theorem ended_of_nothingUnread_drainedRun :
    ∃ s, Run.exec FeedHandler.step FeedHandler.init drainedRun = some s ∧ s.ended = [⟨[1, 2, 3, 4], [1, 2, 3, 4], true⟩] ∧
      ∀ d ∈ s.ended, d.fin = true ∧ d.fed = d.sent := by
  have hrun : ∃ s, Run.exec FeedHandler.step FeedHandler.init drainedRun = some s ∧
      s.ended = [⟨[1, 2, 3, 4], [1, 2, 3, 4], true⟩] := by decide +kernel
  obtain ⟨s, hrun, hended⟩ := hrun
  exact ⟨s, hrun, hended, ended_of_nothingUnread drainedRun s (by decide +kernel) (by decide +kernel) hrun⟩

/-- In the run `lastBytesRun`, in which the kernel reports no errors, the connection is ended and nothing has been fed. -/
theorem last_bytes_lost :
    Run.Along FeedHandler.step FeedHandler.WithoutErrors FeedHandler.init lastBytesRun ∧
      ∃ s, Run.exec FeedHandler.step FeedHandler.init lastBytesRun = some s ∧ s.ended = [⟨[1, 2, 3], [], true⟩] ∧
        ¬∀ d ∈ s.ended, d.fed = d.sent := by decide +kernel

end MarketFeed
