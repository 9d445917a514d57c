import MarketFeed.Lib.Run

/-!
# The connection of the feed handler

`network_loop`, `reconnect_loop` and `stop` of `src/client/feed_handler.cpp`, with `do_connect` and `on_disconnect`, cut into the
steps that touch what the threads share: the three flags, the eventfd, the policy and the socket. A run is any interleaving of the
three threads and of what arrives at the socket.

What the kernel does is in the events: whether a `connect` succeeds, what `epoll_wait` reports and what `recv` returns. Of a report it
is asked that it tells the pending conditions of the socket as they are, with each descriptor at most once; of `recv`, that it returns
queued bytes, 0 after a FIN, or `EAGAIN`; errors may come at any time. Whether the heartbeat timeout has expired is in the events
too; what the check compares is in `HeartbeatSys`. The parser only sees the bytes it is fed. Statistics, log lines and the
subscription that `do_connect` sends are left out.
-/

namespace MarketFeed

/-! ## The policy -/

/-- `ReconnectPolicy`. -/
structure ReconnectPolicy where
  attempt : Nat
  deriving DecidableEq, Repr

namespace ReconnectPolicy

/-- `BASE_MS`. -/
def baseMs : Nat := 100

/-- `MAX_MS`. -/
def maxMs : Nat := 30000

/-- `MAX_ATTEMPT`. -/
def maxAttempt : Nat := 20

/-- `reset`. -/
def reset (_ : ReconnectPolicy) : ReconnectPolicy := ⟨0⟩

/-- `give_up`. -/
def giveUp (p : ReconnectPolicy) : Bool := p.attempt ≥ maxAttempt

/-- `next_delay_ms`, where `rand` returns the number given. -/
def nextDelayMs (p : ReconnectPolicy) (rand : Nat) : ReconnectPolicy × Nat :=
  let shift := if p.attempt < 8 then p.attempt else 8
  let delay := min (baseMs * 2 ^ shift) maxMs
  (⟨p.attempt + 1⟩, delay + rand % 100)

end ReconnectPolicy

/-! ## The socket -/

/-- The socket of the connection: what the peer has sent and has arrived, what of it has not been read, whether its FIN has arrived,
whether bytes have arrived since the last report, and, for the record, what has been passed to `feed`. -/
structure Socket where
  isOpen : Bool
  sent : List UInt8
  queue : List UInt8
  fin : Bool
  fresh : Bool
  fed : List UInt8
  deriving DecidableEq, Repr

namespace Socket

/-- No connection: the descriptor is -1. -/
def closed : Socket := { isOpen := false, sent := [], queue := [], fin := false, fresh := false, fed := [] }

/-- A new connection. -/
def opened : Socket := { closed with isOpen := true }

end Socket

/-- The bits of a report about the socket. -/
structure EpollFlags where
  epollIn : Bool
  rdHup : Bool
  hup : Bool
  err : Bool
  deriving DecidableEq, Repr

/-- An entry of `events`. -/
inductive Ready where
  | eventFd
  | socket (flags : EpollFlags)
  deriving DecidableEq, Repr

def Ready.isSocket : Ready → Bool
  | .eventFd => false
  | .socket _ => true

/-- What `epoll_wait` returns. -/
inductive WaitResult where
  | ready (events : List Ready)
  | interrupted
  | failed
  deriving DecidableEq, Repr

/-- What `recv` returns. -/
inductive RecvResult where
  | bytes (n : Nat)
  | eof
  | again
  | interrupted
  | failed
  deriving DecidableEq, Repr

/-- `RECV_CHUNK`. -/
def recvChunk : Nat := 65536

/-- `MAX_EVENTS`. -/
def maxEvents : Nat := 16

/-! ## The threads -/

/-- Where `do_connect` and `on_disconnect` return to: the head of the loop, or the rest of the batch of events. -/
inductive Resume where
  | head
  | events (rest : List Ready)
  deriving DecidableEq, Repr

/-- Where the network thread is, by what it does next. -/
inductive NetworkPoint where
  | connect (k : Resume)
  | storeConnected (k : Resume)
  | resetPolicy (k : Resume)
  | connectFailed (k : Resume)
  | head
  | epollWait
  | events (rest : List Ready)
  | exchangePending (rest : List Ready)
  | drain (rest : List Ready)
  | exchangeConnected (k : Resume)
  | closeSocket (k : Resume)
  | loadRunning (k : Resume)
  | storePending (k : Resume)
  | signal (k : Resume)
  | loadConnected
  | checkTimeout
  | finished
  deriving DecidableEq, Repr

def Resume.point : Resume → NetworkPoint
  | .head => .head
  | .events rest => .events rest

/-- Where the reconnect thread is, by what it does next. -/
inductive ReconnectPoint where
  | head
  | loadPending
  | testGiveUp
  | givingUp
  | nextDelay
  | sleeping (delayMs : Nat)
  | signal
  | finished
  deriving DecidableEq, Repr

/-- Where the thread that calls `stop` is. -/
inductive StopPoint where
  | idle
  | signal
  deriving DecidableEq, Repr

/-- A connection that `on_disconnect` has ended: what the peer had sent, what had been fed, and whether the FIN had arrived. -/
structure Ended where
  sent : List UInt8
  fed : List UInt8
  fin : Bool
  deriving DecidableEq, Repr

/-- The `FeedHandler`: its flags, the counter of the eventfd, the policy, the socket and the threads; and for the record, how many
calls of `do_connect` have failed since the last one that succeeded, this number at each give-up of `reconnect_loop`, and the
connections ended. -/
structure FeedHandler where
  running : Bool
  connected : Bool
  reconnectPending : Bool
  eventCount : Nat
  policy : ReconnectPolicy
  socket : Socket
  network : NetworkPoint
  reconnect : ReconnectPoint
  stopper : StopPoint
  failures : Nat
  giveUps : List Nat
  ended : List Ended
  deriving DecidableEq, Repr

/-- The steps of the network thread; `step` is any that does not depend on the kernel or the clock. -/
inductive NetworkEvent where
  | step
  | connect (ok : Bool)
  | wait (result : WaitResult)
  | recv (result : RecvResult)
  | check (expired : Bool)
  deriving DecidableEq, Repr

/-- The steps of the reconnect thread. -/
inductive ReconnectEvent where
  | step
  | delay (rand : Nat)
  deriving DecidableEq, Repr

/-- What happens to the socket. -/
inductive PeerEvent where
  | arrive (bytes : List UInt8)
  | fin
  deriving DecidableEq, Repr

/-- A step. -/
inductive HandlerEvent where
  | network (e : NetworkEvent)
  | reconnect (e : ReconnectEvent)
  | stop
  | peer (e : PeerEvent)
  deriving DecidableEq, Repr

namespace FeedHandler

/-- When `start` has started the threads. -/
def init : FeedHandler :=
  { running := true
    connected := false
    reconnectPending := false
    eventCount := 0
    policy := ⟨0⟩
    socket := .closed
    network := .connect .head
    reconnect := .head
    stopper := .idle
    failures := 0
    giveUps := []
    ended := [] }

/-- `efd_write`. -/
def efdWrite (s : FeedHandler) : FeedHandler := { s with eventCount := s.eventCount + 1 }

/-! ### The network thread -/

/-- `do_connect`, the outcome of `connect`. The socket it had before is destroyed. -/
def connectReturns (s : FeedHandler) (k : Resume) : Bool → FeedHandler
  | true => { s with socket := .opened, failures := 0, network := .storeConnected k }
  | false => { s with socket := .closed, failures := s.failures + 1, network := .connectFailed k }

/-- What a report may say: that the eventfd is readable, and of the socket, whether unread bytes have arrived since the last report
and whether the FIN has. -/
def Reports (s : FeedHandler) : Ready → Prop
  | .eventFd => 0 < s.eventCount
  | .socket flags => s.socket.isOpen = true ∧ flags.epollIn = (s.socket.fresh && !s.socket.queue.isEmpty) ∧
    flags.rdHup = s.socket.fin ∧ (flags.epollIn || flags.rdHup || flags.hup || flags.err) = true

instance (s : FeedHandler) : DecidablePred s.Reports
  | .eventFd => inferInstanceAs (Decidable (_ < _))
  | .socket _ => inferInstanceAs (Decidable (_ ∧ _ ∧ _ ∧ _))

/-- `epoll_wait` returns. A report uses up the edge. -/
def waitReturns (s : FeedHandler) : WaitResult → Option FeedHandler
  | .ready events =>
    if events.length ≤ maxEvents ∧ events.countP Ready.isSocket ≤ 1 ∧ ∀ r ∈ events, s.Reports r then
      let fresh := s.socket.fresh && !events.any Ready.isSocket
      some { s with socket := { s.socket with fresh := fresh }, network := .events events }
    else none
  | .interrupted => some { s with network := .head }
  | .failed => some { s with network := .finished }

/-- What `recv` may return. -/
def MayReceive (s : FeedHandler) : RecvResult → Prop
  | .bytes n => s.socket.isOpen = true ∧ 0 < n ∧ n ≤ s.socket.queue.length ∧ n ≤ recvChunk
  | .eof => s.socket.isOpen = true ∧ s.socket.queue = [] ∧ s.socket.fin = true
  | .again => s.socket.isOpen = true ∧ s.socket.queue = [] ∧ s.socket.fin = false
  | .interrupted => s.socket.isOpen = true
  | .failed => True

instance (s : FeedHandler) : DecidablePred s.MayReceive
  | .bytes _ => inferInstanceAs (Decidable (_ ∧ _ ∧ _ ∧ _))
  | .eof => inferInstanceAs (Decidable (_ ∧ _ ∧ _))
  | .again => inferInstanceAs (Decidable (_ ∧ _ ∧ _))
  | .interrupted => inferInstanceAs (Decidable (_ = _))
  | .failed => isTrue trivial

/-- The drain loop: `recv` returns, and what it has read is passed to `feed`. -/
def recvReturns (s : FeedHandler) (rest : List Ready) : RecvResult → FeedHandler
  | .bytes n =>
    { s with socket := { s.socket with queue := s.socket.queue.drop n, fed := s.socket.fed ++ s.socket.queue.take n } }
  | .eof => { s with network := .exchangeConnected (.events rest) }
  | .again => { s with network := .events rest }
  | .interrupted => s
  | .failed => { s with network := .exchangeConnected (.events rest) }

/-- The next entry of `events`. -/
def nextEvent (s : FeedHandler) : List Ready → FeedHandler
  | [] => { s with network := .loadConnected }
  | .eventFd :: rest => { s with eventCount := 0, network := .exchangePending rest }
  | .socket flags :: rest =>
    if flags.err || flags.hup || flags.rdHup then { s with network := .exchangeConnected (.events rest) }
    else if flags.epollIn then { s with network := .drain rest }
    else { s with network := .events rest }

/-- A step of the network thread that does not depend on the kernel or the clock. -/
def networkGoes (s : FeedHandler) : NetworkPoint → Option FeedHandler
  | .storeConnected k => some { s with connected := true, network := .resetPolicy k }
  | .resetPolicy k => some { s with policy := s.policy.reset, network := k.point }
  | .connectFailed k => some { s with reconnectPending := true, network := k.point }
  | .head => some { s with network := if s.running then .epollWait else .finished }
  | .events rest => some (s.nextEvent rest)
  | .exchangePending rest =>
    if s.reconnectPending then some { s with reconnectPending := false, network := .connect (.events rest) }
    else some { s with network := .events rest }
  | .exchangeConnected k =>
    if s.connected then some { s with connected := false, network := .closeSocket k }
    else some { s with network := k.point }
  | .closeSocket k =>
    some { s with
      ended := s.ended ++ [⟨s.socket.sent, s.socket.fed, s.socket.fin⟩]
      socket := .closed
      network := .loadRunning k }
  | .loadRunning k => some { s with network := if s.running then .storePending k else k.point }
  | .storePending k => some { s with reconnectPending := true, network := .signal k }
  | .signal k => some { s.efdWrite with network := k.point }
  | .loadConnected => some { s with network := if s.connected then .checkTimeout else .head }
  | _ => none

/-- A step of the network thread. -/
def networkStep (s : FeedHandler) : NetworkEvent → Option FeedHandler
  | .step => s.networkGoes s.network
  | .connect ok =>
    match s.network with
    | .connect k => some (s.connectReturns k ok)
    | _ => none
  | .wait result =>
    match s.network with
    | .epollWait => s.waitReturns result
    | _ => none
  | .recv result =>
    match s.network with
    | .drain rest => if s.MayReceive result then some (s.recvReturns rest result) else none
    | _ => none
  | .check expired =>
    match s.network with
    | .checkTimeout => some { s with network := if expired then .exchangeConnected .head else .head }
    | _ => none

/-! ### The other threads -/

/-- A step of the reconnect thread. -/
def reconnectStep (s : FeedHandler) : ReconnectEvent → Option FeedHandler
  | .step =>
    match s.reconnect with
    | .head => some { s with reconnect := if s.running then .loadPending else .finished }
    | .loadPending => some { s with reconnect := if s.reconnectPending then .testGiveUp else .head }
    | .testGiveUp => some { s with reconnect := if s.policy.giveUp then .givingUp else .nextDelay }
    | .givingUp => some { s with running := false, giveUps := s.giveUps ++ [s.failures], reconnect := .finished }
    | .sleeping _ => some { s with reconnect := if s.running then .signal else .finished }
    | .signal => some { s.efdWrite with reconnect := .head }
    | .nextDelay => none
    | .finished => none
  | .delay rand =>
    match s.reconnect with
    | .nextDelay =>
      let (policy, delayMs) := s.policy.nextDelayMs rand
      some { s with policy := policy, reconnect := .sleeping delayMs }
    | _ => none

/-- A step of `stop`, which may be called more than once. -/
def stopStep (s : FeedHandler) : FeedHandler :=
  match s.stopper with
  | .idle => { s with running := false, stopper := .signal }
  | .signal => { s.efdWrite with stopper := .idle }

/-- Bytes or the FIN of the peer arrive. Nothing arrives behind the FIN. -/
def peerStep (s : FeedHandler) (e : PeerEvent) : Option FeedHandler :=
  if s.socket.isOpen = true ∧ s.socket.fin = false then
    match e with
    | .arrive bytes =>
      if bytes = [] then none
      else
        some { s with
          socket := { s.socket with sent := s.socket.sent ++ bytes, queue := s.socket.queue ++ bytes, fresh := true } }
    | .fin => some { s with socket := { s.socket with fin := true } }
  else none

/-- A step of one of the threads, or of the peer. -/
def step (s : FeedHandler) : HandlerEvent → Option FeedHandler
  | .network e => s.networkStep e
  | .reconnect e => s.reconnectStep e
  | .stop => some s.stopStep
  | .peer e => s.peerStep e

/-! ### What a step of the network thread does -/

/-- From the point `p` of the network thread, the event leads to the state `t`. -/
inductive NetworkMoves (s : FeedHandler) : NetworkPoint → NetworkEvent → FeedHandler → Prop where
  | connected (k : Resume) :
    NetworkMoves s (.connect k) (.connect true) { s with socket := .opened, failures := 0, network := .storeConnected k }
  | notConnected (k : Resume) :
    NetworkMoves s (.connect k) (.connect false)
      { s with socket := .closed, failures := s.failures + 1, network := .connectFailed k }
  | storeConnected (k : Resume) : NetworkMoves s (.storeConnected k) .step { s with connected := true, network := .resetPolicy k }
  | resetPolicy (k : Resume) : NetworkMoves s (.resetPolicy k) .step { s with policy := s.policy.reset, network := k.point }
  | connectFailed (k : Resume) : NetworkMoves s (.connectFailed k) .step { s with reconnectPending := true, network := k.point }
  | goOn (hr : s.running = true) : NetworkMoves s .head .step { s with network := .epollWait }
  | leaveLoop (hr : s.running = false) : NetworkMoves s .head .step { s with network := .finished }
  | ready (events : List Ready) (hlength : events.length ≤ maxEvents) (hcount : events.countP Ready.isSocket ≤ 1)
      (hreports : ∀ r ∈ events, s.Reports r) :
    NetworkMoves s .epollWait (.wait (.ready events)) { s with
      socket := { s.socket with fresh := s.socket.fresh && !events.any Ready.isSocket }
      network := .events events }
  | interrupted : NetworkMoves s .epollWait (.wait .interrupted) { s with network := .head }
  | failed : NetworkMoves s .epollWait (.wait .failed) { s with network := .finished }
  | batchDone : NetworkMoves s (.events []) .step { s with network := .loadConnected }
  | eventFd (rest : List Ready) :
    NetworkMoves s (.events (.eventFd :: rest)) .step { s with eventCount := 0, network := .exchangePending rest }
  | hangUp (flags : EpollFlags) (rest : List Ready) (hbits : (flags.err || flags.hup || flags.rdHup) = true) :
    NetworkMoves s (.events (.socket flags :: rest)) .step { s with network := .exchangeConnected (.events rest) }
  | readable (flags : EpollFlags) (rest : List Ready) (hbits : (flags.err || flags.hup || flags.rdHup) = false)
      (hin : flags.epollIn = true) : NetworkMoves s (.events (.socket flags :: rest)) .step { s with network := .drain rest }
  | noBits (flags : EpollFlags) (rest : List Ready) (hbits : (flags.err || flags.hup || flags.rdHup) = false)
      (hin : flags.epollIn = false) : NetworkMoves s (.events (.socket flags :: rest)) .step { s with network := .events rest }
  | takePending (rest : List Ready) (hpending : s.reconnectPending = true) :
    NetworkMoves s (.exchangePending rest) .step { s with reconnectPending := false, network := .connect (.events rest) }
  | nonePending (rest : List Ready) (hpending : s.reconnectPending = false) :
    NetworkMoves s (.exchangePending rest) .step { s with network := .events rest }
  | received (rest : List Ready) (n : Nat) (hmay : s.MayReceive (.bytes n)) :
    NetworkMoves s (.drain rest) (.recv (.bytes n))
      { s with socket := { s.socket with queue := s.socket.queue.drop n, fed := s.socket.fed ++ s.socket.queue.take n } }
  | peerClosed (rest : List Ready) (hmay : s.MayReceive .eof) :
    NetworkMoves s (.drain rest) (.recv .eof) { s with network := .exchangeConnected (.events rest) }
  | drained (rest : List Ready) (hmay : s.MayReceive .again) :
    NetworkMoves s (.drain rest) (.recv .again) { s with network := .events rest }
  | tryAgain (rest : List Ready) (hmay : s.MayReceive .interrupted) : NetworkMoves s (.drain rest) (.recv .interrupted) s
  | recvError (rest : List Ready) :
    NetworkMoves s (.drain rest) (.recv .failed) { s with network := .exchangeConnected (.events rest) }
  | disconnect (k : Resume) (hc : s.connected = true) :
    NetworkMoves s (.exchangeConnected k) .step { s with connected := false, network := .closeSocket k }
  | alreadyDisconnected (k : Resume) (hc : s.connected = false) :
    NetworkMoves s (.exchangeConnected k) .step { s with network := k.point }
  | closeSocket (k : Resume) :
    NetworkMoves s (.closeSocket k) .step { s with
      ended := s.ended ++ [⟨s.socket.sent, s.socket.fed, s.socket.fin⟩]
      socket := .closed
      network := .loadRunning k }
  | askReconnect (k : Resume) (hr : s.running = true) : NetworkMoves s (.loadRunning k) .step { s with network := .storePending k }
  | stopped (k : Resume) (hr : s.running = false) : NetworkMoves s (.loadRunning k) .step { s with network := k.point }
  | storePending (k : Resume) : NetworkMoves s (.storePending k) .step { s with reconnectPending := true, network := .signal k }
  | signal (k : Resume) : NetworkMoves s (.signal k) .step { s.efdWrite with network := k.point }
  | watch (hc : s.connected = true) : NetworkMoves s .loadConnected .step { s with network := .checkTimeout }
  | noWatch (hc : s.connected = false) : NetworkMoves s .loadConnected .step { s with network := .head }
  | timeout : NetworkMoves s .checkTimeout (.check true) { s with network := .exchangeConnected .head }
  | inTime : NetworkMoves s .checkTimeout (.check false) { s with network := .head }

theorem nextEvent_moves (s : FeedHandler) (events : List Ready) : NetworkMoves s (.events events) .step (s.nextEvent events) := by
  cases events with
  | nil => exact .batchDone
  | cons r rest =>
    cases r with
    | eventFd => exact .eventFd rest
    | socket flags =>
      simp only [nextEvent]
      split_ifs with hbits hin
      · exact .hangUp flags rest hbits
      · exact .readable flags rest (by simpa using hbits) hin
      · exact .noBits flags rest (by simpa using hbits) (by simpa using hin)

theorem networkGoes_moves {s t : FeedHandler} {p : NetworkPoint} (hs : s.networkGoes p = some t) : NetworkMoves s p .step t := by
  cases p <;> simp only [networkGoes, reduceCtorEq] at hs
  case storeConnected k =>
    cases hs
    exact .storeConnected k
  case resetPolicy k =>
    cases hs
    exact .resetPolicy k
  case connectFailed k =>
    cases hs
    exact .connectFailed k
  case head =>
    cases hs
    split <;> rename_i hr
    · exact .goOn hr
    · exact .leaveLoop (by simpa using hr)
  case events events =>
    cases hs
    exact nextEvent_moves s events
  case exchangePending rest =>
    split at hs <;> rename_i hpending <;> cases hs
    · exact .takePending rest hpending
    · exact .nonePending rest (by simpa using hpending)
  case exchangeConnected k =>
    split at hs <;> rename_i hc <;> cases hs
    · exact .disconnect k hc
    · exact .alreadyDisconnected k (by simpa using hc)
  case closeSocket k =>
    cases hs
    exact .closeSocket k
  case loadRunning k =>
    cases hs
    split <;> rename_i hr
    · exact .askReconnect k hr
    · exact .stopped k (by simpa using hr)
  case storePending k =>
    cases hs
    exact .storePending k
  case signal k =>
    cases hs
    exact .signal k
  case loadConnected =>
    cases hs
    split <;> rename_i hc
    · exact .watch hc
    · exact .noWatch (by simpa using hc)

/-- These are all the steps of the network thread. -/
theorem networkStep_moves {s t : FeedHandler} {e : NetworkEvent} (hs : s.networkStep e = some t) :
    NetworkMoves s s.network e t := by
  cases e with
  | step => exact networkGoes_moves hs
  | connect ok =>
    simp only [networkStep] at hs
    split at hs <;> rename_i hp <;> cases hs
    rw [hp]
    cases ok with
    | true => exact .connected _
    | false => exact .notConnected _
  | wait result =>
    simp only [networkStep] at hs
    split at hs <;> rename_i hp
    · rw [hp]
      cases result with
      | ready events =>
        simp only [waitReturns] at hs
        split at hs <;> rename_i hreport <;> cases hs
        exact .ready events hreport.1 hreport.2.1 hreport.2.2
      | interrupted =>
        cases hs
        exact .interrupted
      | failed =>
        cases hs
        exact .failed
    · cases hs
  | recv result =>
    simp only [networkStep] at hs
    split at hs <;> rename_i hp
    · split at hs <;> rename_i hmay <;> cases hs
      rw [hp]
      cases result with
      | bytes n => exact .received _ n hmay
      | eof => exact .peerClosed _ hmay
      | again => exact .drained _ hmay
      | interrupted => exact .tryAgain _ hmay
      | failed => exact .recvError _
    · cases hs
  | check expired =>
    simp only [networkStep] at hs
    split at hs <;> rename_i hp <;> cases hs
    rw [hp]
    cases expired with
    | true => exact .timeout
    | false => exact .inTime

end FeedHandler

end MarketFeed
