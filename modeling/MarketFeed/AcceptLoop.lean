import MarketFeed.Pipeline
import MarketFeed.Socket

/-!
# The accept loop of the exchange

`accept_loop` and `stop` of `src/server/exchange_simulator.cpp`, beside the tick loop and the clients of `FeedSys`. One thread waits for
the descriptors of the epoll set, accepts connections, reads subscriptions, flushes queues and removes clients; so the calls on the
manager that come from anywhere in `FeedSys` come from its batches here. A client sends its subscription request when it has connected
(`do_connect`), and nothing else. As in `FeedSys`, each call on the manager is taken as a whole, and there is no step for a tick whose
broadcast drops a client.

What the kernel does is in the events, as in `FeedHandler`. Of a report it is asked that its descriptor is in the epoll set, each at
most once, and that it tells the pending conditions as they are; of `accept4`, that the descriptor it returns is not open and that the
listening socket is not shut down; of `recv`, that it returns unread bytes, 0 after a FIN, or `EAGAIN`; errors may come at any time.
-/

namespace MarketFeed

/-- The way of a connection towards the server: the ids its client subscribes to, how many bytes of the request for them have arrived,
how many of these the server has read, and whether the FIN has arrived. -/
structure Upstream where
  ids : List UInt16
  arrived : Nat
  read : Nat
  fin : Bool
  deriving DecidableEq, Repr

/-- What a `recv` of the server finds. -/
def Upstream.unread (u : Upstream) : List UInt8 := ((subscriptionRequest u.ids).take u.arrived).drop u.read

/-- An entry of `events`, and for the record which connection its descriptor stood for. -/
structure Report where
  fd : Fd
  flags : EpollFlags
  epollOut : Bool
  connection : Nat
  deriving DecidableEq, Repr

/-- What `epoll_wait` returns to the accept thread. -/
inductive ReportResult where
  | ready (reports : List Report)
  | interrupted
  | failed
  deriving DecidableEq, Repr

/-- Where the accept thread is, by what it does next; `rest` is what it has not looked at of the batch. -/
inductive AcceptPoint where
  | head
  | epollWait
  | events (rest : List Report)
  | accept (rest : List Report)
  | register (fd : Fd) (rest : List Report)
  | addClient (fd : Fd) (rest : List Report)
  | flush (fd : Fd) (rest : List Report)
  | recv (fd : Fd) (rest : List Report)
  | maintain
  | finished
  deriving DecidableEq, Repr

/-- The steps of the accept thread; `step` is any that does not depend on the kernel or the clock. -/
inductive AcceptEvent where
  | step
  | wait (result : ReportResult)
  | accept (conn : Option (Fd × List UInt16))
  | add (peerAddr : String) (now : Int64) (order : List Fd) (numSymbols : UInt16)
  | flush (outs : Nat → SendOutcome)
  | recv (result : RecvResult)

/-- A step: of the accept thread; of the thread that calls `stop`; of the tick thread; of a client; of its request on the way to the
server; of its FIN. -/
inductive ExchangeEvent where
  | accept (e : AcceptEvent)
  | stop
  | tick (e : TickEvent) (outs : Fd → SendOutcome) (now : Int64)
  | client (fd : Fd) (e : ClientEvent)
  | arrive (fd : Fd) (len : Nat)
  | fin (fd : Fd)

/-- The `ExchangeSimulator` with the clients of its connections: the sockets that are open, the epoll set, and for the record, how often
`accept4` has returned each descriptor. -/
structure ExchangeSys (n : NumSymbols) (c : Capacity) (P : Type) where
  feed : FeedSys n c P
  listenFd : Fd
  listenShut : Bool
  openFds : List Fd
  watched : List Fd
  accepted : Fd → Nat
  upstream : Fd → Upstream
  point : AcceptPoint
  stopper : StopPoint

namespace ExchangeSys

variable {n : NumSymbols} {c : Capacity} {P : Type} (prices : DisplayPrices P)

/-- `MAX_EVENTS` of `accept_loop`. -/
def maxEvents : Nat := 64

/-- The size of `buf`. -/
def bufSize : Nat := 512

/-- When `start` has started the threads. -/
def init (n : NumSymbols) (c : Capacity) (listenFd : Fd) : ExchangeSys n c P :=
  { feed := .init prices n c
    listenFd
    listenShut := false
    openFds := [listenFd]
    watched := [listenFd]
    accepted := fun _ => 0
    upstream := fun _ => { ids := [], arrived := 0, read := 0, fin := false }
    point := .head
    stopper := .idle }

/-- After a call on the manager: what `remove_client` has erased is off the epoll set and closed. -/
def manage (s : ExchangeSys n c P) (feed : FeedSys n c P) : ExchangeSys n c P :=
  let kept (fd : Fd) : Bool := fd ∉ s.feed.server.clients.keys ∨ fd ∈ feed.server.clients.keys
  { s with feed := feed, openFds := s.openFds.filter kept, watched := s.watched.filter kept }

/-- What a report may say of a descriptor: of the listening socket, whether it is shut down; of a connection, that there is something to
read, that it can be written to if that has been asked for, and whether the FIN has arrived. -/
def Reports (s : ExchangeSys n c P) (r : Report) : Prop :=
  r.fd ∈ s.watched ∧ r.connection = s.accepted r.fd ∧
    (r.flags.epollIn || r.flags.rdHup || r.flags.hup || r.flags.err || r.epollOut) = true ∧
    if r.fd = s.listenFd then r.flags.hup = s.listenShut
    else r.flags.epollIn = (!(s.upstream r.fd).unread.isEmpty || (s.upstream r.fd).fin) ∧ r.flags.rdHup = (s.upstream r.fd).fin ∧
      (r.epollOut = true → (s.feed.server.conns r.fd).epollOut = true)

instance (s : ExchangeSys n c P) : DecidablePred s.Reports := fun _ => inferInstanceAs (Decidable (_ ∧ _ ∧ _ ∧ ite _ _ _))

/-- `epoll_wait` returns. -/
def waitReturns (s : ExchangeSys n c P) : ReportResult → Option (ExchangeSys n c P)
  | .ready reports =>
    if reports.length ≤ maxEvents ∧ (reports.map Report.fd).Nodup ∧ ∀ r ∈ reports, s.Reports r then some { s with point := .events reports }
    else none
  | .interrupted => some { s with point := .head }
  | .failed => some { s with point := .finished }

/-- `accept4` returns, with the descriptor of a connection and the ids that its client subscribes to. -/
def acceptReturns (s : ExchangeSys n c P) (rest : List Report) : Option (Fd × List UInt16) → Option (ExchangeSys n c P)
  | none => some { s with point := .events rest }
  | some (fd, ids) =>
    if fd ∉ s.openFds ∧ s.listenShut = false then
      some { s with
        openFds := fd :: s.openFds
        accepted := Function.update s.accepted fd (s.accepted fd + 1)
        upstream := Function.update s.upstream fd { ids, arrived := 0, read := 0, fin := false }
        point := .register fd rest }
    else none

/-- What `recv` may return. -/
def MayReceive (s : ExchangeSys n c P) (fd : Fd) : RecvResult → Prop
  | .bytes k => fd ∈ s.openFds ∧ 0 < k ∧ k ≤ (s.upstream fd).unread.length ∧ k ≤ bufSize
  | .eof => fd ∈ s.openFds ∧ (s.upstream fd).unread = [] ∧ (s.upstream fd).fin = true
  | .again => fd ∈ s.openFds ∧ (s.upstream fd).unread = [] ∧ (s.upstream fd).fin = false
  | .interrupted => fd ∈ s.openFds
  | .failed => True

instance (s : ExchangeSys n c P) (fd : Fd) : DecidablePred (s.MayReceive fd)
  | .bytes _ => inferInstanceAs (Decidable (_ ∧ _ ∧ _ ∧ _))
  | .eof => inferInstanceAs (Decidable (_ ∧ _ ∧ _))
  | .again => inferInstanceAs (Decidable (_ ∧ _ ∧ _))
  | .interrupted => inferInstanceAs (Decidable (_ ∈ _))
  | .failed => isTrue trivial

/-- A call on the manager, and where the accept thread goes on. -/
def call (s : ExchangeSys n c P) (e : FeedEvent) (point : AcceptPoint) : Option (ExchangeSys n c P) :=
  (s.feed.step prices e).map fun feed => { s.manage feed with point := point }

/-- `recv` returns: bytes go to `on_recv`; only `EAGAIN` leaves a client that has sent none where it is. -/
def recvReturns (s : ExchangeSys n c P) (fd : Fd) (rest : List Report) : RecvResult → Option (ExchangeSys n c P)
  | .bytes k =>
    let u := s.upstream fd
    (s.call prices (.recv fd (u.unread.take k)) (.events rest)).map fun t =>
      { t with upstream := Function.update t.upstream fd { u with read := u.read + k } }
  | .again => some { s with point := .events rest }
  | .eof => s.call prices (.remove fd) (.events rest)
  | .interrupted => s.call prices (.remove fd) (.events rest)
  | .failed => s.call prices (.remove fd) (.events rest)

/-- The next entry of `events`. -/
def nextReport (s : ExchangeSys n c P) : List Report → Option (ExchangeSys n c P)
  | [] => some { s with point := .maintain }
  | r :: rest =>
    if r.fd = s.listenFd then some { s with point := .accept rest }
    else if r.flags.err || r.flags.hup || r.flags.rdHup then s.call prices (.remove r.fd) (.events rest)
    else if r.epollOut then some { s with point := .flush r.fd rest }
    else if r.flags.epollIn then some { s with point := .recv r.fd rest }
    else some { s with point := .events rest }

/-- A step of the accept thread. -/
def acceptStep (s : ExchangeSys n c P) : AcceptEvent → Option (ExchangeSys n c P)
  | .step =>
    match s.point with
    | .head => some { s with point := if s.feed.loop.running then .epollWait else .finished }
    | .events rest => s.nextReport prices rest
    | .register fd rest => some { s with watched := fd :: s.watched, point := .addClient fd rest }
    | .maintain => s.call prices .maintain .head
    | _ => none
  | .wait result =>
    match s.point with
    | .epollWait => s.waitReturns result
    | _ => none
  | .accept conn =>
    match s.point with
    | .accept rest => s.acceptReturns rest conn
    | _ => none
  | .add peerAddr now order numSymbols =>
    match s.point with
    | .addClient fd rest => s.call prices (.accept fd peerAddr now order numSymbols) (.accept rest)
    | _ => none
  | .flush outs =>
    match s.point with
    | .flush fd rest => s.call prices (.flush fd outs) (.events rest)
    | _ => none
  | .recv result =>
    match s.point with
    | .recv fd rest => if s.MayReceive fd result then s.recvReturns prices fd rest result else none
    | _ => none

/-- A step of `stop`: it stores its flag, then it shuts the listening socket down. -/
def stopStep (s : ExchangeSys n c P) : Option (ExchangeSys n c P) :=
  match s.stopper with
  | .idle =>
    (s.feed.step prices (.tick .stop (fun _ => .again) 0)).map fun feed => { s.manage feed with stopper := .signal }
  | .signal => some { s with listenShut := true, stopper := .idle }

/-- A step of any thread, of a client or of its connection. -/
def step (s : ExchangeSys n c P) : ExchangeEvent → Option (ExchangeSys n c P)
  | .accept e => s.acceptStep prices e
  | .stop => s.stopStep prices
  | .tick e outs now => if e = .stop then none else (s.feed.step prices (.tick e outs now)).map s.manage
  | .client fd e => (s.feed.step prices (.client fd e)).map s.manage
  | .arrive fd len =>
    let u := s.upstream fd
    if u.fin then none
    else
      some { s with
        upstream := Function.update s.upstream fd { u with arrived := min (u.arrived + len) (subscriptionRequest u.ids).length } }
  | .fin fd => some { s with upstream := Function.update s.upstream fd { s.upstream fd with fin := true } }

/-- A `feed` of a client that does not find less room than it has bytes. -/
def FeedFits (s : ExchangeSys n c P) : ExchangeEvent → Prop
  | .client fd e => s.feed.FeedFits (.client fd e)
  | _ => True

instance (s : ExchangeSys n c P) : (e : ExchangeEvent) → Decidable (s.FeedFits e)
  | .client fd e => inferInstanceAs (Decidable (s.feed.FeedFits (.client fd e)))
  | .accept _ => isTrue trivial
  | .stop => isTrue trivial
  | .tick .. => isTrue trivial
  | .arrive .. => isTrue trivial
  | .fin _ => isTrue trivial

end ExchangeSys

/-- What the accept thread has not looked at of its batch. -/
def AcceptPoint.rest : AcceptPoint → List Report
  | .events rest | .accept rest | .register _ rest | .addClient _ rest | .flush _ rest | .recv _ rest => rest
  | .head | .epollWait | .maintain | .finished => []

end MarketFeed
