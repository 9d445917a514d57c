import MarketFeed.Lemmas.ClientBroadcast
import MarketFeed.ExchangeSimulator
import MarketFeed.Display
import MarketFeed.FeedHandler

/-!
# The exchange and its clients

The whole way of a message: `tick_loop` emits it, its callback hands it to `broadcast`, the kernel takes the bytes of a client over in
pieces, the client's `recv` returns them in other pieces, `feed` and `process` turn them into messages again, and the callback of the
parser updates the symbol cache.

Each part is the one modelled for itself. The tick thread and the accept thread of the server make whole calls on the manager, in any order
(the source takes no lock for them), and a tick whose broadcast drops a client has no step, since what the source does from there is
undefined: the runs here are those in which no broadcast drops a client. Every connection has a client of its own at the other end, whose
network thread and parse thread run as they do in `ParserSys`; the callback is one call of the cache (`exec_callback`). What has been taken
over by the kernel can be received, nothing else.
-/

namespace MarketFeed

/-- The client at the other end of a connection: how many bytes it has received, its parser, and its cache. -/
structure FeedClient (c : Capacity) (P : Type) where
  received : Nat
  parser : ParserSys c
  cache : SymbolCache P

/-- A step of a client: `recv` and `feed`, the call of `process`, an iteration of its loop. -/
inductive ClientEvent where
  | receive (len : Nat) (recvTimeNs : UInt64)
  | process
  | iterate (now : UInt64)
  deriving DecidableEq, Repr

namespace FeedClient

variable {c : Capacity} {P : Type} (prices : DisplayPrices P)

/-- A client that has just connected. -/
def init (c : Capacity) (numSymbols : UInt16) : FeedClient c P :=
  { received := 0, parser := .init c, cache := .new prices.toPrices numSymbols }

/-- What a `recv` returns of the bytes the kernel has for the client. -/
def chunk (cl : FeedClient c P) (wire : List UInt8) (len : Nat) : List UInt8 := (wire.drop cl.received).take (min len recvChunk)

/-- A step, with the bytes the kernel has taken over for the client so far. -/
def step (cl : FeedClient c P) (wire : List UInt8) : ClientEvent → Option (FeedClient c P)
  | .receive len recvTimeNs =>
    let data := cl.chunk wire len
    if data = [] then none
    else
      (cl.parser.step (.feed data recvTimeNs)).map fun parser => { cl with received := cl.received + data.length, parser }
  | .process => (cl.parser.step .call).map fun parser => { cl with parser }
  | .iterate now =>
    let message := cl.parser.parser.iterate.bind fun x => x.2.message
    (cl.parser.step (.iterate now)).map fun parser =>
      { cl with
        parser := parser
        cache := match message.bind (callback prices) with
          | some call => cl.cache.call prices.toPrices call
          | none => cl.cache }

end FeedClient

/-- The tick loop and the client manager of the server, and the client of each connection; for the record, how many messages had been
emitted when the client of a connection went live. -/
structure FeedSys (n : NumSymbols) (c : Capacity) (P : Type) where
  loop : TickLoop n
  server : Server
  client : Fd → FeedClient c P
  joined : Fd → Option Nat

/-- A step: of the tick thread, with what comes of the sends; of the accept thread, an accepted connection with a client of so many
symbols, a connection lost, bytes received, a flush, or the maintenance at the end of a round; of a client. -/
inductive FeedEvent where
  | tick (e : TickEvent) (outs : Fd → SendOutcome) (now : Int64)
  | accept (fd : Fd) (peerAddr : String) (now : Int64) (order : List Fd) (numSymbols : UInt16)
  | remove (fd : Fd)
  | recv (fd : Fd) (data : List UInt8)
  | flush (fd : Fd) (outs : Nat → SendOutcome)
  | maintain
  | client (fd : Fd) (e : ClientEvent)

/-- The callback that `start` sets, for the messages of a step: nothing if one of the broadcasts drops a client. -/
def Server.broadcastAll (outs : Fd → SendOutcome) (now : Int64) : Server → List Emitted → Option Server
  | v, [] => some v
  | v, e :: es => (v.step (.broadcast e.msg.bytes outs now)).bind fun v' => broadcastAll outs now v' es

namespace FeedSys

variable {n : NumSymbols} {c : Capacity} {P : Type} (prices : DisplayPrices P)

/-- When `start` has started the threads. -/
def init (n : NumSymbols) (c : Capacity) : FeedSys n c P :=
  { loop := .init n, server := .empty, client := fun _ => .init prices c 0, joined := fun _ => none }

/-- `on_recv`, and for the record whether the client has gone live with it. -/
def afterRecv (s : FeedSys n c P) (fd : Fd) (server : Server) : FeedSys n c P :=
  let joins := s.joined fd = none ∧ server.IsLive fd
  { s with
    server := server
    joined := if joins then Function.update s.joined fd (some s.loop.emitted.length) else s.joined }

/-- A step. -/
def step (s : FeedSys n c P) : FeedEvent → Option (FeedSys n c P)
  | .tick e outs now =>
    (s.loop.step e).bind fun loop =>
      (s.server.broadcastAll outs now (loop.emitted.drop s.loop.emitted.length)).map fun server => { s with loop, server }
  | .accept fd peerAddr now order numSymbols =>
    (s.server.step (.accept fd peerAddr now order)).map fun server =>
      { s with
        server := server
        client := Function.update s.client fd (.init prices c numSymbols)
        joined := Function.update s.joined fd none }
  | .remove fd => (s.server.step (.remove fd)).map fun server => { s with server }
  | .recv fd data => (s.server.step (.recv fd data)).map (s.afterRecv fd)
  | .flush fd outs => (s.server.step (.flush fd outs)).map fun server => { s with server }
  | .maintain => (s.server.step .tick).map fun server => { s with server }
  | .client fd e =>
    ((s.client fd).step prices (s.server.conns fd).wire e).map fun cl => { s with client := Function.update s.client fd cl }

/-- A `feed` that does not find less room than it has bytes. -/
def FeedFits (s : FeedSys n c P) : FeedEvent → Prop
  | .client fd (.receive len t) => (s.client fd).parser.FeedFits (.feed ((s.client fd).chunk (s.server.conns fd).wire len) t)
  | _ => True

instance (s : FeedSys n c P) : (e : FeedEvent) → Decidable (s.FeedFits e)
  | .client fd (.receive len t) =>
    inferInstanceAs (Decidable ((s.client fd).parser.FeedFits (.feed ((s.client fd).chunk (s.server.conns fd).wire len) t)))
  | .client _ .process => isTrue trivial
  | .client _ (.iterate _) => isTrue trivial
  | .tick .. => isTrue trivial
  | .accept .. => isTrue trivial
  | .remove _ => isTrue trivial
  | .recv .. => isTrue trivial
  | .flush .. => isTrue trivial
  | .maintain => isTrue trivial

end FeedSys

end MarketFeed
