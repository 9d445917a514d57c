import MarketFeed.Protocol
import MarketFeed.Lib.Run

/-!
# The client manager

`ClientManager` of `src/server/client_manager.cpp`: the table of connected clients, the send path with its backpressure queue, and
subscriptions. What a call of `send` does is up to the kernel, so it is an argument: a whole send, any proper part of it, `EAGAIN`
or another error. Log lines are left out.

`Connection` stands for the kernel's side of a client: the bytes it accepted, whether `EPOLLOUT` is armed, and, for the record,
the messages that `send_to` was called with.
-/

namespace MarketFeed

/-- A file descriptor. -/
abbrev Fd := Int32

/-- `ClientPhase`. -/
inductive ClientPhase where
  | accepted
  | subscribed
  | live
  deriving DecidableEq, Repr

/-- `ClientState`. Times are readings of the steady clock, in nanoseconds. -/
structure ClientState where
  fd : Fd
  phase : ClientPhase := .accepted
  bytesSent : UInt64 := 0
  msgsSent : UInt64 := 0
  msgsDropped : UInt64 := 0
  pending : List (List UInt8) := []
  pendingBytes : UInt64 := 0
  subscribedSymbols : List UInt16 := []
  subscribeAll : Bool := true
  connectedAt : Int64
  lastSend : Int64
  recvBuf : List UInt8 := []
  peerAddr : String
  deriving DecidableEq, Repr

/-- `SLOW_CLIENT_DROP_BYTES`. -/
def slowClientDropBytes : UInt64 := 64 * 1024 * 1024

/-- What the kernel does with a `send`: it takes `k + 1` bytes or all there are, or returns -1. -/
inductive SendOutcome where
  | accept (k : Nat)
  | again
  | error
  deriving DecidableEq, Repr

/-- The kernel's side of a client. -/
structure Connection where
  wire : List UInt8
  epollOut : Bool
  handed : List (List UInt8)
  deriving DecidableEq, Repr

/-- `clients_`: the keys in the order in which the map is iterated, and the entry of each key. -/
structure ClientTable where
  keys : List Fd
  nodup : keys.Nodup
  state : Fd → ClientState

/-- The `ClientManager` and the connections of its clients. -/
structure Server where
  clients : ClientTable
  totalMsgsSent : UInt64
  totalMsgsDropped : UInt64
  conns : Fd → Connection

/-! ## The table -/

namespace ClientTable

/-- `find`. -/
def find (t : ClientTable) (fd : Fd) : Option ClientState := if fd ∈ t.keys then some (t.state fd) else none

/-- A change to the entry of a key. -/
def set (t : ClientTable) (fd : Fd) (cs : ClientState) : ClientTable := { t with state := Function.update t.state fd cs }

/-- `erase`: the order of the other entries is kept. -/
def erase (t : ClientTable) (fd : Fd) : ClientTable := { t with keys := t.keys.erase fd, nodup := t.nodup.erase fd }

/-- `emplace`, for a key that is not there. It may rehash, so the iteration order afterwards is any order of the keys. -/
def emplace (t : ClientTable) (fd : Fd) (cs : ClientState) (order : List Fd) : ClientTable :=
  if h : order.Nodup then { keys := order, nodup := h, state := Function.update t.state fd cs } else t

/-- The key behind `fd`, for a key of the list. -/
def nextKey (fd : Fd) : List Fd → Option (Option Fd)
  | [] => none
  | k :: ks => if k = fd then some ks.head? else nextKey fd ks

/-- `begin()`; `none` is `end()`. -/
def first (t : ClientTable) : Option Fd := t.keys.head?

/-- `++it` for an iterator at `fd`: `none` when the node it points to is no longer in the map. -/
def next (t : ClientTable) (fd : Fd) : Option (Option Fd) := nextKey fd t.keys

end ClientTable

/-! ## Queues -/

namespace ClientState

/-- `enqueue`. -/
def enqueue (cs : ClientState) (data : List UInt8) : ClientState :=
  { cs with pending := cs.pending ++ [data], pendingBytes := cs.pendingBytes + UInt64.ofNat data.length }

/-- The loop of `flush_queue` over the pending buffers. `outs i` is the outcome of its `i`-th `send`. -/
def flushLoop : List (List UInt8) → ClientState → Connection → (Nat → SendOutcome) → ClientState × Connection × Bool
  | [], cs, conn, _ => (cs, conn, true)
  | buf :: rest, cs, conn, outs =>
    match outs 0 with
    | .accept k =>
      let sent := min (k + 1) buf.length
      let conn := { conn with wire := conn.wire ++ buf.take sent }
      if sent = buf.length then
        let cs := { cs with
          pendingBytes := cs.pendingBytes - UInt64.ofNat buf.length
          bytesSent := cs.bytesSent + UInt64.ofNat buf.length
          msgsSent := cs.msgsSent + 1
          pending := rest }
        flushLoop rest cs conn (fun i => outs (i + 1))
      else
        let cs := { cs with
          pendingBytes := cs.pendingBytes - UInt64.ofNat sent
          bytesSent := cs.bytesSent + UInt64.ofNat sent
          pending := buf.drop sent :: rest }
        (cs, conn, false)
    | .again => (cs, conn, false)
    | .error => (cs, conn, false)

/-- `flush_queue`: whether the queue is empty afterwards. -/
def flushQueue (cs : ClientState) (conn : Connection) (outs : Nat → SendOutcome) : ClientState × Connection × Bool :=
  flushLoop cs.pending cs conn outs

/-- `on_recv` for the client it is about. -/
def onRecv (cs : ClientState) (data : List UInt8) : ClientState :=
  if cs.phase = .live then cs
  else
    let cs := { cs with recvBuf := cs.recvBuf ++ data }
    if cs.recvBuf.length < 3 then cs
    else if cs.recvBuf[0]? ≠ some msgSubscribe then { cs with phase := .live, subscribeAll := true }
    else
      let count := Bytes.readLE 1 2 cs.recvBuf
      let expectedSize := 3 + count * 2
      if cs.recvBuf.length < expectedSize then cs
      else
        let syms := (List.range count).map (fun i => UInt16.ofNat (Bytes.readLE (3 + i * 2) 2 cs.recvBuf))
        { cs with
          subscribedSymbols := syms.filter (fun sym => sym < maxSymbols)
          subscribeAll := count = 0
          phase := .live
          recvBuf := [] }

end ClientState

/-! ## Operations -/

namespace Server

/-- No client. -/
def empty : Server :=
  { clients := { keys := [], nodup := List.nodup_nil, state := fun fd => { fd, connectedAt := 0, lastSend := 0, peerAddr := "" } }
    totalMsgsSent := 0
    totalMsgsDropped := 0
    conns := fun _ => { wire := [], epollOut := false, handed := [] } }

/-- A change to the entry of a client. -/
def setClient (v : Server) (fd : Fd) (cs : ClientState) : Server := { v with clients := v.clients.set fd cs }

/-- A change to the connection of a client. -/
def setConn (v : Server) (fd : Fd) (conn : Connection) : Server := { v with conns := Function.update v.conns fd conn }

/-- `arm_epollout`. -/
def armEpollout (v : Server) (fd : Fd) (enable : Bool) : Server := v.setConn fd { v.conns fd with epollOut := enable }

/-- `add_client`, on a connection just accepted. -/
def addClient (v : Server) (fd : Fd) (peerAddr : String) (now : Int64) (order : List Fd) : Server :=
  let cs : ClientState := { fd, connectedAt := now, lastSend := now, peerAddr }
  { v with
    clients := v.clients.emplace fd cs order
    conns := Function.update v.conns fd { wire := [], epollOut := false, handed := [] } }

/-- `remove_client`: off the epoll set, closed, erased. -/
def removeClient (v : Server) (fd : Fd) : Server :=
  if fd ∈ v.clients.keys then { v.armEpollout fd false with clients := v.clients.erase fd } else v

/-- `send_to`: false when the client is not there or was dropped. -/
def sendTo (v : Server) (fd : Fd) (data : List UInt8) (out : SendOutcome) (now : Int64) : Server × Bool :=
  match v.clients.find fd with
  | none => (v, false)
  | some cs =>
    let conn := { v.conns fd with handed := (v.conns fd).handed ++ [data] }
    let v := v.setConn fd conn
    if cs.pending ≠ [] then
      let cs := { cs.enqueue data with msgsDropped := cs.msgsDropped + 1 }
      let v := { v.setClient fd cs with totalMsgsDropped := v.totalMsgsDropped + 1 }
      if cs.pendingBytes > slowClientDropBytes then (v.removeClient fd, false) else (v, true)
    else
      match out with
      | .accept k =>
        let sent := min (k + 1) data.length
        let v := v.setConn fd { conn with wire := conn.wire ++ data.take sent }
        if sent = data.length then
          let cs := { cs with
            bytesSent := cs.bytesSent + UInt64.ofNat data.length
            msgsSent := cs.msgsSent + 1
            lastSend := now }
          ({ v.setClient fd cs with totalMsgsSent := v.totalMsgsSent + 1 }, true)
        else ((v.setClient fd (cs.enqueue (data.drop sent))).armEpollout fd true, true)
      | .again =>
        let cs := { cs.enqueue data with msgsDropped := cs.msgsDropped + 1 }
        let v := (v.setClient fd cs).armEpollout fd true
        ({ v with totalMsgsDropped := v.totalMsgsDropped + 1 }, true)
      | .error => (v.removeClient fd, false)

/-- `flush_pending`. -/
def flushPending (v : Server) (fd : Fd) (outs : Nat → SendOutcome) : Server :=
  match v.clients.find fd with
  | none => v
  | some cs =>
    let (cs, conn, flushed) := cs.flushQueue (v.conns fd) outs
    let v := (v.setClient fd cs).setConn fd conn
    if flushed then v.armEpollout fd false else v

/-- `on_recv`. -/
def onRecv (v : Server) (fd : Fd) (data : List UInt8) : Server :=
  match v.clients.find fd with
  | none => v
  | some cs => v.setClient fd (cs.onRecv data)

/-- `tick`: the clients over the limit are collected, then removed. -/
def tick (v : Server) : Server :=
  let toRemove := v.clients.keys.filter (fun fd => (v.clients.state fd).pendingBytes > slowClientDropBytes)
  toRemove.foldl removeClient v

end Server

/-! ## Broadcast -/

/-- How the loop of `broadcast` ends, with the fds it called `send_to` for: at `end()`, or on an increment of an iterator whose
node has been erased, which is undefined behaviour. The third case is a bound on the iterations that was too small. -/
inductive BroadcastResult where
  | done (v : Server) (calls : List Fd)
  | dangling (v : Server) (calls : List Fd)
  | unfinished (v : Server) (calls : List Fd)

namespace Server

/-- One iteration of the range-for loop, up to the increment. -/
def visit (v : Server) (fd : Fd) (data : List UInt8) (out : SendOutcome) (now : Int64) : Server × List Fd :=
  if (v.clients.state fd).phase ≠ .live then (v, []) else ((v.sendTo fd data out now).1, [fd])

/-- The range-for loop of `broadcast`, its iterator at `it`. -/
def broadcastFrom (data : List UInt8) (outs : Fd → SendOutcome) (now : Int64) :
    Nat → Server → Option Fd → List Fd → BroadcastResult
  | _, v, none, calls => .done v calls
  | 0, v, some _, calls => .unfinished v calls
  | n + 1, v, some fd, calls =>
    let (v, called) := v.visit fd data (outs fd) now
    match v.clients.next fd with
    | none => .dangling v (calls ++ called)
    | some it => broadcastFrom data outs now n v it (calls ++ called)

/-- `broadcast`. Every entry is visited at most once, so the number of entries bounds the iterations. -/
def broadcast (v : Server) (data : List UInt8) (outs : Fd → SendOutcome) (now : Int64) : BroadcastResult :=
  broadcastFrom data outs now v.clients.keys.length v v.clients.first []

end Server

/-! ## Runs -/

/-- The operations on the manager, each as a whole. -/
inductive ServerEvent where
  | accept (fd : Fd) (peerAddr : String) (now : Int64) (order : List Fd)
  | remove (fd : Fd)
  | recv (fd : Fd) (data : List UInt8)
  | send (fd : Fd) (data : List UInt8) (out : SendOutcome) (now : Int64)
  | broadcast (data : List UInt8) (outs : Fd → SendOutcome) (now : Int64)
  | flush (fd : Fd) (outs : Nat → SendOutcome)
  | tick

/-- One operation. The kernel does not hand out a descriptor that is in use, and nothing follows undefined behaviour. -/
def Server.step (v : Server) : ServerEvent → Option Server
  | .accept fd peerAddr now order =>
    if fd ∉ v.clients.keys ∧ order.Perm (fd :: v.clients.keys) then some (v.addClient fd peerAddr now order) else none
  | .remove fd => some (v.removeClient fd)
  | .recv fd data => some (v.onRecv fd data)
  | .send fd data out now => some (v.sendTo fd data out now).1
  | .broadcast data outs now =>
    match v.broadcast data outs now with
    | .done v _ => some v
    | .dangling _ _ => none
    | .unfinished _ _ => none
  | .flush fd outs => some (v.flushPending fd outs)
  | .tick => some v.tick

end MarketFeed
