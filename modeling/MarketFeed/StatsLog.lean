import Mathlib.Data.UInt
import MarketFeed.ClientManager

/-!
# What the statistics count

`StatsLog` follows a run of the manager and keeps what the manager forgets: the clients that are gone, and for each client which of
the messages that `send_to` was called with `msgs_dropped` has counted.
-/

namespace MarketFeed

/-! ## Messages of a connection -/

namespace Connection

/-- The position in the stream behind the last byte of the `i`-th message. -/
def msgEnd (conn : Connection) (i : Nat) : Nat := (conn.handed.take (i + 1)).flatten.length

/-- The messages whose last byte the kernel has accepted. -/
def accepted (conn : Connection) : Nat :=
  (List.range conn.handed.length).countP (fun i => conn.msgEnd i ≤ conn.wire.length)

end Connection

/-! ## The log -/

/-- A client, in the table or gone. For one that is gone, its entry and its connection are as they were when it was closed. -/
structure ClientRecord where
  cs : ClientState
  conn : Connection
  dropped : List Nat
  inTable : Bool

/-- The manager, the clients that are gone, and the positions of the messages that `msgs_dropped` has counted. -/
structure StatsLog where
  server : Server
  closed : List ClientRecord
  dropped : Fd → List Nat

namespace ClientRecord

/-- The bytes queued for delivery. The queue of a client goes with its entry. -/
def queued (r : ClientRecord) : Nat := if r.inTable then r.cs.pending.flatten.length else 0

/-- The counters of a client are right: `msgs_sent` is the number of accepted messages, and `msgs_dropped` counts messages of which some
byte was neither delivered nor is queued. The counters count modulo 2^64. -/
structure StatsOk (r : ClientRecord) : Prop where
  sent : r.cs.msgsSent = UInt64.ofNat r.conn.accepted
  counted : r.cs.msgsDropped = UInt64.ofNat r.dropped.length
  dropped : ∀ i ∈ r.dropped, i < r.conn.handed.length ∧ r.conn.wire.length + r.queued < r.conn.msgEnd i

end ClientRecord

namespace StatsLog

def empty : StatsLog := { server := .empty, closed := [], dropped := fun _ => [] }

/-- A client of the table. -/
def entry (l : StatsLog) (fd : Fd) : ClientRecord :=
  { cs := l.server.clients.state fd, conn := l.server.conns fd, dropped := l.dropped fd, inTable := true }

/-- All clients that ever existed. -/
def records (l : StatsLog) : List ClientRecord := l.server.clients.keys.map l.entry ++ l.closed

/-- What is noted of an operation: the message at hand where `msgs_dropped` moved, and the clients that left the table. -/
def observe (l : StatsLog) (v : Server) : StatsLog :=
  let dropped fd :=
    if fd ∉ l.server.clients.keys then []
    else if (v.clients.state fd).msgsDropped = (l.server.clients.state fd).msgsDropped then l.dropped fd
    else l.dropped fd ++ [(l.server.conns fd).handed.length]
  let gone := l.server.clients.keys.filter (fun fd => fd ∉ v.clients.keys)
  { server := v
    closed := l.closed ++ gone.map (fun fd =>
      { cs := v.clients.state fd, conn := v.conns fd, dropped := dropped fd, inTable := false })
    dropped }

/-- One operation on the manager, observed. -/
def step (l : StatsLog) (e : ServerEvent) : Option StatsLog := (l.server.step e).map l.observe

/-- The statistics count each message once: the counters of every client are right, and the totals are their sums. -/
structure Ok (l : StatsLog) : Prop where
  clients : ∀ r ∈ l.records, r.StatsOk
  totalSent : l.server.totalMsgsSent = (l.records.map fun r => r.cs.msgsSent).sum
  totalDropped : l.server.totalMsgsDropped = (l.records.map fun r => r.cs.msgsDropped).sum

end StatsLog

end MarketFeed
