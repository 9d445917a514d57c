import MarketFeed.Lib.Run
import MarketFeed.Protocol

/-!
# The heartbeat timeout of the feed handler

`last_recv_ns_` of `FeedHandler` is written by two threads: the network thread stamps it after a connect and after each receive,
the parse thread in the callback of the parser. At the end of each round of `network_loop` the network thread reads the clock,
loads the stamp, and disconnects when the difference is over the timeout. The difference is one of unsigned 64-bit numbers.

A stamp takes two steps, the reading of the clock and the store; the check takes three. The clock never goes back.
-/

namespace MarketFeed

/-- `HEARTBEAT_TIMEOUT_NS`. -/
def heartbeatTimeoutNs : UInt64 := 30 * 1000000000

/-- Where the network thread is: about to read the clock for a stamp, about to store it, in the check with the clock read, or with
the stamp loaded too. -/
inductive NetworkPc where
  | idle
  | refreshing
  | storing (t : UInt64)
  | clockRead (now : UInt64)
  | loaded (now last : UInt64)
  deriving DecidableEq

/-- Where the parse thread is in the stamp of its callback. -/
inductive ParsePc where
  | idle
  | storing (t : UInt64)
  deriving DecidableEq

/-- A call of `on_disconnect(HEARTBEAT_TIMEOUT)`, with the values the check had. -/
structure Timeout where
  now : UInt64
  last : UInt64
  deriving DecidableEq

/-- The clock, the stamp and the two threads, and the timeouts there have been. -/
structure HeartbeatSys where
  clock : UInt64
  lastRecvNs : UInt64
  connected : Bool
  network : NetworkPc
  parse : ParsePc
  timeouts : List Timeout
  deriving DecidableEq

/-- The steps: time passes; the network thread connects, loses the connection or receives, stamps, and checks; the parse thread
stamps. -/
inductive HeartbeatEvent where
  | advance (t : UInt64)
  | connect
  | disconnect
  | receive
  | networkClock
  | networkStore
  | check
  | load
  | compare
  | callbackClock
  | callbackStore
  deriving DecidableEq

namespace HeartbeatSys

/-- Before the threads start. -/
def init : HeartbeatSys :=
  { clock := 0, lastRecvNs := 0, connected := false, network := .idle, parse := .idle, timeouts := [] }

/-- A step of either thread, or of the clock. -/
def step (s : HeartbeatSys) : HeartbeatEvent → Option HeartbeatSys
  | .advance t => if s.clock ≤ t then some { s with clock := t } else none
  | .connect =>
    match s.network, s.connected with
    | .idle, false => some { s with connected := true, network := .refreshing }
    | _, _ => none
  | .disconnect =>
    match s.network with
    | .idle => some { s with connected := false }
    | _ => none
  | .receive =>
    match s.network, s.connected with
    | .idle, true => some { s with network := .refreshing }
    | _, _ => none
  | .networkClock =>
    match s.network with
    | .refreshing => some { s with network := .storing s.clock }
    | _ => none
  | .networkStore =>
    match s.network with
    | .storing t => some { s with lastRecvNs := t, network := .idle }
    | _ => none
  | .check =>
    match s.network, s.connected with
    | .idle, true => some { s with network := .clockRead s.clock }
    | _, _ => none
  | .load =>
    match s.network with
    | .clockRead now => some { s with network := .loaded now s.lastRecvNs }
    | _ => none
  | .compare =>
    match s.network with
    | .loaded now last =>
      if last > 0 ∧ now - last > heartbeatTimeoutNs then
        some { s with connected := false, network := .idle, timeouts := s.timeouts ++ [⟨now, last⟩] }
      else some { s with network := .idle }
    | _ => none
  | .callbackClock =>
    match s.parse with
    | .idle => some { s with parse := .storing s.clock }
    | _ => none
  | .callbackStore =>
    match s.parse with
    | .storing t => some { s with lastRecvNs := t, parse := .idle }
    | _ => none

/-- The callback stores a later reading of the clock between the check's reading and its load. -/
def overtakes (s : HeartbeatSys) : HeartbeatEvent → Bool
  | .callbackStore =>
    match s.network, s.parse with
    | .clockRead now, .storing t => now < t
    | _, _ => false
  | _ => false

/-- The step does not overtake the check. -/
def NotOvertaken (s : HeartbeatSys) (e : HeartbeatEvent) : Prop := s.overtakes e = false

instance (s : HeartbeatSys) (e : HeartbeatEvent) : Decidable (s.NotOvertaken e) :=
  inferInstanceAs (Decidable (s.overtakes e = false))

end HeartbeatSys

end MarketFeed
