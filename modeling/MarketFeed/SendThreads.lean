import MarketFeed.Lemmas.ClientSend

/-!
# A client between the tick thread and the accept thread

The tick thread runs `send_to` for a client, through `broadcast`, while the accept thread runs `flush_pending` for it on
`EPOLLOUT`. The manager takes no lock. Here each of the two operations is cut into its steps on the client: the test of the
queue with the `send`, the `enqueue`, the two `arm_epollout` calls, and the whole loop of `flush_queue` as one step.

Run without interruption, the steps of an operation come to the operation of `ClientManager` (`send_uninterrupted`,
`flush_uninterrupted`).
-/

namespace MarketFeed

/-- Where the tick thread is in `send_to`: before the `enqueue` behind a backlog, before the test of the limit that follows it,
before the `enqueue` of what a `send` did not take, before `arm_epollout(true)`, before `remove_client`. `refused` tells `EAGAIN`
from a partial send. -/
inductive TickPc where
  | idle
  | backlog (data : List UInt8)
  | limit
  | queueing (data : List UInt8) (refused : Bool)
  | arming (refused : Bool)
  | dropping
  deriving DecidableEq

/-- Where the accept thread is: in `flush_pending` before `arm_epollout(false)`, or not in it. -/
inductive AcceptPc where
  | idle
  | disarming
  deriving DecidableEq

/-- One client, its connection, and the two threads. The client is `none` once it has been removed. -/
structure SendSys where
  client : Option ClientState
  conn : Connection
  tick : TickPc
  accept : AcceptPc
  deriving DecidableEq

/-- The steps of the two threads. -/
inductive SendEvent where
  | send (data : List UInt8) (out : SendOutcome) (now : Int64)
  | enqueue
  | limit
  | arm
  | drop
  | flush (outs : Nat → SendOutcome)
  | disarm

namespace SendSys

/-- `send_to` up to and including the `send`. -/
def beginSend (s : SendSys) (cs : ClientState) (data : List UInt8) (out : SendOutcome) (now : Int64) : SendSys :=
  let conn := { s.conn with handed := s.conn.handed ++ [data] }
  if cs.pending ≠ [] then { s with conn := conn, tick := .backlog data }
  else
    match out with
    | .accept k =>
      let sent := min (k + 1) data.length
      let conn := { conn with wire := conn.wire ++ data.take sent }
      if sent = data.length then
        let cs := { cs with
          bytesSent := cs.bytesSent + UInt64.ofNat data.length
          msgsSent := cs.msgsSent + 1
          lastSend := now }
        { s with client := some cs, conn := conn }
      else { s with conn := conn, tick := .queueing (data.drop sent) false }
    | .again => { s with conn := conn, tick := .queueing data true }
    | .error => { s with conn := conn, tick := .dropping }

/-- A step of either thread. An operation for a client that has been removed returns at once. -/
def step (s : SendSys) : SendEvent → Option SendSys
  | .send data out now =>
    match s.tick, s.client with
    | .idle, some cs => some (s.beginSend cs data out now)
    | .idle, none => some s
    | _, _ => none
  | .enqueue =>
    match s.tick, s.client with
    | .backlog data, some cs =>
      some { s with client := some { cs.enqueue data with msgsDropped := cs.msgsDropped + 1 }, tick := .limit }
    | .queueing data refused, some cs => some { s with client := some (cs.enqueue data), tick := .arming refused }
    | _, _ => none
  | .limit =>
    match s.tick, s.client with
    | .limit, some cs => some { s with tick := if cs.pendingBytes > slowClientDropBytes then .dropping else .idle }
    | _, _ => none
  | .arm =>
    match s.tick, s.client with
    | .arming refused, some cs =>
      let cs := { cs with msgsDropped := if refused then cs.msgsDropped + 1 else cs.msgsDropped }
      some { s with client := some cs, conn := { s.conn with epollOut := true }, tick := .idle }
    | _, _ => none
  | .drop =>
    match s.tick with
    | .dropping => some { s with client := none, conn := { s.conn with epollOut := false }, tick := .idle }
    | _ => none
  | .flush outs =>
    match s.accept, s.client with
    | .idle, some cs =>
      let (cs, conn, flushed) := cs.flushQueue s.conn outs
      some { s with client := some cs, conn := conn, accept := if flushed then .disarming else .idle }
    | .idle, none => some s
    | _, _ => none
  | .disarm =>
    match s.accept with
    | .disarming => some { s with conn := { s.conn with epollOut := false }, accept := .idle }
    | _ => none

/-- A client of the server, with neither operation in progress. -/
def ofServer (v : Server) (fd : Fd) : SendSys :=
  { client := v.clients.find fd, conn := v.conns fd, tick := .idle, accept := .idle }

/-- A client just accepted. -/
def init (fd : Fd) (peerAddr : String) (now : Int64) : SendSys :=
  { client := some { fd, connectedAt := now, lastSend := now, peerAddr }
    conn := { wire := [], epollOut := false, handed := [] }
    tick := .idle
    accept := .idle }

end SendSys

/-! ## The steps make up the operations -/

namespace SendThreadsAux

open ClientSendAux

/-- A removed client is not found. -/
theorem ofServer_removeClient {v : Server} {fd : Fd} (h : fd ∈ v.clients.keys) :
    SendSys.ofServer (v.removeClient fd) fd =
      { client := none, conn := { v.conns fd with epollOut := false }, tick := .idle, accept := .idle } := by
  have hkeys := removeClient_keys h
  have hnone : (v.removeClient fd).clients.find fd = none := by
    unfold ClientTable.find
    rw [hkeys, if_neg v.clients.nodup.not_mem_erase]
  have hconn : (v.removeClient fd).conns fd = { v.conns fd with epollOut := false } := by
    unfold Server.removeClient
    rw [if_pos h]
    exact armEpollout_conns_self v fd false
  unfold SendSys.ofServer
  rw [hnone, hconn]

/-- The client after changes that keep it in the table. -/
theorem ofServer_eq {v : Server} {fd : Fd} (h : fd ∈ v.clients.keys) :
    SendSys.ofServer v fd =
      { client := some (v.clients.state fd), conn := v.conns fd, tick := .idle, accept := .idle } := by
  unfold SendSys.ofServer
  rw [find_of_mem h]

end SendThreadsAux

open ClientSendAux SendThreadsAux

/-- The steps of `send_to`, run without interruption, are `send_to`. -/
theorem send_uninterrupted (v : Server) (fd : Fd) (data : List UInt8) (out : SendOutcome) (now : Int64) :
    ∃ es, Run.exec SendSys.step (SendSys.ofServer v fd) (.send data out now :: es) =
      some (SendSys.ofServer (v.sendTo fd data out now).1 fd) := by
  by_cases hmem : fd ∈ v.clients.keys
  · rw [ofServer_eq hmem]
    unfold Server.sendTo
    rw [find_of_mem hmem]
    generalize v.clients.state fd = cs
    dsimp only
    by_cases hp : cs.pending = []
    · rw [if_neg (not_not.mpr hp)]
      cases out with
      | accept k =>
        by_cases hall : min (k + 1) data.length = data.length
        · refine ⟨[], ?_⟩
          dsimp only
          rw [if_pos hall, ofServer_eq (by exact hmem)]
          simp [Run.exec, SendSys.step, SendSys.beginSend, hp, hall]
        · refine ⟨[.enqueue, .arm], ?_⟩
          dsimp only
          rw [if_neg hall, ofServer_eq (by exact hmem)]
          simp [Run.exec, SendSys.step, SendSys.beginSend, hp, hall]
      | again =>
        refine ⟨[.enqueue, .arm], ?_⟩
        dsimp only
        rw [ofServer_eq (by exact hmem)]
        simp [Run.exec, SendSys.step, SendSys.beginSend, hp, ClientState.enqueue]
      | error =>
        refine ⟨[.drop], ?_⟩
        dsimp only
        rw [ofServer_removeClient (by exact hmem)]
        simp [Run.exec, SendSys.step, SendSys.beginSend, hp]
    · rw [if_pos hp]
      by_cases hlimit : (cs.enqueue data).pendingBytes > slowClientDropBytes
      · refine ⟨[.enqueue, .limit, .drop], ?_⟩
        rw [if_pos hlimit, ofServer_removeClient (by exact hmem)]
        simp [Run.exec, SendSys.step, SendSys.beginSend, hp, hlimit]
      · refine ⟨[.enqueue, .limit], ?_⟩
        rw [if_neg hlimit, ofServer_eq (by exact hmem)]
        simp [Run.exec, SendSys.step, SendSys.beginSend, hp, hlimit]
  · have hnone : v.clients.find fd = none := if_neg hmem
    refine ⟨[], ?_⟩
    unfold Server.sendTo
    rw [hnone]
    simp [Run.exec, SendSys.step, SendSys.ofServer, hnone]

/-- The steps of `flush_pending`, run without interruption, are `flush_pending`. -/
theorem flush_uninterrupted (v : Server) (fd : Fd) (outs : Nat → SendOutcome) :
    ∃ es, Run.exec SendSys.step (SendSys.ofServer v fd) (.flush outs :: es) =
      some (SendSys.ofServer (v.flushPending fd outs) fd) := by
  by_cases hmem : fd ∈ v.clients.keys
  · rw [ofServer_eq hmem]
    unfold Server.flushPending
    rw [find_of_mem hmem]
    generalize v.clients.state fd = cs
    dsimp only
    by_cases hdone : (cs.flushQueue (v.conns fd) outs).2.2 = true
    · refine ⟨[.disarm], ?_⟩
      rw [if_pos hdone, ofServer_eq (by exact hmem)]
      simp [Run.exec, SendSys.step, hdone]
    · refine ⟨[], ?_⟩
      rw [if_neg hdone, ofServer_eq (by exact hmem)]
      simp [Run.exec, SendSys.step, hdone]
  · have hnone : v.clients.find fd = none := if_neg hmem
    refine ⟨[], ?_⟩
    unfold Server.flushPending
    rw [hnone]
    simp [Run.exec, SendSys.step, SendSys.ofServer, hnone]

end MarketFeed
