import MarketFeed.ClientManager

/-!
# What the send operations do to a client

Every operation on one client leaves the others as they are (`Touches`). `send_to` drops its client in exactly two cases (`Drops`);
otherwise it hands the message on, to the kernel or to the queue, and keeps the stream of the client in step (`InStep`).
-/

namespace MarketFeed

/-- When `send_to` drops the client: the backlog would pass the limit, or there is none and the `send` fails for good. -/
def Drops (cs : ClientState) (data : List UInt8) (out : SendOutcome) : Prop :=
  if cs.pending ≠ [] then (cs.enqueue data).pendingBytes > slowClientDropBytes else out = .error

instance (cs : ClientState) (data : List UInt8) (out : SendOutcome) : Decidable (Drops cs data out) :=
  inferInstanceAs (Decidable (if cs.pending ≠ [] then (cs.enqueue data).pendingBytes > slowClientDropBytes else out = .error))

/-- What the kernel has accepted for a client and what is queued make up the messages that `send_to` was called with. -/
def Server.InStep (v : Server) (fd : Fd) : Prop :=
  (v.conns fd).wire ++ (v.clients.state fd).pending.flatten = (v.conns fd).handed.flatten

/-- What `send_to` comes to for its client: the entry and the connection after it, what it adds to the totals, and whether the client
stays. -/
structure SendResult where
  cs : ClientState
  conn : Connection
  sent : UInt64
  dropped : UInt64
  stays : Bool

/-- `send_to` as far as it is about its client. -/
def ClientState.sendResult (cs : ClientState) (conn : Connection) (data : List UInt8) (out : SendOutcome) (now : Int64) :
    SendResult :=
  let conn := { conn with handed := conn.handed ++ [data] }
  let counted := { cs.enqueue data with msgsDropped := cs.msgsDropped + 1 }
  if cs.pending ≠ [] then
    { cs := counted, conn, sent := 0, dropped := 1, stays := decide ¬counted.pendingBytes > slowClientDropBytes }
  else
    match out with
    | .accept k =>
      let sent := min (k + 1) data.length
      let conn := { conn with wire := conn.wire ++ data.take sent }
      if sent = data.length then
        let cs := { cs with
          bytesSent := cs.bytesSent + UInt64.ofNat data.length
          msgsSent := cs.msgsSent + 1
          lastSend := now }
        { cs, conn, sent := 1, dropped := 0, stays := true }
      else { cs := cs.enqueue (data.drop sent), conn := { conn with epollOut := true }, sent := 0, dropped := 0, stays := true }
    | .again => { cs := counted, conn := { conn with epollOut := true }, sent := 0, dropped := 1, stays := true }
    | .error => { cs, conn, sent := 0, dropped := 0, stays := false }

/-- The manager with what a `send_to` came to. -/
def Server.afterSend (v : Server) (fd : Fd) (r : SendResult) : Server :=
  { (v.setClient fd r.cs).setConn fd r.conn with
    totalMsgsSent := v.totalMsgsSent + r.sent
    totalMsgsDropped := v.totalMsgsDropped + r.dropped }

namespace ClientSendAux

/-! ## The table and the connections -/

/-- What `find` finds is the entry of a key that is there. -/
theorem find_eq_some {t : ClientTable} {fd : Fd} {cs : ClientState} (h : t.find fd = some cs) :
    fd ∈ t.keys ∧ t.state fd = cs := by
  unfold ClientTable.find at h
  split at h <;> rename_i hmem
  · exact ⟨hmem, Option.some.inj h⟩
  · cases h

/-- Of a key that is there `find` finds the entry. -/
theorem find_of_mem {t : ClientTable} {fd : Fd} (h : fd ∈ t.keys) : t.find fd = some (t.state fd) := if_pos h

@[simp] theorem setClient_conns (v : Server) (fd : Fd) (cs : ClientState) : (v.setClient fd cs).conns = v.conns := rfl

@[simp] theorem setClient_state_self (v : Server) (fd : Fd) (cs : ClientState) :
    (v.setClient fd cs).clients.state fd = cs := Function.update_self ..

@[simp] theorem setConn_clients (v : Server) (fd : Fd) (conn : Connection) : (v.setConn fd conn).clients = v.clients := rfl

@[simp] theorem setConn_conns_self (v : Server) (fd : Fd) (conn : Connection) : (v.setConn fd conn).conns fd = conn :=
  Function.update_self ..

@[simp] theorem armEpollout_clients (v : Server) (fd : Fd) (enable : Bool) :
    (v.armEpollout fd enable).clients = v.clients := rfl

@[simp] theorem armEpollout_conns_self (v : Server) (fd : Fd) (enable : Bool) :
    (v.armEpollout fd enable).conns fd = { v.conns fd with epollOut := enable } := Function.update_self ..

/-- `remove_client` erases its key alone. -/
theorem removeClient_keys {v : Server} {fd : Fd} (h : fd ∈ v.clients.keys) :
    (v.removeClient fd).clients.keys = v.clients.keys.erase fd := by
  unfold Server.removeClient
  rw [if_pos h]
  rfl

/-! ## Operations on one client -/

/-- `v'` comes from `v` by changes to the client `fd` alone, which may have been erased. -/
structure Touches (fd : Fd) (v v' : Server) : Prop where
  keys : ∀ k ∈ v'.clients.keys, k ∈ v.clients.keys
  state : ∀ k, k ≠ fd → v'.clients.state k = v.clients.state k
  conns : ∀ k, k ≠ fd → v'.conns k = v.conns k

namespace Touches

variable {fd : Fd} {v v' v'' : Server}

/-- Nothing has changed. -/
theorem refl (fd : Fd) (v : Server) : Touches fd v v :=
  ⟨fun _ hk => hk, fun _ _ => rfl, fun _ _ => rfl⟩

/-- One operation on the client after the other. -/
theorem trans (h : Touches fd v v') (h' : Touches fd v' v'') : Touches fd v v'' where
  keys := fun k hk => h.keys k (h'.keys k hk)
  state := fun k hk => (h'.state k hk).trans (h.state k hk)
  conns := fun k hk => (h'.conns k hk).trans (h.conns k hk)

/-- The totals are not about any client. -/
theorem totals (h : Touches fd v v') (sent dropped : UInt64) :
    Touches fd v { v' with totalMsgsSent := sent, totalMsgsDropped := dropped } :=
  ⟨h.keys, h.state, h.conns⟩

/-- A change to the entry of the client, -/
theorem setClient (h : Touches fd v v') (cs : ClientState) : Touches fd v (v'.setClient fd cs) :=
  h.trans ⟨fun _ hk => hk, fun _ hk => Function.update_of_ne hk .., fun _ _ => rfl⟩

/-- to its connection, -/
theorem setConn (h : Touches fd v v') (conn : Connection) : Touches fd v (v'.setConn fd conn) :=
  h.trans ⟨fun _ hk => hk, fun _ _ => rfl, fun _ hk => Function.update_of_ne hk ..⟩

/-- and to its interest in `EPOLLOUT` leaves the others. -/
theorem armEpollout (h : Touches fd v v') (enable : Bool) : Touches fd v (v'.armEpollout fd enable) := h.setConn _

/-- So does `remove_client`. -/
theorem removeClient (h : Touches fd v v') : Touches fd v (v'.removeClient fd) := by
  unfold Server.removeClient
  split
  · refine h.trans ⟨fun k hk => List.mem_of_mem_erase hk, fun _ _ => rfl, ?_⟩
    intro k hk
    exact ((refl fd v').armEpollout false).conns k hk
  · exact h

end Touches

/-! ## The queue -/

/-- What holds of the client and its connection before `flush_queue`, and is kept when a whole buffer or a part of the first one goes
out, holds after it. -/
theorem flushQueue_induction {P : ClientState → Connection → Prop}
    (hwhole : ∀ (cs : ClientState) (conn : Connection) (buf : List UInt8) (rest : List (List UInt8)), cs.pending = buf :: rest →
      P cs conn →
        P { cs with
            pendingBytes := cs.pendingBytes - UInt64.ofNat buf.length
            bytesSent := cs.bytesSent + UInt64.ofNat buf.length
            msgsSent := cs.msgsSent + 1
            pending := rest } { conn with wire := conn.wire ++ buf })
    (hpart : ∀ (cs : ClientState) (conn : Connection) (buf : List UInt8) (rest : List (List UInt8)) (n : Nat),
      cs.pending = buf :: rest → n < buf.length → P cs conn →
        P { cs with
            pendingBytes := cs.pendingBytes - UInt64.ofNat n
            bytesSent := cs.bytesSent + UInt64.ofNat n
            pending := buf.drop n :: rest } { conn with wire := conn.wire ++ buf.take n })
    {cs : ClientState} {conn : Connection} (outs : Nat → SendOutcome) (h : P cs conn) :
    P (cs.flushQueue conn outs).1 (cs.flushQueue conn outs).2.1 := by
  have hloop : ∀ (pending : List (List UInt8)) (cs : ClientState) (conn : Connection) (outs : Nat → SendOutcome),
      cs.pending = pending → P cs conn →
        P (ClientState.flushLoop pending cs conn outs).1 (ClientState.flushLoop pending cs conn outs).2.1 := by
    intro pending
    induction pending with
    | nil => exact fun _ _ _ _ h => h
    | cons buf rest ih =>
      intro cs conn outs hp h
      unfold ClientState.flushLoop
      cases outs 0 with
      | accept k =>
        dsimp only
        split <;> rename_i hall
        · -- the whole buffer went out: the loop goes on with the rest
          rw [hall, List.take_length]
          exact ih _ _ _ rfl (hwhole cs conn buf rest hp h)
        · exact hpart cs conn buf rest _ hp (by omega) h
      | again => exact h
      | error => exact h
  exact hloop cs.pending cs conn outs rfl h

/-- `flush_queue` moves bytes from the front of the queue to the wire. -/
theorem flushQueue_stream (cs : ClientState) (conn : Connection) (outs : Nat → SendOutcome) :
    (cs.flushQueue conn outs).2.1.wire ++ (cs.flushQueue conn outs).1.pending.flatten = conn.wire ++ cs.pending.flatten := by
  refine flushQueue_induction (P := fun cs' conn' => conn'.wire ++ cs'.pending.flatten = conn.wire ++ cs.pending.flatten) ?_ ?_ outs rfl
  · intro cs' conn' buf rest hp h
    dsimp only
    rw [← h, hp, List.flatten_cons, List.append_assoc]
  · intro cs' conn' buf rest n hp _ h
    dsimp only
    rw [← h, hp, List.flatten_cons, List.flatten_cons, List.append_assoc, ← List.append_assoc (List.take _ _),
      List.take_append_drop]

/-- `flush_queue` touches neither the interest set nor what was handed over, and drops nothing. -/
theorem flushQueue_frame (cs : ClientState) (conn : Connection) (outs : Nat → SendOutcome) :
    (cs.flushQueue conn outs).2.1.handed = conn.handed ∧ (cs.flushQueue conn outs).2.1.epollOut = conn.epollOut ∧
      (cs.flushQueue conn outs).1.msgsDropped = cs.msgsDropped :=
  flushQueue_induction
    (P := fun cs' conn' => conn'.handed = conn.handed ∧ conn'.epollOut = conn.epollOut ∧ cs'.msgsDropped = cs.msgsDropped)
    (fun _ _ _ _ _ h => h) (fun _ _ _ _ _ _ _ h => h) outs ⟨rfl, rfl, rfl⟩

/-- It says whether the queue is empty. -/
theorem flushQueue_done (cs : ClientState) (conn : Connection) (outs : Nat → SendOutcome) :
    (cs.flushQueue conn outs).2.2 = true ↔ (cs.flushQueue conn outs).1.pending = [] := by
  have hloop : ∀ (pending : List (List UInt8)) (cs : ClientState) (conn : Connection) (outs : Nat → SendOutcome),
      cs.pending = pending →
        ((ClientState.flushLoop pending cs conn outs).2.2 = true ↔ (ClientState.flushLoop pending cs conn outs).1.pending = []) := by
    intro pending
    induction pending with
    | nil =>
      intro cs conn outs hp
      simp [ClientState.flushLoop, hp]
    | cons buf rest ih =>
      intro cs conn outs hp
      unfold ClientState.flushLoop
      cases outs 0 with
      | accept k =>
        dsimp only
        split
        · exact ih _ _ _ rfl
        · simp
      | again => simp [hp]
      | error => simp [hp]
  exact hloop cs.pending cs conn outs rfl

/-- `flush_pending` leaves the other clients. -/
theorem flushPending_touches (v : Server) (fd : Fd) (outs : Nat → SendOutcome) : Touches fd v (v.flushPending fd outs) := by
  unfold Server.flushPending
  split
  · exact .refl fd v
  · dsimp only
    split
    · exact (((Touches.refl fd v).setClient _).setConn _).armEpollout _
    · exact ((Touches.refl fd v).setClient _).setConn _

/-- The client and its connection after `flush_pending`: it disarms `EPOLLOUT` when everything went out. -/
theorem flushPending_client {v : Server} {fd : Fd} (outs : Nat → SendOutcome) (hmem : fd ∈ v.clients.keys) :
    (v.flushPending fd outs).clients.state fd = ((v.clients.state fd).flushQueue (v.conns fd) outs).1 ∧
      (v.flushPending fd outs).conns fd =
        { ((v.clients.state fd).flushQueue (v.conns fd) outs).2.1 with
          epollOut := if ((v.clients.state fd).flushQueue (v.conns fd) outs).2.2 = true then false
            else ((v.clients.state fd).flushQueue (v.conns fd) outs).2.1.epollOut } := by
  unfold Server.flushPending
  rw [find_of_mem hmem]
  dsimp only
  split <;> rename_i hflushed
  · exact ⟨by simp, by simp⟩
  · exact ⟨by simp, by simp⟩

/-- A subscription touches neither the queue nor the counters. -/
theorem onRecv_frame (cs : ClientState) (data : List UInt8) :
    (cs.onRecv data).pending = cs.pending ∧ (cs.onRecv data).pendingBytes = cs.pendingBytes ∧
      (cs.onRecv data).bytesSent = cs.bytesSent ∧ (cs.onRecv data).msgsSent = cs.msgsSent ∧
      (cs.onRecv data).msgsDropped = cs.msgsDropped := by
  unfold ClientState.onRecv
  dsimp only
  split_ifs <;> exact ⟨rfl, rfl, rfl, rfl, rfl⟩

/-! ## Sending -/

/-- `send_to` for a client that is there, in terms of what it comes to for the client. -/
theorem sendTo_eq {v : Server} {fd : Fd} (hmem : fd ∈ v.clients.keys) (data : List UInt8) (out : SendOutcome) (now : Int64) :
    v.sendTo fd data out now =
      let r := (v.clients.state fd).sendResult (v.conns fd) data out now
      (if r.stays then v.afterSend fd r else (v.afterSend fd r).removeClient fd, r.stays) := by
  unfold Server.sendTo ClientState.sendResult
  rw [find_of_mem hmem]
  dsimp only
  by_cases hp : (v.clients.state fd).pending ≠ []
  · rw [if_pos hp, if_pos hp]
    by_cases hlimit : ((v.clients.state fd).enqueue data).pendingBytes > slowClientDropBytes
    · simp [Server.afterSend, Server.setClient, Server.setConn, hlimit]
    · simp [Server.afterSend, Server.setClient, Server.setConn, hlimit]
  · rw [if_neg hp, if_neg hp]
    cases out with
    | accept k =>
      by_cases hall : min (k + 1) data.length = data.length
      · simp [Server.afterSend, Server.setClient, Server.setConn, hall]
      · simp [Server.afterSend, Server.setClient, Server.setConn, Server.armEpollout, hall]
    | again => simp [Server.afterSend, Server.setClient, Server.setConn, Server.armEpollout]
    | error => simp [Server.afterSend, Server.setClient, Server.setConn, ClientTable.set]

/-- The client stays unless it is dropped. -/
theorem stays_iff (cs : ClientState) (conn : Connection) (data : List UInt8) (out : SendOutcome) (now : Int64) :
    (cs.sendResult conn data out now).stays = true ↔ ¬Drops cs data out := by
  unfold ClientState.sendResult Drops
  by_cases hp : cs.pending ≠ []
  · rw [if_pos hp, if_pos hp]
    exact decide_eq_true_iff
  · rw [if_neg hp, if_neg hp]
    cases out with
    | accept k =>
      dsimp only
      split_ifs <;> simp
    | again => simp
    | error => simp

/-- A client that is not dropped. -/
theorem sendTo_stays {v : Server} {fd : Fd} {data : List UInt8} {out : SendOutcome} (now : Int64) (hmem : fd ∈ v.clients.keys)
    (hd : ¬Drops (v.clients.state fd) data out) :
    (v.sendTo fd data out now).1 = v.afterSend fd ((v.clients.state fd).sendResult (v.conns fd) data out now) := by
  rw [sendTo_eq hmem]
  exact if_pos ((stays_iff _ _ _ _ now).mpr hd)

/-- What a `send_to` comes to is about its client alone. -/
theorem afterSend_touches (v : Server) (fd : Fd) (r : SendResult) : Touches fd v (v.afterSend fd r) :=
  Touches.totals (((Touches.refl fd v).setClient _).setConn _) _ _

@[simp] theorem afterSend_state (v : Server) (fd : Fd) (r : SendResult) : (v.afterSend fd r).clients.state fd = r.cs :=
  Function.update_self ..

@[simp] theorem afterSend_conns (v : Server) (fd : Fd) (r : SendResult) : (v.afterSend fd r).conns fd = r.conn :=
  Function.update_self ..

/-- `send_to` leaves the other clients, also when it drops its own. -/
theorem sendTo_touches (v : Server) (fd : Fd) (data : List UInt8) (out : SendOutcome) (now : Int64) :
    Touches fd v (v.sendTo fd data out now).1 := by
  by_cases hmem : fd ∈ v.clients.keys
  · rw [sendTo_eq hmem]
    dsimp only
    split
    · exact afterSend_touches v fd _
    · exact (afterSend_touches v fd _).removeClient
  · have hnone : v.clients.find fd = none := if_neg hmem
    unfold Server.sendTo
    rw [hnone]
    exact .refl fd v

/-- A dropped client is erased. -/
theorem sendTo_drops {v : Server} {fd : Fd} {data : List UInt8} {out : SendOutcome} (now : Int64)
    (hmem : fd ∈ v.clients.keys) (hd : Drops (v.clients.state fd) data out) :
    (v.sendTo fd data out now).1.clients.keys = v.clients.keys.erase fd := by
  have hgoes : ¬((v.clients.state fd).sendResult (v.conns fd) data out now).stays = true := by
    rw [stays_iff]
    exact not_not_intro hd
  rw [sendTo_eq hmem]
  dsimp only
  rw [if_neg hgoes]
  exact removeClient_keys hmem

/-- The message of a `send_to` that keeps its client goes to the wire or to the queue, behind what is there. -/
theorem sendResult_stream {cs : ClientState} {conn : Connection} {data : List UInt8} {out : SendOutcome} (now : Int64)
    (hd : ¬Drops cs data out) (h : conn.wire ++ cs.pending.flatten = conn.handed.flatten) :
    (cs.sendResult conn data out now).conn.wire ++ (cs.sendResult conn data out now).cs.pending.flatten =
      (cs.sendResult conn data out now).conn.handed.flatten := by
  unfold ClientState.sendResult
  by_cases hp : cs.pending ≠ []
  · rw [if_pos hp]
    simp [ClientState.enqueue, ← h]
  · rw [if_neg hp]
    have hnil : cs.pending = [] := by simpa using hp
    rw [hnil, List.flatten_nil, List.append_nil] at h
    cases out with
    | accept k =>
      dsimp only
      split_ifs with hall
      · simp [hall, hnil, ← h]
      · simp [ClientState.enqueue, hnil, h]
    | again => simp [ClientState.enqueue, hnil, ← h]
    | error => simp [Drops, hnil] at hd

/-- A client that is not dropped stays in the table and in step. -/
theorem sendTo_keeps {v : Server} {fd : Fd} {data : List UInt8} {out : SendOutcome} (now : Int64)
    (hmem : fd ∈ v.clients.keys) (hd : ¬Drops (v.clients.state fd) data out) :
    (v.sendTo fd data out now).1.clients.keys = v.clients.keys ∧
      (v.InStep fd → (v.sendTo fd data out now).1.InStep fd) := by
  rw [sendTo_stays now hmem hd]
  refine ⟨rfl, ?_⟩
  unfold Server.InStep
  rw [afterSend_state, afterSend_conns]
  exact sendResult_stream now hd

end ClientSendAux

end MarketFeed
