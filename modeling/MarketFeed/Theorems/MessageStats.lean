import MarketFeed.StatsLog
import MarketFeed.Lib.KeySums
import MarketFeed.Lemmas.ClientRuns

/-!
# Message statistics

`msgs_sent` is the number of messages whose last byte the kernel has accepted, on every run: both `send_to` and `flush_queue` count a
message when the rest of it goes out (`ChunksOk`). `total_msgs_sent_` moves in `send_to` alone, so it falls behind as soon as
`flush_queue` finishes a message. `msgs_dropped` and its total move together, for messages that `send_to` puts in the queue, and those
are not dropped unless the client is.
-/

namespace MarketFeed

/-- `send_to` does not put a whole message in the queue, except to drop the client over the limit. -/
def QueuesNone (cs : ClientState) (data : List UInt8) (out : SendOutcome) : Prop :=
  if cs.pending ≠ [] then (cs.enqueue data).pendingBytes > slowClientDropBytes else out ≠ .again

/-- `flush_queue` does not finish a buffer. -/
def FinishesNone (cs : ClientState) (outs : Nat → SendOutcome) : Prop :=
  match cs.pending, outs 0 with
  | buf :: _, .accept k => k + 1 < buf.length
  | _, _ => True

/-- The operation counts what it does once. -/
def Server.CountsOnce (v : Server) : ServerEvent → Prop
  | .flush fd outs => fd ∈ v.clients.keys → FinishesNone (v.clients.state fd) outs
  | e => v.SendsOk QueuesNone e

/-- The buffers of a queue with the part of the first one that has gone out. -/
def restore (front : List UInt8) : List (List UInt8) → List (List UInt8)
  | [] => []
  | buf :: rest => (front ++ buf) :: rest

/-- The messages of a client are those sent, which `msgs_sent` counts, and those in the queue, the first of them less a part that
has gone out. -/
def ChunksOk (cs : ClientState) (conn : Connection) : Prop :=
  ∃ sent front, conn.handed = sent ++ restore front cs.pending ∧ conn.wire = sent.flatten ++ front ∧
    cs.msgsSent = UInt64.ofNat sent.length ∧ (∀ buf ∈ cs.pending, buf ≠ []) ∧ (cs.pending = [] → front = [])

namespace MessageStatsAux

open ClientSendAux ClientRunsAux BroadcastAux

/-! ## Messages accepted -/

/-- The messages at the front of the stream are accepted, and those behind them are not when the first of them is not. -/
theorem accepted_eq {conn : Connection} {sent late : List (List UInt8)} (hsplit : conn.handed = sent ++ late)
    (hle : sent.flatten.length ≤ conn.wire.length)
    (hlate : ∀ m ms, late = m :: ms → conn.wire.length < sent.flatten.length + m.length) : conn.accepted = sent.length := by
  have hfront : (List.range sent.length).countP (fun i => conn.msgEnd i ≤ conn.wire.length) = sent.length := by
    refine (List.countP_eq_length.mpr ?_).trans List.length_range
    intro i hi
    rw [List.mem_range] at hi
    have hmono : (sent.take (i + 1)).flatten.length ≤ sent.flatten.length := by
      conv_rhs => rw [← List.take_append_drop (i + 1) sent]
      rw [List.flatten_append, List.length_append]
      omega
    rw [decide_eq_true_iff, Connection.msgEnd, hsplit, List.take_append_of_le_length (by omega)]
    omega
  have hback : ((List.range late.length).map (sent.length + ·)).countP (fun i => conn.msgEnd i ≤ conn.wire.length) = 0 := by
    rw [List.countP_eq_zero]
    intro i hi
    obtain ⟨j, hj, rfl⟩ := List.mem_map.mp hi
    rw [List.mem_range] at hj
    cases late with
    | nil => simp at hj
    | cons m ms =>
      have hlt := hlate m ms rfl
      have htake : (sent ++ m :: ms).take (sent.length + j + 1) = sent ++ m :: ms.take j := by
        rw [Nat.add_assoc, List.take_length_add_append, List.take_succ_cons]
      rw [decide_eq_true_iff, Connection.msgEnd, hsplit, htake, List.flatten_append, List.length_append, List.flatten_cons,
        List.length_append]
      omega
  unfold Connection.accepted
  rw [hsplit, List.length_append, List.range_add, List.countP_append, hfront, hback, Nat.add_zero]

/-- The bytes on the wire and those in the queue are those of the messages. -/
theorem chunksOk_length {cs : ClientState} {conn : Connection} (h : ChunksOk cs conn) :
    conn.wire.length + cs.pending.flatten.length = conn.handed.flatten.length := by
  obtain ⟨sent, front, hhanded, hwire, -, -, hfront⟩ := h
  rw [hhanded, hwire]
  cases hp : cs.pending with
  | nil => simp [restore, hfront hp]
  | cons buf rest =>
    simp only [restore, List.flatten_append, List.flatten_cons, List.length_append]
    omega

/-- `msgs_sent` is the number of accepted messages, also when more messages come without a byte of them going out. -/
theorem chunksOk_accepted {cs : ClientState} {conn conn' : Connection} {more : List (List UInt8)} (h : ChunksOk cs conn)
    (hwire : conn'.wire = conn.wire) (hhanded : conn'.handed = conn.handed ++ more) (hmore : ∀ m ∈ more, m ≠ []) :
    cs.msgsSent = UInt64.ofNat conn'.accepted := by
  obtain ⟨sent, front, hold, hoff, hsent, hne, hfront⟩ := h
  have hsplit : conn'.handed = sent ++ (restore front cs.pending ++ more) := by
    rw [hhanded, hold, List.append_assoc]
  rw [hsent, accepted_eq hsplit]
  · rw [hwire, hoff, List.length_append]
    omega
  · intro m ms hm
    rw [hwire, hoff, List.length_append]
    cases hp : cs.pending with
    | nil =>
      rw [hp, restore, List.nil_append] at hm
      have hpos := List.length_pos_iff.mpr (hmore m (hm ▸ List.mem_cons_self))
      rw [hfront hp, List.length_nil]
      omega
    | cons buf rest =>
      rw [hp] at hm
      cases hm
      have hpos := List.length_pos_iff.mpr (hne buf (hp ▸ List.mem_cons_self))
      rw [List.length_append]
      omega

/-- So `msgs_sent` is the number of accepted messages. -/
theorem chunksOk_sent {cs : ClientState} {conn : Connection} (h : ChunksOk cs conn) :
    cs.msgsSent = UInt64.ofNat conn.accepted :=
  chunksOk_accepted h rfl (List.append_nil _).symm (by simp)

/-- A message that is put in the queue. -/
theorem chunksOk_enqueue {cs : ClientState} {conn : Connection} (data : List UInt8) (hdata : data ≠ []) (dropped : UInt64)
    (epollOut : Bool) (h : ChunksOk cs conn) :
    ChunksOk { cs.enqueue data with msgsDropped := dropped } { conn with handed := conn.handed ++ [data], epollOut } := by
  obtain ⟨sent, front, hhanded, hwire, hsent, hne, hfront⟩ := h
  refine ⟨sent, front, ?_, hwire, hsent, ?_, by simp [ClientState.enqueue]⟩
  · dsimp only [ClientState.enqueue]
    rw [hhanded, List.append_assoc]
    cases hp : cs.pending with
    | nil => simp [restore, hfront hp]
    | cons buf rest => simp [restore]
  · intro buf hbuf
    rcases List.mem_append.mp hbuf with hbuf | hbuf
    · exact hne buf hbuf
    · rw [List.mem_singleton.mp hbuf]
      exact hdata

/-- One more message sent. -/
theorem ofNat_length_snoc (sent : List (List UInt8)) (m : List UInt8) :
    UInt64.ofNat (sent ++ [m]).length = UInt64.ofNat sent.length + 1 := by
  rw [List.length_append, List.length_singleton, UInt64.ofNat_add]
  rfl

/-- `send_to` puts the message behind those it knows: sent, or queued with what is left of it. -/
theorem chunksOk_send {cs : ClientState} {conn : Connection} {data : List UInt8} {out : SendOutcome} (now : Int64)
    (hdata : data ≠ []) (herror : cs.pending = [] → out ≠ .error) (h : ChunksOk cs conn) :
    ChunksOk (cs.sendResult conn data out now).cs (cs.sendResult conn data out now).conn := by
  unfold ClientState.sendResult
  by_cases hp : cs.pending ≠ []
  · rw [if_pos hp]
    exact chunksOk_enqueue data hdata _ conn.epollOut h
  · rw [if_neg hp]
    have hnil : cs.pending = [] := by simpa using hp
    cases out with
    | accept k =>
      obtain ⟨sent, front, hhanded, hwire, hsent, -, hfront⟩ := h
      rw [hnil, restore, List.append_nil] at hhanded
      rw [hfront hnil, List.append_nil] at hwire
      dsimp only
      split_ifs with hall
      · refine ⟨sent ++ [data], [], ?_, ?_, ?_, ?_, fun _ => rfl⟩
        · simp [hhanded, hnil, restore]
        · simp [hwire, hall]
        · rw [ofNat_length_snoc, ← hsent]
        · simp [hnil]
      · refine ⟨sent, data.take (min (k + 1) data.length), ?_, ?_, hsent, ?_, ?_⟩
        · simp only [ClientState.enqueue, hnil, List.nil_append, restore, List.take_append_drop, hhanded]
        · rw [hwire]
        · simp only [ClientState.enqueue, hnil, List.nil_append, List.mem_singleton, forall_eq, ne_eq, List.drop_eq_nil_iff]
          omega
        · simp [ClientState.enqueue]
    | again => exact chunksOk_enqueue data hdata _ true h
    | error => exact absurd rfl (herror hnil)

/-- `flush_queue` takes messages from the front of the queue to those sent. -/
theorem chunksOk_flush {cs : ClientState} {conn : Connection} (outs : Nat → SendOutcome) (h : ChunksOk cs conn) :
    ChunksOk (cs.flushQueue conn outs).1 (cs.flushQueue conn outs).2.1 := by
  refine flushQueue_induction ?_ ?_ outs h
  · -- the last byte of the message went out
    intro cs conn buf rest hp h
    obtain ⟨sent, front, hhanded, hwire, hsent, hne, -⟩ := h
    rw [hp, restore] at hhanded
    rw [hp] at hne
    refine ⟨sent ++ [front ++ buf], [], ?_, ?_, ?_, fun b hb => hne b (List.mem_cons_of_mem buf hb), fun _ => rfl⟩
    · have hrest : restore [] rest = rest := by cases rest <;> rfl
      rw [hhanded, hrest, List.append_assoc, List.singleton_append]
    · simp [hwire]
    · rw [ofNat_length_snoc, ← hsent]
  · intro cs conn buf rest n hp hn h
    obtain ⟨sent, front, hhanded, hwire, hsent, hne, -⟩ := h
    rw [hp, restore] at hhanded
    rw [hp] at hne
    refine ⟨sent, front ++ buf.take n, ?_, ?_, hsent, ?_, by simp⟩
    · simp only [restore, List.append_assoc, List.take_append_drop, hhanded]
    · simp only [hwire, List.append_assoc]
    · intro b hb
      rcases List.mem_cons.mp hb with rfl | hb
      · rw [ne_eq, List.drop_eq_nil_iff]
        omega
      · exact hne b (List.mem_cons_of_mem buf hb)

/-- Whatever the kernel does, the messages sent are those counted. -/
theorem chunksOk_rule : ClientRule (fun _ data _ => data ≠ []) ChunksOk where
  added := by
    intro fd peerAddr now
    exact ⟨[], [], rfl, rfl, rfl, by simp, fun _ => rfl⟩
  received := by
    intro cs conn data h
    obtain ⟨hpending, -, -, hsent, -⟩ := onRecv_frame cs data
    unfold ChunksOk
    rw [hpending, hsent]
    exact h
  sent := by
    intro cs conn data out now hdata hd h
    refine chunksOk_send now hdata ?_ h
    intro hnil he
    exact hd (by simp [Drops, hnil, he])
  flushed := by
    intro cs conn outs h
    exact chunksOk_flush outs h

/-- A message that goes neither to the kernel nor to the queue is not accepted, and the accepted messages are as before. -/
theorem refused_message {cs : ClientState} {conn conn' : Connection} {data : List UInt8} (hdata : data ≠ []) (h : ChunksOk cs conn)
    (hwire : conn'.wire = conn.wire) (hhanded : conn'.handed = conn.handed ++ [data]) :
    cs.msgsSent = UInt64.ofNat conn'.accepted ∧ conn.handed.length < conn'.handed.length ∧
      conn'.wire.length < conn'.msgEnd conn.handed.length := by
  have hlen := chunksOk_length h
  have hpos := List.length_pos_iff.mpr hdata
  refine ⟨chunksOk_accepted h hwire hhanded (by simpa using hdata), by simp [hhanded], ?_⟩
  have hall : (conn.handed ++ [data]).take (conn.handed.length + 1) = conn.handed ++ [data] := by simp
  rw [Connection.msgEnd, hhanded, hall, hwire, List.flatten_append, List.length_append, List.flatten_singleton]
  omega

/-- A `send_to` that drops its client takes the message no further; it is counted when it was the backlog. -/
theorem drops_result {cs : ClientState} {data : List UInt8} {out : SendOutcome} (conn : Connection) (now : Int64)
    (hd : Drops cs data out) :
    (cs.sendResult conn data out now).cs.msgsSent = cs.msgsSent ∧
      (cs.sendResult conn data out now).conn.wire = conn.wire ∧
      (cs.sendResult conn data out now).conn.handed = conn.handed ++ [data] ∧
      ((cs.sendResult conn data out now).cs.msgsDropped = cs.msgsDropped ∨
        (cs.sendResult conn data out now).cs.msgsDropped = cs.msgsDropped + 1) := by
  unfold Drops at hd
  unfold ClientState.sendResult
  by_cases hp : cs.pending ≠ []
  · rw [if_pos hp]
    exact ⟨rfl, rfl, rfl, Or.inr rfl⟩
  · rw [if_neg hp] at hd ⊢
    subst hd
    exact ⟨rfl, rfl, rfl, Or.inl rfl⟩

/-! ## The totals -/

/-- A counter of the clients and a total that `send_to` moves together. -/
structure CountsWith (f : ClientState → UInt64) (t : Server → UInt64) (d : SendResult → UInt64) : Prop where
  added : ∀ (fd : Fd) (peerAddr : String) (now : Int64), f { fd, connectedAt := now, lastSend := now, peerAddr } = 0
  received : ∀ (cs : ClientState) (data : List UInt8), f (cs.onRecv data) = f cs
  sent : ∀ (cs : ClientState) (conn : Connection) (data : List UInt8) (out : SendOutcome) (now : Int64),
    f (cs.sendResult conn data out now).cs = f cs + d (cs.sendResult conn data out now)
  afterSend : ∀ (v : Server) (fd : Fd) (r : SendResult), t (v.afterSend fd r) = t v + d r
  frame : ∀ v v' : Server, v'.totalMsgsSent = v.totalMsgsSent → v'.totalMsgsDropped = v.totalMsgsDropped → t v' = t v

/-- `send_to` adds to the counters of its client what it adds to the totals. -/
theorem sendResult_counts (cs : ClientState) (conn : Connection) (data : List UInt8) (out : SendOutcome) (now : Int64) :
    (cs.sendResult conn data out now).cs.msgsSent = cs.msgsSent + (cs.sendResult conn data out now).sent ∧
      (cs.sendResult conn data out now).cs.msgsDropped = cs.msgsDropped + (cs.sendResult conn data out now).dropped := by
  unfold ClientState.sendResult
  by_cases hp : cs.pending ≠ []
  · rw [if_pos hp]
    exact ⟨(UInt64.add_zero _).symm, rfl⟩
  · rw [if_neg hp]
    cases out with
    | accept k =>
      dsimp only
      split_ifs
      · exact ⟨rfl, (UInt64.add_zero _).symm⟩
      · exact ⟨(UInt64.add_zero _).symm, (UInt64.add_zero _).symm⟩
    | again => exact ⟨(UInt64.add_zero _).symm, rfl⟩
    | error => exact ⟨(UInt64.add_zero _).symm, (UInt64.add_zero _).symm⟩

/-- `msgs_sent` and its total, -/
theorem sent_countsWith : CountsWith (fun cs => cs.msgsSent) (fun v => v.totalMsgsSent) (fun r => r.sent) where
  added := fun _ _ _ => rfl
  received := fun cs data => (onRecv_frame cs data).2.2.2.1
  sent := fun cs conn data out now => (sendResult_counts cs conn data out now).1
  afterSend := fun _ _ _ => rfl
  frame := fun _ _ h _ => h

/-- and `msgs_dropped` and its total are such a pair. -/
theorem dropped_countsWith :
    CountsWith (fun cs => cs.msgsDropped) (fun v => v.totalMsgsDropped) (fun r => r.dropped) where
  added := fun _ _ _ => rfl
  received := fun cs data => (onRecv_frame cs data).2.2.2.2
  sent := fun cs conn data out now => (sendResult_counts cs conn data out now).2
  afterSend := fun _ _ _ => rfl
  frame := fun _ _ _ h => h

/-- The counter summed over the entries of the keys, whether they are still in the table or not. -/
def sumOver (f : ClientState → UInt64) (keys : List Fd) (v : Server) : UInt64 := (keys.map fun fd => f (v.clients.state fd)).sum

variable {f : ClientState → UInt64} {t : Server → UInt64} {d : SendResult → UInt64} {v v' : Server} {c : UInt64} {keys : List Fd}

/-- A `send_to` keeps the total the sum. -/
theorem sumOver_afterSend (hf : CountsWith f t d) (hnodup : keys.Nodup) {fd : Fd} (hmem : fd ∈ keys) (data : List UInt8)
    (out : SendOutcome) (now : Int64) (h : t v = c + sumOver f keys v) :
    t (v.afterSend fd ((v.clients.state fd).sendResult (v.conns fd) data out now)) =
      c + sumOver f keys (v.afterSend fd ((v.clients.state fd).sendResult (v.conns fd) data out now)) := by
  have hsum : sumOver f keys (v.afterSend fd ((v.clients.state fd).sendResult (v.conns fd) data out now)) =
      sumOver f keys v + d ((v.clients.state fd).sendResult (v.conns fd) data out now) := by
    refine KeySums.sum_of_add hnodup hmem ?_ ?_
    · rw [afterSend_state, hf.sent]
    · intro j _ hj
      rw [(afterSend_touches v fd _).state j hj]
  rw [hf.afterSend, h, hsum, UInt64.add_assoc]

/-- An operation that moves neither the counter of any client nor the total. -/
theorem sumOver_frame (hstate : ∀ fd ∈ keys, f (v'.clients.state fd) = f (v.clients.state fd)) (ht : t v' = t v)
    (h : t v = c + sumOver f keys v) : t v' = c + sumOver f keys v' := by
  have hmap : (keys.map fun fd => f (v'.clients.state fd)) = keys.map fun fd => f (v.clients.state fd) := List.map_congr_left hstate
  unfold sumOver at h ⊢
  rw [ht, h, hmap]

/-- `remove_client` leaves the totals. -/
theorem removeClient_totals (v : Server) (fd : Fd) :
    (v.removeClient fd).totalMsgsSent = v.totalMsgsSent ∧ (v.removeClient fd).totalMsgsDropped = v.totalMsgsDropped := by
  unfold Server.removeClient
  split
  · exact ⟨rfl, rfl⟩
  · exact ⟨rfl, rfl⟩

/-- The sum over the keys from before is not changed by it, -/
theorem sumOver_removeClient (hf : CountsWith f t d) (fd : Fd) (h : t v = c + sumOver f keys v) :
    t (v.removeClient fd) = c + sumOver f keys (v.removeClient fd) := by
  obtain ⟨hsent, hdropped⟩ := removeClient_totals v fd
  refine sumOver_frame (fun k _ => ?_) (hf.frame _ _ hsent hdropped) h
  rw [(removeClient_frame v fd).1]

/-- nor by `tick`. -/
theorem sumOver_tick (hf : CountsWith f t d) (h : t v = c + sumOver f keys v) : t v.tick = c + sumOver f keys v.tick := by
  unfold Server.tick
  generalize v.clients.keys.filter _ = toRemove
  dsimp only
  induction toRemove generalizing v with
  | nil => exact h
  | cons fd toRemove ih => exact ih (sumOver_removeClient hf fd h)

/-- `send_to` keeps the total the sum, also when it drops its client. -/
theorem sumOver_sendTo (hf : CountsWith f t d) (fd : Fd) (data : List UInt8) (out : SendOutcome) (now : Int64)
    (h : t v = c + sumOver f v.clients.keys v) :
    t (v.sendTo fd data out now).1 = c + sumOver f v.clients.keys (v.sendTo fd data out now).1 := by
  by_cases hmem : fd ∈ v.clients.keys
  · have hafter := sumOver_afterSend hf v.clients.nodup hmem data out now h
    rw [sendTo_eq hmem]
    dsimp only
    split
    · exact hafter
    · exact sumOver_removeClient hf fd hafter
  · have hnone : v.clients.find fd = none := if_neg hmem
    unfold Server.sendTo
    rw [hnone]
    exact h

/-- So does `broadcast`. -/
theorem sumOver_broadcast (hf : CountsWith f t d) {data : List UInt8} {outs : Fd → SendOutcome} {now : Int64} {calls : List Fd}
    (hdone : v.broadcast data outs now = .done v' calls) (h : t v = c + sumOver f v.clients.keys v) :
    t v' = c + sumOver f v.clients.keys v' := by
  have hboth : v'.clients.keys = v.clients.keys ∧ t v' = c + sumOver f v.clients.keys v' := by
    refine broadcast_induction (P := fun u => u.clients.keys = v.clients.keys ∧ t u = c + sumOver f v.clients.keys u) hdone
      ⟨rfl, h⟩ ?_
    intro u fd hu hmem hstate hconn _ _
    rw [← hstate, ← hconn]
    exact ⟨hu.1, sumOver_afterSend hf v.clients.nodup (hu.1 ▸ hmem) data (outs fd) now hu.2⟩
  exact hboth.2

/-- `flush_pending` leaves the totals. -/
theorem flushPending_totals (v : Server) (fd : Fd) (outs : Nat → SendOutcome) :
    (v.flushPending fd outs).totalMsgsSent = v.totalMsgsSent ∧
      (v.flushPending fd outs).totalMsgsDropped = v.totalMsgsDropped := by
  unfold Server.flushPending
  split
  · exact ⟨rfl, rfl⟩
  · dsimp only
    split
    · exact ⟨rfl, rfl⟩
    · exact ⟨rfl, rfl⟩

/-- It keeps them the sums when it leaves the counter of its client. -/
theorem sumOver_flushPending (hf : CountsWith f t d) (fd : Fd) (outs : Nat → SendOutcome)
    (hflush : fd ∈ v.clients.keys → f ((v.clients.state fd).flushQueue (v.conns fd) outs).1 = f (v.clients.state fd))
    (h : t v = c + sumOver f v.clients.keys v) :
    t (v.flushPending fd outs) = c + sumOver f v.clients.keys (v.flushPending fd outs) := by
  obtain ⟨hsent, hdropped⟩ := flushPending_totals v fd outs
  refine sumOver_frame (fun k hk => ?_) (hf.frame _ _ hsent hdropped) h
  by_cases hkfd : k = fd
  · subst hkfd
    rw [(flushPending_client outs hk).1]
    exact hflush hk
  · rw [(flushPending_touches v fd outs).state k hkfd]

/-- `on_recv` leaves both. -/
theorem sumOver_onRecv (hf : CountsWith f t d) (fd : Fd) (data : List UInt8) (h : t v = c + sumOver f keys v) :
    t (v.onRecv fd data) = c + sumOver f keys (v.onRecv fd data) := by
  unfold Server.onRecv
  split
  · exact h
  · rename_i cs hfind
    obtain ⟨-, hcs⟩ := find_eq_some hfind
    refine sumOver_frame (fun k _ => ?_) (hf.frame v _ rfl rfl) h
    by_cases hkfd : k = fd
    · subst hkfd
      rw [setClient_state_self, hf.received, hcs]
    · rw [((Touches.refl fd v).setClient _).state k hkfd]

/-- The clients that stay and those that go, after an operation that adds none. -/
theorem sumOver_split (hsub : ∀ fd ∈ v'.clients.keys, fd ∈ v.clients.keys) (h : t v' = c + sumOver f v.clients.keys v') :
    t v' = c + (sumOver f v'.clients.keys v' + sumOver f (v.clients.keys.filter fun fd => fd ∉ v'.clients.keys) v') := by
  have hsplit := KeySums.sum_stay_add_go v.clients.nodup v'.clients.nodup hsub (fun fd => f (v'.clients.state fd))
  unfold sumOver at h ⊢
  rw [hsplit, h]

/-- A new client starts with nothing counted, so the totals are still the sums. -/
theorem sumOver_addClient (hf : CountsWith f t d) {fd : Fd} {order : List Fd} (horder : order.Perm (fd :: v.clients.keys))
    (hfresh : fd ∉ v.clients.keys) (peerAddr : String) (now : Int64) (h : t v = c + sumOver f v.clients.keys v) :
    t (v.addClient fd peerAddr now order) = c + (sumOver f (v.addClient fd peerAddr now order).clients.keys
        (v.addClient fd peerAddr now order) + sumOver f
        (v.clients.keys.filter fun k => k ∉ (v.addClient fd peerAddr now order).clients.keys) (v.addClient fd peerAddr now order)) := by
  have hnodup : order.Nodup := horder.nodup_iff.mpr (List.nodup_cons.mpr ⟨hfresh, v.clients.nodup⟩)
  have hclients : (v.addClient fd peerAddr now order).clients =
      { keys := order, nodup := hnodup
        state := Function.update v.clients.state fd { fd, connectedAt := now, lastSend := now, peerAddr } } := by
    simp only [Server.addClient, ClientTable.emplace, dif_pos hnodup]
  have hgone : (v.clients.keys.filter fun k => k ∉ order) = [] := by
    rw [List.filter_eq_nil_iff]
    intro k hk
    simp [horder.mem_iff, hk]
  have hrest : (v.clients.keys.map fun k =>
      f (Function.update v.clients.state fd { fd, connectedAt := now, lastSend := now, peerAddr } k)) =
        v.clients.keys.map fun k => f (v.clients.state k) := by
    refine List.map_congr_left (fun k hk => ?_)
    have hne : k ≠ fd := by
      intro he
      exact hfresh (he ▸ hk)
    rw [Function.update_of_ne hne]
  have ht : t (v.addClient fd peerAddr now order) = t v := hf.frame _ _ rfl rfl
  unfold sumOver at h ⊢
  rw [hclients]
  dsimp only
  rw [hgone, (horder.map _).sum_eq, List.map_cons, List.sum_cons, Function.update_self, hf.added, hrest, ht, h, List.map_nil,
    List.sum_nil, add_zero, zero_add]

/-- Every operation moves the counter and the total together, a `flush_pending` as far as it leaves the counter alone. -/
theorem sumOver_step (hf : CountsWith f t d) {e : ServerEvent} (hs : v.step e = some v')
    (hflush : ∀ fd outs, e = .flush fd outs → fd ∈ v.clients.keys →
      f ((v.clients.state fd).flushQueue (v.conns fd) outs).1 = f (v.clients.state fd))
    (h : t v = c + sumOver f v.clients.keys v) :
    t v' = c + (sumOver f v'.clients.keys v' + sumOver f (v.clients.keys.filter fun fd => fd ∉ v'.clients.keys) v') := by
  cases e with
  | accept fd peerAddr now order =>
    simp only [Server.step] at hs
    split at hs <;> rename_i hfresh
    · cases hs
      exact sumOver_addClient hf hfresh.2 hfresh.1 peerAddr now h
    · cases hs
  | remove fd =>
    cases hs
    exact sumOver_split ((Touches.refl fd v).removeClient).keys (sumOver_removeClient hf fd h)
  | recv fd data =>
    cases hs
    exact sumOver_split (fun k hk => onRecv_keys v fd data ▸ hk) (sumOver_onRecv hf fd data h)
  | send fd data out now =>
    cases hs
    exact sumOver_split (sendTo_touches v fd data out now).keys (sumOver_sendTo hf fd data out now h)
  | broadcast data outs now =>
    simp only [Server.step] at hs
    split at hs <;> rename_i hb
    · cases hs
      exact sumOver_split (fun k hk => broadcast_keys hb ▸ hk) (sumOver_broadcast hf hb h)
    · cases hs
    · cases hs
  | flush fd outs =>
    cases hs
    exact sumOver_split (flushPending_touches v fd outs).keys (sumOver_flushPending hf fd outs (hflush fd outs rfl) h)
  | tick =>
    cases hs
    exact sumOver_split (tick_keys v) (sumOver_tick hf h)

/-! ## The log -/

/-- Where no message is put in the queue, `msgs_dropped` counts nothing of a client that stays. -/
theorem undropped_rule : ClientRule QueuesNone (fun cs _ => cs.msgsDropped = 0) where
  added := fun _ _ _ => rfl
  received := fun cs _ data h => (onRecv_frame cs data).2.2.2.2.trans h
  sent := by
    intro cs conn data out now hnone hd h
    unfold QueuesNone at hnone
    unfold Drops at hd
    unfold ClientState.sendResult
    by_cases hp : cs.pending ≠ []
    · rw [if_pos hp] at hnone hd
      exact absurd hnone hd
    · rw [if_neg hp] at hnone hd ⊢
      cases out with
      | accept k =>
        dsimp only
        split_ifs
        · exact h
        · exact h
      | again => exact absurd rfl hnone
      | error => exact absurd rfl hd
  flushed := by
    intro cs conn outs h
    exact (flushQueue_frame cs conn outs).2.2.trans h

/-- `flush_queue` that finishes no buffer leaves `msgs_sent` alone. -/
theorem flushQueue_sent {cs : ClientState} {outs : Nat → SendOutcome} (conn : Connection) (hnone : FinishesNone cs outs) :
    (cs.flushQueue conn outs).1.msgsSent = cs.msgsSent := by
  unfold ClientState.flushQueue
  unfold FinishesNone at hnone
  cases hp : cs.pending with
  | nil => rfl
  | cons buf rest =>
    rw [hp] at hnone
    unfold ClientState.flushLoop
    cases ho : outs 0 with
    | accept k =>
      rw [ho] at hnone
      have hlt : k + 1 < buf.length := hnone
      dsimp only
      rw [if_neg (by omega)]
    | again => rfl
    | error => rfl

/-- What holds of the log while each message is counted once. -/
structure StatsInv (l : StatsLog) : Prop where
  clients : l.server.Each ChunksOk
  undropped : ∀ fd ∈ l.server.clients.keys, (l.server.clients.state fd).msgsDropped = 0
  noted : ∀ fd ∈ l.server.clients.keys, l.dropped fd = []
  closed : ∀ r ∈ l.closed, r.StatsOk
  totalSent : l.server.totalMsgsSent =
    (l.closed.map fun r => r.cs.msgsSent).sum + sumOver (fun cs => cs.msgsSent) l.server.clients.keys l.server
  totalDropped : l.server.totalMsgsDropped =
    (l.closed.map fun r => r.cs.msgsDropped).sum + sumOver (fun cs => cs.msgsDropped) l.server.clients.keys l.server

/-- The counters of the clients that are gone after an operation. -/
theorem closed_sum (f : ClientState → UInt64) (l : StatsLog) (v : Server) :
    ((l.observe v).closed.map fun r => f r.cs).sum =
      (l.closed.map fun r => f r.cs).sum + sumOver f (l.server.clients.keys.filter fun fd => fd ∉ v.clients.keys) v := by
  unfold StatsLog.observe sumOver
  dsimp only
  rw [List.map_append, List.sum_append, List.map_map]
  rfl

/-- Every operation keeps the total the sum over all clients that ever existed. -/
theorem total_step {l : StatsLog} (hf : CountsWith f t d) {e : ServerEvent} (hs : l.server.step e = some v')
    (hflush : ∀ fd outs, e = .flush fd outs → fd ∈ l.server.clients.keys →
      f ((l.server.clients.state fd).flushQueue (l.server.conns fd) outs).1 = f (l.server.clients.state fd))
    (h : t l.server = (l.closed.map fun r => f r.cs).sum + sumOver f l.server.clients.keys l.server) :
    t v' = ((l.observe v').closed.map fun r => f r.cs).sum + sumOver f v'.clients.keys v' := by
  rw [closed_sum, sumOver_step hf hs hflush h, UInt64.add_assoc]
  congr 1
  exact UInt64.add_comm ..

/-- The record of a client that leaves. -/
theorem statsOk_gone {l : StatsLog} (hl : StatsInv l) {e : ServerEvent} (hdata : e.Sends (· ≠ []))
    (hs : l.server.step e = some v') {fd : Fd} (hmem : fd ∈ l.server.clients.keys) (hgone : fd ∉ v'.clients.keys) :
    ClientRecord.StatsOk
      { cs := v'.clients.state fd, conn := v'.conns fd, dropped := (l.observe v').dropped fd, inTable := false } := by
  have hchunks := hl.clients fd hmem
  have hzero := hl.undropped fd hmem
  have hdropped : (l.observe v').dropped fd =
      if (v'.clients.state fd).msgsDropped = 0 then [] else [(l.server.conns fd).handed.length] := by
    unfold StatsLog.observe
    dsimp only
    rw [if_neg (not_not.mpr hmem), hzero, hl.noted fd hmem, List.nil_append]
  rcases step_leaves hs hmem hgone with ⟨hstate, hwire, hhanded⟩ | ⟨data, out, now, rfl, hd, hstate, hwire, hhanded⟩
  · rw [hstate, hzero, if_pos rfl] at hdropped
    rw [hdropped, hstate]
    refine ⟨?_, hzero, by simp⟩
    have hsame : (v'.conns fd).accepted = (l.server.conns fd).accepted := by
      unfold Connection.accepted Connection.msgEnd
      rw [hwire, hhanded]
    dsimp only
    rw [hsame]
    exact chunksOk_sent hchunks
  · obtain ⟨hsent, hwire', hhanded', hcount⟩ := drops_result (l.server.conns fd) now hd
    obtain ⟨haccepted, hlen, hlt⟩ := refused_message hdata hchunks (hwire.trans hwire') (hhanded.trans hhanded')
    rw [← hstate] at hsent hcount
    rw [hzero] at hcount
    rcases hcount with hcount | hcount
    · rw [hcount, if_pos rfl] at hdropped
      rw [hdropped]
      exact ⟨hsent.trans haccepted, hcount, by simp⟩
    · rw [hcount, if_neg (by decide)] at hdropped
      rw [hdropped]
      refine ⟨hsent.trans haccepted, hcount, ?_⟩
      intro i hi
      rw [List.mem_singleton.mp hi]
      exact ⟨hlen, hlt⟩

/-- Every operation that counts once keeps the invariant. -/
theorem statsInv_step {l l' : StatsLog} {e : ServerEvent} (hl : StatsInv l)
    (he : e.Sends (· ≠ []) ∧ l.server.CountsOnce e) (hs : l.step e = some l') : StatsInv l' := by
  obtain ⟨hdata, hcounts⟩ := he
  obtain ⟨v', hv', rfl⟩ := Option.map_eq_some_iff.mp hs
  have hnone : l.server.SendsOk QueuesNone e := by
    cases e with
    | flush fd outs => trivial
    | accept fd peerAddr now order => trivial
    | remove fd => trivial
    | recv fd data => trivial
    | send fd data out now => exact hcounts
    | broadcast data outs now => exact hcounts
    | tick => trivial
  have hundropped : v'.Each (fun cs _ => cs.msgsDropped = 0) := each_step undropped_rule hl.undropped hnone hv'
  refine ⟨each_step chunksOk_rule hl.clients (hdata.sendsOk l.server) hv', hundropped, ?_, ?_, ?_, ?_⟩
  · intro fd hfd
    unfold StatsLog.observe
    dsimp only
    by_cases hmem : fd ∈ l.server.clients.keys
    · rw [if_neg (not_not.mpr hmem), if_pos ((hundropped fd hfd).trans (hl.undropped fd hmem).symm)]
      exact hl.noted fd hmem
    · rw [if_pos hmem]
  · intro r hr
    rcases List.mem_append.mp hr with hr | hr
    · exact hl.closed r hr
    · obtain ⟨fd, hfd, rfl⟩ := List.mem_map.mp hr
      obtain ⟨hmem, hgone⟩ := List.mem_filter.mp hfd
      exact statsOk_gone hl hdata hv' hmem (by simpa using hgone)
  · refine total_step sent_countsWith hv' ?_ hl.totalSent
    rintro fd outs rfl hmem
    exact flushQueue_sent _ (hcounts hmem)
  · refine total_step dropped_countsWith hv' ?_ hl.totalDropped
    rintro fd outs - -
    exact (flushQueue_frame _ _ outs).2.2

/-- At the start there is no client. -/
theorem statsInv_empty : StatsInv StatsLog.empty where
  clients := each_empty _
  undropped := fun _ hmem => absurd hmem List.not_mem_nil
  noted := fun _ _ => rfl
  closed := fun _ hr => absurd hr List.not_mem_nil
  totalSent := rfl
  totalDropped := rfl

/-- With the invariant, the statistics count each message once. -/
theorem statsInv_ok {l : StatsLog} (h : StatsInv l) : l.Ok := by
  have hsum : ∀ f : ClientState → UInt64, (l.records.map fun r => f r.cs).sum =
      (l.closed.map fun r => f r.cs).sum + sumOver f l.server.clients.keys l.server := by
    intro f
    unfold StatsLog.records sumOver
    rw [List.map_append, List.sum_append, List.map_map, UInt64.add_comm]
    rfl
  refine ⟨?_, by rw [hsum, h.totalSent], by rw [hsum, h.totalDropped]⟩
  intro r hr
  rcases List.mem_append.mp hr with hr | hr
  · obtain ⟨fd, hfd, rfl⟩ := List.mem_map.mp hr
    unfold StatsLog.entry
    rw [h.noted fd hfd]
    exact ⟨chunksOk_sent (h.clients fd hfd), h.undropped fd hfd, by simp⟩
  · exact h.closed r hr

end MessageStatsAux

open MessageStatsAux ClientRunsAux ClientSendAux

/-- After every run, whatever each `send` does, `msgs_sent` is the number of messages whose last byte the kernel has accepted. -/
theorem msgs_sent_accepted (es : List ServerEvent) (hdata : ∀ e ∈ es, e.Sends (· ≠ [])) (v : Server)
    (h : Run.exec Server.step Server.empty es = some v) (fd : Fd) (cs : ClientState) (hcs : v.clients.find fd = some cs) :
    cs.msgsSent = UInt64.ofNat (v.conns fd).accepted := by
  obtain ⟨hmem, hstate⟩ := find_eq_some hcs
  rw [← hstate]
  exact chunksOk_sent (each_exec chunksOk_rule hdata (each_empty _) h fd hmem)

/-- In every run in which no broadcast drops a client (one that does is no step of the manager), `flush_queue` finishes no buffer and
`send_to` queues no whole message, except to drop its client over the limit, the statistics count each message once. -/
theorem stats_count_once (es : List ServerEvent) (hdata : ∀ e ∈ es, e.Sends (· ≠ []))
    (hcounts : Run.Along StatsLog.step (fun l e => l.server.CountsOnce e) StatsLog.empty es) (l : StatsLog)
    (h : Run.exec StatsLog.step StatsLog.empty es = some l) : l.Ok :=
  statsInv_ok (Run.exec_invariant_along (fun _ _ _ hl he hs => statsInv_step hl he hs) statsInv_empty
    ((Run.along_of_forall hdata _).and hcounts) h)

namespace MessageStatsAux

instance : ∀ (cs : ClientState) (data : List UInt8) (out : SendOutcome), Decidable (QueuesNone cs data out) :=
  fun cs data out => inferInstanceAs
    (Decidable (if cs.pending ≠ [] then (cs.enqueue data).pendingBytes > slowClientDropBytes else out ≠ .again))

instance (cs : ClientState) (outs : Nat → SendOutcome) : Decidable (FinishesNone cs outs) := by
  unfold FinishesNone
  split <;> infer_instance

instance (v : Server) : ∀ e, Decidable (v.CountsOnce e)
  | .flush fd outs => inferInstanceAs (Decidable (fd ∈ v.clients.keys → FinishesNone (v.clients.state fd) outs))
  | .send fd data out now => inferInstanceAs (Decidable (v.SendsOk QueuesNone (.send fd data out now)))
  | .broadcast data outs now => inferInstanceAs (Decidable (v.SendsOk QueuesNone (.broadcast data outs now)))
  | .accept _ _ _ _ => isTrue trivial
  | .remove _ => isTrue trivial
  | .recv _ _ => isTrue trivial
  | .tick => isTrue trivial

/-- Two clients get a message each; one is dropped on an error and comes back, the other is removed with half a message in its queue. -/
def twoClientsRun : List ServerEvent :=
  [.accept 5 "10.0.0.1:4000" 1 [5], .accept 6 "10.0.0.1:4001" 2 [6, 5], .recv 5 [1, 2, 3], .recv 6 [1, 2, 3],
    .broadcast [10, 11, 12, 13] (fun _ => .accept 3) 3, .send 6 [20, 21] .error 4, .accept 6 "10.0.0.1:4002" 5 [5, 6],
    .send 6 [30, 31] (.accept 1) 6, .send 5 [40, 41, 42, 43] (.accept 0) 7, .flush 5 (fun _ => .accept 0), .remove 5, .tick]

/-- A message that the kernel does not take at first, and takes when the queue is flushed. -/
def flushedRun : List ServerEvent :=
  [.accept 5 "10.0.0.1:4000" 1 [5], .send 5 [10, 11, 12] .again 2, .flush 5 (fun _ => .accept 9)]

end MessageStatsAux

/-- The run `twoClientsRun` meets the hypotheses of `stats_count_once`: three messages are counted, over three clients of which two are
gone. -/
theorem stats_count_once_twoClientsRun :
    ∃ l, Run.exec StatsLog.step StatsLog.empty twoClientsRun = some l ∧ l.closed.length = 2 ∧ l.server.totalMsgsSent = 3 ∧ l.Ok := by
  have hdata : ∀ e ∈ twoClientsRun, e.Sends (· ≠ []) := by
    unfold twoClientsRun
    simp [ServerEvent.Sends]
  have hcounts : Run.Along StatsLog.step (fun l e => l.server.CountsOnce e) StatsLog.empty twoClientsRun := by decide +kernel
  have hrun : ∃ l, Run.exec StatsLog.step StatsLog.empty twoClientsRun = some l ∧ l.closed.length = 2 ∧
      l.server.totalMsgsSent = 3 := by decide +kernel
  obtain ⟨l, hrun, hclosed, htotal⟩ := hrun
  exact ⟨l, hrun, hclosed, htotal, stats_count_once twoClientsRun hdata hcounts l hrun⟩

/-- In the run `flushedRun` the message is delivered and counted in `msgs_sent`, but not in the total, and `msgs_dropped` counts it too. -/
theorem flushed_message_not_counted :
    ∃ l, Run.exec StatsLog.step StatsLog.empty flushedRun = some l ∧ (l.server.conns 5).wire = [10, 11, 12] ∧
      (l.server.clients.state 5).msgsSent = 1 ∧ l.server.totalMsgsSent = 0 ∧ (l.server.clients.state 5).msgsDropped = 1 ∧
      l.dropped 5 = [0] ∧ ¬l.Ok := by
  have hrun : ∃ l, Run.exec StatsLog.step StatsLog.empty flushedRun = some l ∧ (l.server.conns 5).wire = [10, 11, 12] ∧
      (l.server.clients.state 5).msgsSent = 1 ∧ l.server.totalMsgsSent = 0 ∧ (l.server.clients.state 5).msgsDropped = 1 ∧
      l.dropped 5 = [0] ∧ l.server.totalMsgsSent ≠ (l.records.map fun r => r.cs.msgsSent).sum := by decide +kernel
  obtain ⟨l, hrun, hwire, hsent, htotal, hdropped, hnoted, hsum⟩ := hrun
  exact ⟨l, hrun, hwire, hsent, htotal, hdropped, hnoted, fun hok => hsum hok.totalSent⟩

end MarketFeed
