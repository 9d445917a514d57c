import MarketFeed.Lemmas.ClientRuns

/-!
# The send queue of a client

`enqueue` and `flush_queue` change the buffers and the byte counter, `arm_epollout` the interest in `EPOLLOUT`, and the limit is only
tested behind a backlog. After whole operations the four are nevertheless in step, for messages of the sizes of the protocol, as long as
no broadcast drops a client.
-/

namespace MarketFeed

/-- What a client's queue looks like between operations. -/
structure QueueOk (cs : ClientState) (conn : Connection) : Prop where
  pendingBytes : cs.pendingBytes.toNat = (cs.pending.map List.length).sum
  nonempty : ∀ buf ∈ cs.pending, buf ≠ []
  epollOut : conn.epollOut = true ↔ cs.pending ≠ []
  limit : cs.pendingBytes ≤ slowClientDropBytes

/-- What the loop of `flush_queue` subtracts from `pending_bytes`, subtraction by subtraction. -/
def flushDebits : List (List UInt8) → (Nat → SendOutcome) → List Nat
  | [], _ => []
  | buf :: rest, outs =>
    match outs 0 with
    | .accept k =>
      let sent := min (k + 1) buf.length
      if sent = buf.length then buf.length :: flushDebits rest (fun i => outs (i + 1)) else [sent]
    | .again => []
    | .error => []

/-- The messages that `send_to` and `broadcast` are called with are between 1 and 44 bytes long. -/
def MessageSize (data : List UInt8) : Prop := 1 ≤ data.length ∧ data.length ≤ 44

namespace SendQueueAux

open ClientSendAux ClientRunsAux

theorem limit_toNat : slowClientDropBytes.toNat = 67108864 := by decide

/-- The counter after a subtraction of no more than it holds. -/
theorem toNat_sub_ofNat {a : UInt64} {n : Nat} (h : n ≤ a.toNat) : (a - UInt64.ofNat n).toNat + n = a.toNat := by
  have ha := a.toNat_lt
  have hn : (UInt64.ofNat n).toNat = n := UInt64.toNat_ofNat_of_lt' (by simp [UInt64.size]; omega)
  rw [UInt64.toNat_sub_of_le _ _ (UInt64.le_iff_toNat_le.mpr (by rw [hn]; exact h)), hn]
  omega

/-- The counter after an addition below the limit. -/
theorem toNat_add_ofNat {a : UInt64} {n : Nat} (ha : a ≤ slowClientDropBytes) (hn : n ≤ 44) :
    (a + UInt64.ofNat n).toNat = a.toNat + n := by
  have ha' : a.toNat ≤ 67108864 := UInt64.le_iff_toNat_le.mp ha
  have hn' : (UInt64.ofNat n).toNat = n := UInt64.toNat_ofNat_of_lt' (by simp [UInt64.size]; omega)
  rw [UInt64.toNat_add, hn']
  omega

/-! ## Flushing -/

/-- The counter is that of the buffers, and none of them is empty. -/
def Counted (cs : ClientState) : Prop :=
  cs.pendingBytes.toNat = (cs.pending.map List.length).sum ∧ ∀ buf ∈ cs.pending, buf ≠ []

/-- The counter and the buffers when `n` bytes of the first buffer go out. -/
theorem counted_front {cs : ClientState} {buf : List UInt8} {rest : List (List UInt8)} (hp : cs.pending = buf :: rest)
    (h : Counted cs) {n : Nat} (hn : n ≤ buf.length) :
    (cs.pendingBytes - UInt64.ofNat n).toNat + n = cs.pendingBytes.toNat ∧
      (cs.pendingBytes - UInt64.ofNat n).toNat = buf.length - n + (rest.map List.length).sum ∧ ∀ b ∈ rest, b ≠ [] := by
  obtain ⟨hbytes, hne⟩ := h
  rw [hp, List.map_cons, List.sum_cons] at hbytes
  rw [hp] at hne
  have hsub := toNat_sub_ofNat (a := cs.pendingBytes) (n := n) (by omega)
  exact ⟨hsub, by omega, fun b hb => hne b (List.mem_cons_of_mem buf hb)⟩

theorem counted_flush {cs : ClientState} (conn : Connection) (outs : Nat → SendOutcome) (h : Counted cs) :
    Counted (cs.flushQueue conn outs).1 := by
  refine flushQueue_induction (P := fun cs _ => Counted cs) ?_ ?_ outs h
  · intro cs conn buf rest hp h
    obtain ⟨-, hcount, hrest⟩ := counted_front hp h (Nat.le_refl buf.length)
    rw [Nat.sub_self, Nat.zero_add] at hcount
    exact ⟨hcount, hrest⟩
  · intro cs conn buf rest n hp hn h
    obtain ⟨-, hcount, hrest⟩ := counted_front hp h hn.le
    refine ⟨?_, ?_⟩
    · dsimp only
      rw [List.map_cons, List.sum_cons, List.length_drop]
      exact hcount
    · intro b hb
      rcases List.mem_cons.mp hb with rfl | hb
      · rw [ne_eq, List.drop_eq_nil_iff]
        omega
      · exact hrest b hb

/-- The subtractions of `flush_queue` add up to what the counter loses. -/
theorem flushLoop_debits (cs : ClientState) (conn : Connection) (outs : Nat → SendOutcome) (pending : List (List UInt8))
    (hp : cs.pending = pending) (h : Counted cs) :
    (ClientState.flushLoop pending cs conn outs).1.pendingBytes.toNat + (flushDebits pending outs).sum =
      cs.pendingBytes.toNat := by
  induction pending generalizing cs conn outs with
  | nil => rfl
  | cons buf rest ih =>
    unfold ClientState.flushLoop flushDebits
    cases outs 0 with
    | accept k =>
      dsimp only
      split
      · -- the whole buffer went out: the loop goes on with the rest
        obtain ⟨hsub, hcount, hrest⟩ := counted_front hp h (Nat.le_refl buf.length)
        rw [Nat.sub_self, Nat.zero_add] at hcount
        have hdebits := ih { cs with
            pendingBytes := cs.pendingBytes - UInt64.ofNat buf.length
            bytesSent := cs.bytesSent + UInt64.ofNat buf.length
            msgsSent := cs.msgsSent + 1
            pending := rest } { conn with wire := conn.wire ++ buf.take (min (k + 1) buf.length) } (fun i => outs (i + 1)) rfl
          ⟨hcount, hrest⟩
        dsimp only at hdebits
        rw [List.sum_cons]
        omega
      · rw [List.sum_singleton]
        exact (counted_front hp h (Nat.min_le_right ..)).1
    | again => rfl
    | error => rfl

theorem queueOk_debits {cs : ClientState} {conn : Connection} (h : QueueOk cs conn) (outs : Nat → SendOutcome) :
    (cs.flushQueue conn outs).1.pendingBytes.toNat + (flushDebits cs.pending outs).sum = cs.pendingBytes.toNat :=
  flushLoop_debits cs conn outs cs.pending rfl ⟨h.pendingBytes, h.nonempty⟩

theorem queueOk_flush {cs : ClientState} {conn : Connection} (outs : Nat → SendOutcome) (h : QueueOk cs conn) :
    QueueOk (cs.flushQueue conn outs).1
      { (cs.flushQueue conn outs).2.1 with
        epollOut := if (cs.flushQueue conn outs).2.2 = true then false else (cs.flushQueue conn outs).2.1.epollOut } := by
  have hdebits := queueOk_debits h outs
  have hdone := flushQueue_done cs conn outs
  have hepoll := (flushQueue_frame cs conn outs).2.1
  obtain ⟨hcount, hne⟩ := counted_flush conn outs ⟨h.pendingBytes, h.nonempty⟩
  refine ⟨hcount, hne, ?_, ?_⟩
  · dsimp only
    split <;> rename_i hflushed
    · simp [hdone.mp hflushed]
    · -- not everything went out, so there was something to send and the interest was armed
      have hleft := mt hdone.mpr hflushed
      have hwas : cs.pending ≠ [] := by
        intro hnil
        apply hflushed
        rw [ClientState.flushQueue, hnil]
        rfl
      simp [hepoll, h.epollOut.mpr hwas, hleft]
  · have := UInt64.le_iff_toNat_le.mp h.limit
    exact UInt64.le_iff_toNat_le.mpr (by omega)

/-! ## Sending -/

/-- What `enqueue` does to the counter and the buffers. -/
theorem enqueue_queue {cs : ClientState} {conn : Connection} (h : QueueOk cs conn) {data : List UInt8} (hne : data ≠ [])
    (hle : data.length ≤ 44) :
    (cs.enqueue data).pendingBytes.toNat = cs.pendingBytes.toNat + data.length ∧
      (cs.enqueue data).pendingBytes.toNat = ((cs.enqueue data).pending.map List.length).sum ∧
      (∀ buf ∈ (cs.enqueue data).pending, buf ≠ []) ∧ (cs.enqueue data).pending ≠ [] := by
  have hadd : (cs.enqueue data).pendingBytes.toNat = cs.pendingBytes.toNat + data.length := toNat_add_ofNat h.limit hle
  refine ⟨hadd, ?_, ?_, by simp [ClientState.enqueue]⟩
  · rw [hadd, h.pendingBytes]
    simp [ClientState.enqueue]
  · intro buf hbuf
    rcases List.mem_append.mp hbuf with hbuf | hbuf
    · exact h.nonempty buf hbuf
    · rw [List.mem_singleton.mp hbuf]
      exact hne

/-- A short message on an empty queue is far below the limit. -/
theorem enqueue_limit {cs : ClientState} {conn : Connection} (h : QueueOk cs conn) (hnil : cs.pending = []) {data : List UInt8}
    (hle : data.length ≤ 44) : (cs.enqueue data).pendingBytes ≤ slowClientDropBytes := by
  have hzero := h.pendingBytes
  rw [hnil, List.map_nil, List.sum_nil] at hzero
  have hadd : (cs.enqueue data).pendingBytes.toNat = cs.pendingBytes.toNat + data.length := toNat_add_ofNat h.limit hle
  rw [UInt64.le_iff_toNat_le, limit_toNat]
  omega

theorem queueOk_send {cs : ClientState} {conn : Connection} {data : List UInt8} {out : SendOutcome} (now : Int64)
    (hsize : MessageSize data) (hd : ¬Drops cs data out) (h : QueueOk cs conn) :
    QueueOk (cs.sendResult conn data out now).cs (cs.sendResult conn data out now).conn := by
  obtain ⟨hpos, hle⟩ := hsize
  have hdata : data ≠ [] := List.ne_nil_of_length_pos hpos
  unfold ClientState.sendResult
  unfold Drops at hd
  by_cases hp : cs.pending ≠ []
  · -- behind a backlog: the client stays, so the limit still holds
    rw [if_pos hp] at hd ⊢
    obtain ⟨-, hcount, hne, hpending⟩ := enqueue_queue h hdata hle
    refine ⟨hcount, hne, ?_, UInt64.not_lt.mp hd⟩
    simpa [hpending] using h.epollOut.mpr hp
  · rw [if_neg hp] at hd ⊢
    have hnil : cs.pending = [] := by simpa using hp
    cases out with
    | accept k =>
      dsimp only
      split_ifs with hall
      · exact ⟨h.pendingBytes, h.nonempty, h.epollOut, h.limit⟩
      · -- part of the message is left, and `EPOLLOUT` is armed for it
        have hrest : data.drop (min (k + 1) data.length) ≠ [] := by
          refine List.ne_nil_of_length_pos ?_
          rw [List.length_drop]
          omega
        have hshort : (data.drop (min (k + 1) data.length)).length ≤ 44 := by
          rw [List.length_drop]
          omega
        obtain ⟨-, hcount, hne, hpending⟩ := enqueue_queue h hrest hshort
        exact ⟨hcount, hne, iff_of_true rfl hpending, enqueue_limit h hnil hshort⟩
    | again =>
      obtain ⟨-, hcount, hne, hpending⟩ := enqueue_queue h hdata hle
      exact ⟨hcount, hne, iff_of_true rfl hpending, enqueue_limit h hnil hle⟩
    | error => exact absurd rfl hd

theorem queueOk_rule : ClientRule (fun _ data _ => MessageSize data) QueueOk where
  added := by
    intro fd peerAddr now
    exact ⟨rfl, nofun, by simp, by simp⟩
  received := by
    intro cs conn data h
    obtain ⟨hpending, hbytes, -⟩ := onRecv_frame cs data
    refine ⟨?_, ?_, ?_, ?_⟩
    · rw [hbytes, hpending]
      exact h.pendingBytes
    · rw [hpending]
      exact h.nonempty
    · rw [hpending]
      exact h.epollOut
    · rw [hbytes]
      exact h.limit
  sent := by
    intro cs conn data out now hsize hd h
    exact queueOk_send now hsize hd h
  flushed := by
    intro cs conn outs h
    exact queueOk_flush outs h

end SendQueueAux

open SendQueueAux ClientRunsAux ClientSendAux

/-- After every run of whole operations with messages of 1 to 44 bytes, whatever each `send` does (as long as it makes no broadcast drop
a client: such a run does not go through), every client in the table has its queue in order: the counter is the sum of the sizes of the
buffers, no buffer is empty, `EPOLLOUT` is armed exactly while there is a backlog, and the counter is within the limit. So a
`flush_queue` never subtracts more from the counter than it holds. -/
theorem send_queue_invariant (es : List ServerEvent) (hsize : ∀ e ∈ es, e.Sends MessageSize) (v : Server)
    (h : Run.exec Server.step Server.empty es = some v) (fd : Fd) (cs : ClientState) (hcs : v.clients.find fd = some cs) :
    cs.pendingBytes.toNat = (cs.pending.map List.length).sum ∧ (∀ buf ∈ cs.pending, buf ≠ []) ∧
      ((v.conns fd).epollOut = true ↔ cs.pending ≠ []) ∧ cs.pendingBytes ≤ slowClientDropBytes ∧
      ∀ outs, (cs.flushQueue (v.conns fd) outs).1.pendingBytes.toNat + (flushDebits cs.pending outs).sum =
        cs.pendingBytes.toNat := by
  obtain ⟨hmem, hstate⟩ := find_eq_some hcs
  have hok : QueueOk (v.clients.state fd) (v.conns fd) := each_exec queueOk_rule hsize (each_empty _) h fd hmem
  rw [hstate] at hok
  exact ⟨hok.pendingBytes, hok.nonempty, hok.epollOut, hok.limit, queueOk_debits hok⟩

namespace SendQueueAux

/-- A partial send, a message behind the backlog, and a flush that stops inside the second buffer. -/
def backlogRun : List ServerEvent :=
  [.accept 5 "10.0.0.1:4000" 1 [5], .recv 5 [1, 2, 3], .send 5 [10, 11, 12, 13] (.accept 1) 3,
    .broadcast [20, 21, 22] (fun _ => .accept 9) 4, .flush 5 (fun i => if i = 0 then .accept 1 else .accept 0), .tick]

/-- A client whose connection has been reset by the time of the broadcast. -/
def resetPeer : List ServerEvent := [.accept 5 "10.0.0.1:4000" 1 [5], .recv 5 [1, 2, 3]]

end SendQueueAux

/-- The run `backlogRun`: two bytes are left. -/
theorem send_queue_invariant_backlogRun :
    ∃ v cs, Run.exec Server.step Server.empty backlogRun = some v ∧ v.clients.find 5 = some cs ∧ cs.pending = [[21, 22]] ∧
      cs.pendingBytes.toNat = (cs.pending.map List.length).sum ∧ ((v.conns 5).epollOut = true ↔ cs.pending ≠ []) := by
  have hsize : ∀ e ∈ backlogRun, e.Sends MessageSize := by
    unfold backlogRun
    simp [ServerEvent.Sends, MessageSize]
  have hrun : ∃ v, Run.exec Server.step Server.empty backlogRun = some v ∧ (5 : Fd) ∈ v.clients.keys ∧
      (v.clients.state 5).pending = [[21, 22]] := by decide +kernel
  obtain ⟨v, hrun, hmem, hpending⟩ := hrun
  obtain ⟨hcount, -, hepoll, -, -⟩ := send_queue_invariant backlogRun hsize v hrun 5 _ (find_of_mem hmem)
  exact ⟨v, _, hrun, find_of_mem hmem, hpending, hcount, hepoll⟩

/-- After `resetPeer`, a broadcast of three bytes that drops the client stops at an erased entry: the run is one of messages of 1 to 44
bytes on a fresh descriptor, and there is no table after it whose queues could be in order. -/
theorem queues_broken_off :
    ∃ v, Run.exec Server.step Server.empty resetPeer = some v ∧ MessageSize [20, 21, 22] ∧
      (∃ v' calls, v.broadcast [20, 21, 22] (fun _ => .error) 3 = .dangling v' calls) ∧
      ¬∃ v', Run.exec Server.step Server.empty (resetPeer ++ [.broadcast [20, 21, 22] (fun _ => .error) 3]) = some v' ∧
        ∀ fd ∈ v'.clients.keys, QueueOk (v'.clients.state fd) (v'.conns fd) := by
  have hrun : ∃ v, Run.exec Server.step Server.empty resetPeer = some v ∧
      ¬v.DropsNone (.broadcast [20, 21, 22] (fun _ => .error) 3) := by decide +kernel
  obtain ⟨v, hrun, hdrops⟩ := hrun
  refine ⟨v, hrun, ⟨by decide, by decide⟩, BroadcastAux.broadcast_dangling hdrops, ?_⟩
  rintro ⟨v', hv', -⟩
  rw [Run.exec_append hrun] at hv'
  obtain ⟨v'', hstep, -⟩ := Run.exec_cons_eq_some.mp hv'
  exact hdrops ((v.step_iff _).mp ⟨v'', hstep⟩).2

end MarketFeed
