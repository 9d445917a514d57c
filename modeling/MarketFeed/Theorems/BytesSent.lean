import MarketFeed.Lemmas.ClientRuns

/-!
# Bytes sent and bytes pending

`flush_queue` adds to `bytes_sent` whatever the kernel takes, all of a buffer or a part of it. `send_to` adds to it when the kernel takes
the whole message, and not when it takes a part and the rest is queued. So the counters are right as long as that does not happen.
-/

namespace MarketFeed

/-- The kernel does not take a part of the message: where there is no backlog, all of it or nothing. -/
def SendsWhole (cs : ClientState) (data : List UInt8) (out : SendOutcome) : Prop :=
  cs.pending = [] → match out with
    | .accept k => data.length ≤ k + 1
    | .again => True
    | .error => True

/-- The counters say what is on the wire and what is queued, modulo 2^64, and these two are what was handed over. -/
structure BytesOk (cs : ClientState) (conn : Connection) : Prop where
  bytesSent : cs.bytesSent = UInt64.ofNat conn.wire.length
  pendingBytes : cs.pendingBytes = UInt64.ofNat cs.pending.flatten.length
  total : conn.wire.length + cs.pending.flatten.length = conn.handed.flatten.length

namespace BytesSentAux

open ClientSendAux ClientRunsAux

theorem ofNat_add_sub (a b : Nat) : UInt64.ofNat (a + b) - UInt64.ofNat a = UInt64.ofNat b := by
  rw [UInt64.ofNat_add, UInt64.add_comm, UInt64.add_sub_cancel]

/-- Whatever `flush_queue` gets rid of, it moves from one counter to the other. -/
theorem flushQueue_bytes {cs : ClientState} {conn : Connection} (outs : Nat → SendOutcome) (h : BytesOk cs conn) :
    BytesOk (cs.flushQueue conn outs).1 (cs.flushQueue conn outs).2.1 := by
  refine flushQueue_induction ?_ ?_ outs h
  · intro cs conn buf rest hp h
    obtain ⟨hsent, hpending, htotal⟩ := h
    rw [hp, List.flatten_cons, List.length_append] at hpending htotal
    refine ⟨?_, ?_, ?_⟩
    · dsimp only
      rw [hsent, List.length_append, UInt64.ofNat_add]
    · dsimp only
      rw [hpending, ofNat_add_sub]
    · dsimp only
      rw [List.length_append, ← htotal, Nat.add_assoc]
  · intro cs conn buf rest n hp hn h
    obtain ⟨hsent, hpending, htotal⟩ := h
    rw [hp, List.flatten_cons, List.length_append] at hpending htotal
    have hlen : (buf.take n).length = n := List.length_take_of_le hn.le
    have hsplit : buf.length + rest.flatten.length = n + (buf.length - n + rest.flatten.length) := by omega
    refine ⟨?_, ?_, ?_⟩
    · dsimp only
      rw [hsent, List.length_append, hlen, UInt64.ofNat_add]
    · dsimp only
      rw [hpending, List.flatten_cons, List.length_append, List.length_drop, hsplit, ofNat_add_sub]
    · dsimp only
      rw [List.flatten_cons, List.length_append, List.length_append, List.length_drop, hlen]
      omega

/-- A message that is queued is counted as pending. -/
theorem enqueue_bytes {cs : ClientState} {wire handed : Nat} (data : List UInt8)
    (hpending : cs.pendingBytes = UInt64.ofNat cs.pending.flatten.length)
    (htotal : wire + cs.pending.flatten.length = handed) :
    (cs.enqueue data).pendingBytes = UInt64.ofNat (cs.enqueue data).pending.flatten.length ∧
      wire + (cs.enqueue data).pending.flatten.length = handed + data.length := by
  unfold ClientState.enqueue
  dsimp only
  rw [List.flatten_append, List.length_append, List.flatten_singleton]
  refine ⟨?_, by omega⟩
  rw [hpending, UInt64.ofNat_add]

theorem bytesOk_send {cs : ClientState} {conn : Connection} {data : List UInt8} {out : SendOutcome} (now : Int64)
    (hwhole : SendsWhole cs data out) (hd : ¬Drops cs data out) (h : BytesOk cs conn) :
    BytesOk (cs.sendResult conn data out now).cs (cs.sendResult conn data out now).conn := by
  obtain ⟨hsent, hpending, htotal⟩ := h
  have hhanded : (conn.handed ++ [data]).flatten.length = conn.handed.flatten.length + data.length := by simp
  obtain ⟨hpending', htotal'⟩ := enqueue_bytes data hpending htotal
  unfold ClientState.sendResult
  by_cases hp : cs.pending ≠ []
  · rw [if_pos hp]
    exact ⟨hsent, hpending', htotal'.trans hhanded.symm⟩
  · rw [if_neg hp]
    have hnil : cs.pending = [] := by simpa using hp
    cases out with
    | accept k =>
      have hk : data.length ≤ k + 1 := hwhole hnil
      have hall : min (k + 1) data.length = data.length := by omega
      dsimp only
      rw [if_pos hall, hall, List.take_length]
      refine ⟨?_, hpending, ?_⟩
      · dsimp only
        rw [hsent, List.length_append, UInt64.ofNat_add]
      · dsimp only
        rw [hhanded, ← htotal, List.length_append]
        omega
    | again => exact ⟨hsent, hpending', htotal'.trans hhanded.symm⟩
    | error => simp [Drops, hnil] at hd

theorem bytesOk_rule : ClientRule SendsWhole BytesOk where
  added := fun _ _ _ => ⟨rfl, rfl, rfl⟩
  received := by
    intro cs conn data h
    obtain ⟨hpending, hbytes, hsent, -⟩ := onRecv_frame cs data
    refine ⟨?_, ?_, ?_⟩
    · rw [hsent]
      exact h.bytesSent
    · rw [hbytes, hpending]
      exact h.pendingBytes
    · rw [hpending]
      exact h.total
  sent := by
    intro cs conn data out now hwhole hd h
    exact bytesOk_send now hwhole hd h
  flushed := by
    intro cs conn outs h
    obtain ⟨hsent, hpending, htotal⟩ := flushQueue_bytes outs h
    exact ⟨hsent, hpending, htotal⟩

end BytesSentAux

open BytesSentAux ClientRunsAux ClientSendAux

/-- In every run in which the kernel never takes a part of a message in `send_to`, and as long as fewer than 2^64 bytes have been
handed over for the client: `bytes_sent` is the number of bytes that the kernel has accepted for it, and with `pending_bytes` it makes
up the messages that `send_to` was called with. -/
theorem bytes_sent_on_wire (es : List ServerEvent) (v : Server) (h : Run.exec Server.step Server.empty es = some v)
    (hwhole : Run.Along Server.step (Server.SendsOk SendsWhole) Server.empty es) (fd : Fd) (cs : ClientState)
    (hcs : v.clients.find fd = some cs) (hlt : ((v.conns fd).handed.map List.length).sum < 2 ^ 64) :
    cs.bytesSent.toNat = (v.conns fd).wire.length ∧
      cs.bytesSent.toNat + cs.pendingBytes.toNat = ((v.conns fd).handed.map List.length).sum := by
  obtain ⟨hmem, hstate⟩ := find_eq_some hcs
  have hok : BytesOk (v.clients.state fd) (v.conns fd) := each_exec_along bytesOk_rule hwhole (each_empty _) h fd hmem
  rw [hstate] at hok
  obtain ⟨hsent, hpending, htotal⟩ := hok
  rw [← List.length_flatten] at hlt ⊢
  have hsent' : cs.bytesSent.toNat = (v.conns fd).wire.length := by
    rw [hsent]
    exact UInt64.toNat_ofNat_of_lt' (by simp only [UInt64.size]; omega)
  have hpending' : cs.pendingBytes.toNat = cs.pending.flatten.length := by
    rw [hpending]
    exact UInt64.toNat_ofNat_of_lt' (by simp only [UInt64.size]; omega)
  exact ⟨hsent', by rw [hsent', hpending', htotal]⟩

namespace BytesSentAux

instance : ∀ (cs : ClientState) (data : List UInt8) (out : SendOutcome), Decidable (SendsWhole cs data out)
  | cs, data, .accept k => inferInstanceAs (Decidable (cs.pending = [] → data.length ≤ k + 1))
  | cs, _, .again => inferInstanceAs (Decidable (cs.pending = [] → True))
  | cs, _, .error => inferInstanceAs (Decidable (cs.pending = [] → True))

/-- A whole message, one that is queued, one behind the backlog, and a flush that stops inside the second buffer. -/
def wholeRun : List ServerEvent :=
  [.accept 5 "10.0.0.1:4000" 1 [5], .recv 5 [1, 2, 3], .send 5 [10, 11, 12, 13] (.accept 3) 2, .send 5 [20, 21, 22] .again 3,
    .broadcast [30, 31, 32] (fun _ => .accept 9) 4, .flush 5 (fun i => if i = 0 then .accept 2 else .accept 0), .tick]

/-- The kernel takes one byte of a message of four. -/
def partialRun : List ServerEvent := [.accept 5 "10.0.0.1:4000" 1 [5], .send 5 [10, 11, 12, 13] (.accept 0) 2]

end BytesSentAux

/-- The run `wholeRun` meets the hypotheses of `bytes_sent_on_wire`: eight bytes are on the wire and two are queued. -/
theorem bytes_sent_on_wire_wholeRun :
    ∃ v cs, Run.exec Server.step Server.empty wholeRun = some v ∧ v.clients.find 5 = some cs ∧ (v.conns 5).wire.length = 8 ∧
      cs.bytesSent.toNat = (v.conns 5).wire.length ∧ cs.bytesSent.toNat + cs.pendingBytes.toNat = 10 := by
  have hwhole : Run.Along Server.step (Server.SendsOk SendsWhole) Server.empty wholeRun := by decide +kernel
  have hrun : ∃ v, Run.exec Server.step Server.empty wholeRun = some v ∧ (5 : Fd) ∈ v.clients.keys ∧
      (v.conns 5).wire.length = 8 ∧ ((v.conns 5).handed.map List.length).sum = 10 := by decide +kernel
  obtain ⟨v, hrun, hmem, hwire, hhanded⟩ := hrun
  obtain ⟨hsent, htotal⟩ := bytes_sent_on_wire wholeRun v hrun hwhole 5 _ (find_of_mem hmem) (by omega)
  exact ⟨v, _, hrun, find_of_mem hmem, hwire, hsent, by omega⟩

/-- In the run `partialRun` one byte is on the wire, three are queued, and `bytes_sent` is zero. -/
theorem partial_send_not_counted :
    ∃ v cs, Run.exec Server.step Server.empty partialRun = some v ∧ v.clients.find 5 = some cs ∧
      (v.conns 5).wire = [10] ∧ cs.bytesSent = 0 ∧ cs.pendingBytes = 3 ∧ (v.conns 5).handed = [[10, 11, 12, 13]] := by
  have hrun : ∃ v, Run.exec Server.step Server.empty partialRun = some v ∧ (5 : Fd) ∈ v.clients.keys ∧
      (v.conns 5).wire = [10] ∧ (v.clients.state 5).bytesSent = 0 ∧ (v.clients.state 5).pendingBytes = 3 ∧
        (v.conns 5).handed = [[10, 11, 12, 13]] := by decide +kernel
  obtain ⟨v, hrun, hmem, hrest⟩ := hrun
  exact ⟨v, _, hrun, find_of_mem hmem, hrest⟩

end MarketFeed
