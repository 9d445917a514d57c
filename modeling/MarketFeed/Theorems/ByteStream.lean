import MarketFeed.Lemmas.ClientRuns

/-!
# No byte of a client's stream is lost

Whatever the kernel makes of each `send`, the bytes it has accepted for a client, followed by the client's queue, are the
messages passed to `send_to` for it, in order.
-/

namespace MarketFeed

open ClientSendAux ClientRunsAux

namespace ByteStreamAux

/-- Every client in the table is in step. -/
def AllInStep (v : Server) : Prop := ∀ fd ∈ v.clients.keys, v.InStep fd

/-- Being in step is kept by what is done to a client that stays, whatever the messages. -/
theorem streamed : ClientRule (fun _ _ _ => True)
    (fun cs conn => conn.wire ++ cs.pending.flatten = conn.handed.flatten) where
  added := fun _ _ _ => rfl
  received := by
    intro cs conn data h
    rw [(onRecv_frame cs data).1]
    exact h
  sent := fun _ _ _ _ now _ hd h => sendResult_stream now hd h
  flushed := by
    intro cs conn outs h
    rw [flushQueue_stream, (flushQueue_frame cs conn outs).1]
    exact h

theorem sends_any (e : ServerEvent) : e.Sends (fun _ => True) := by
  cases e <;> trivial

end ByteStreamAux

open ByteStreamAux

/-- In every run of the client manager's operations, with any outcome of each `send`: as long as a client is in the table, the
bytes accepted by the kernel for it followed by its queue are the concatenation of the messages passed to `send_to` for it since
it was added; so what is on the wire is a prefix of its feed. -/
theorem stream_in_step (es : List ServerEvent) (v : Server) (h : Run.exec Server.step Server.empty es = some v) (fd : Fd)
    (cs : ClientState) (hcs : v.clients.find fd = some cs) :
    (v.conns fd).wire ++ cs.pending.flatten = (v.conns fd).handed.flatten ∧
      (v.conns fd).wire <+: (v.conns fd).handed.flatten := by
  have hall : AllInStep v := each_exec streamed (fun e _ => sends_any e) (each_empty _) h
  obtain ⟨hmem, hstate⟩ := find_eq_some hcs
  have hin := hall fd hmem
  unfold Server.InStep at hin
  rw [hstate] at hin
  exact ⟨hin, hin ▸ List.prefix_append _ _⟩

namespace ByteStreamAux

/-- Two clients; for the first one a partial send, a message behind the backlog, a flush that stops inside the second buffer. -/
def backpressureRun : List ServerEvent :=
  [.accept 5 "10.0.0.1:4000" 1 [5], .accept 6 "10.0.0.2:4000" 2 [6, 5], .recv 5 [1, 2, 3], .send 5 [10, 11, 12, 13] (.accept 1) 3,
    .broadcast [20, 21, 22] (fun _ => .accept 9) 4, .flush 5 (fun i => if i = 0 then .accept 1 else .accept 0),
    .send 6 [30] .again 5, .send 5 [40] .again 6]

end ByteStreamAux

/-- The run `backpressureRun`: the first client has five bytes on the wire and three queued. -/
theorem stream_in_step_backpressureRun :
    ∃ v cs, Run.exec Server.step Server.empty backpressureRun = some v ∧ v.clients.find 5 = some cs ∧
      (v.conns 5).wire = [10, 11, 12, 13, 20] ∧ cs.pending = [[21, 22], [40]] ∧
      (v.conns 5).wire ++ cs.pending.flatten = (v.conns 5).handed.flatten := by
  have hrun : ∃ v, Run.exec Server.step Server.empty backpressureRun = some v ∧ (5 : Fd) ∈ v.clients.keys ∧
      (v.conns 5).wire = [10, 11, 12, 13, 20] ∧ (v.clients.state 5).pending = [[21, 22], [40]] := by decide +kernel
  obtain ⟨v, hrun, hmem, hwire, hpending⟩ := hrun
  exact ⟨v, _, hrun, find_of_mem hmem, hwire, hpending, (stream_in_step backpressureRun v hrun 5 _ (find_of_mem hmem)).1⟩

end MarketFeed
