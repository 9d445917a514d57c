import MarketFeed.Theorems.ClientsApart
import MarketFeed.Theorems.Handshake

/-!
# A request that has arrived is read

The accept thread reads 512 bytes of a request with each report, which may be less than there is. The epoll set is level-triggered: the
rest is reported again, so rounds of the accept thread alone get the client to the feed, whatever else has gone on before.
-/

namespace MarketFeed

open SubscribeRoundTripAux ClientMovesAux

variable {n : NumSymbols} {c : Capacity} {P : Type}

namespace RequestReadAux

open ExchangeSys DescriptorsAux AcceptMovesAux HandshakeAux

/-! ## A client that has not joined -/

/-- Nothing is queued for a client that has not gone live. -/
def Idle (cs : ClientState) : Prop := cs.phase ≠ .live → cs.pending = [] ∧ cs.pendingBytes = 0

/-- `on_recv` never takes a client out of the live phase. -/
theorem onRecv_phase {cs : ClientState} (data : List UInt8) (h : (cs.onRecv data).phase ≠ .live) : cs.phase ≠ .live := by
  intro hlive
  rw [ClientState.onRecv_live data hlive] at h
  exact h hlive

/-- No operation queues anything for a client that is not live. -/
theorem idle_moves {v v' : Server} {fd : Fd} {e : ServerEvent} (hm : v.Moves v' fd e) (h : Idle (v.clients.state fd)) :
    Idle (v'.clients.state fd) := by
  cases hm with
  | accepted peerAddr now order hstate hconn =>
    rw [hstate]
    exact fun _ => ⟨rfl, rfl⟩
  | received data hmem hkeys hstate hconn =>
    rw [hstate]
    intro hphase
    obtain ⟨hpending, hbytes, -⟩ := ClientSendAux.onRecv_frame (v.clients.state fd) data
    obtain ⟨hnone, hzero⟩ := h (onRecv_phase data hphase)
    exact ⟨hpending.trans hnone, hbytes.trans hzero⟩
  | sent data outs now hlive hstays hkeys hstate hconn =>
    rw [hstate]
    intro hphase
    rw [(sendResult_wire _ _ data (outs fd) now).2.2] at hphase
    exact absurd hlive.2 hphase
  | flushed outs hmem hkeys hstate hwire hhanded =>
    rw [hstate]
    intro hphase
    rw [(flushQueue_wire _ _ outs).2] at hphase
    obtain ⟨hnone, hzero⟩ := h hphase
    unfold ClientState.flushQueue
    rw [hnone]
    exact ⟨hnone, hzero⟩
  | same hstate hwire hhanded hkeys hother hquiet =>
    rw [hstate]
    exact h

/-- So no step of the exchange does. -/
theorem idle_step {prices : DisplayPrices P} {s t : ExchangeSys n c P} {e : ExchangeEvent}
    (h : Tracked s ∧ ∀ fd, Idle (s.feed.server.clients.state fd)) (hs : s.step prices e = some t) :
    Tracked t ∧ ∀ fd, Idle (t.feed.server.clients.state fd) := by
  refine ⟨h.1.step hs, fun fd => ?_⟩
  rcases Moves.feed (AcceptMovesAux.step_moves h.1 hs) with hsame | ⟨f, hf, -⟩
  · rw [hsame]
    exact h.2 fd
  · refine feed_induction (I := fun v => Idle (v.clients.state fd)) hf (h.2 fd) fun v call v' hv hcall hv' => ?_
    exact idle_moves (ClientMovesAux.step_moves hv' (calls_ne_send hcall) fd) hv

/-! ## A round -/

/-- The accept thread waits, and the whole request of a client in the table has arrived. -/
structure Awaits (s : ExchangeSys n c P) (fd : Fd) : Prop where
  subscribing : Subscribing s
  idle : ∀ k, Idle (s.feed.server.clients.state k)
  point : s.point = .epollWait
  running : s.feed.loop.running = true
  mem : fd ∈ s.keys
  fin : (s.upstream fd).fin = false
  arrived : (s.upstream fd).arrived = 3 + 2 * (s.upstream fd).ids.length
  ids : (s.upstream fd).ids.length ≤ 65535

/-- The client that has requested `ids` is live. -/
theorem Awaits.live {s : ExchangeSys n c P} {fd : Fd} (h : Awaits s fd)
    (hread : 3 + 2 * (s.upstream fd).ids.length ≤ (s.upstream fd).read) : s.feed.server.IsLive fd := by
  have hdecoded := h.subscribing.decoded fd h.mem h.ids
  unfold Decoded at hdecoded
  rw [if_neg] at hdecoded
  · exact ⟨h.mem, hdecoded.1⟩
  · rw [List.length_take, SocketAux.length_subscriptionRequest]
    omega

/-- Before its request has been read, the client is not live. -/
theorem Awaits.not_live {s : ExchangeSys n c P} {fd : Fd} (h : Awaits s fd)
    (hread : (s.upstream fd).read < 3 + 2 * (s.upstream fd).ids.length) : (s.feed.server.clients.state fd).phase ≠ .live := by
  have hdecoded := h.subscribing.decoded fd h.mem h.ids
  unfold Decoded at hdecoded
  rw [if_pos] at hdecoded
  · exact hdecoded.1
  · rw [List.length_take]
    omega

/-- What has arrived and has not been read. -/
theorem Awaits.unread {s : ExchangeSys n c P} {fd : Fd} (h : Awaits s fd) :
    (s.upstream fd).unread.length = 3 + 2 * (s.upstream fd).ids.length - (s.upstream fd).read := by
  unfold Upstream.unread
  rw [List.length_drop, List.length_take, h.arrived, SocketAux.length_subscriptionRequest, Nat.min_self]

/-- The report that the rest of the request can be read. -/
def unreadReport (s : ExchangeSys n c P) (fd : Fd) : Report :=
  { fd, flags := { epollIn := true, rdHup := false, hup := false, err := false }, epollOut := false, connection := s.accepted fd }

/-- Its descriptor is not the listening socket. -/
theorem Awaits.ne_listenFd {s : ExchangeSys n c P} {fd : Fd} (h : Awaits s fd) : fd ≠ s.listenFd := by
  rintro rfl
  exact h.subscribing.tracked.listen h.mem

/-- While something is unread, `epoll_wait` may report it alone. -/
theorem Awaits.wait {prices : DisplayPrices P} {s : ExchangeSys n c P} {fd : Fd} (h : Awaits s fd)
    (hread : (s.upstream fd).read < 3 + 2 * (s.upstream fd).ids.length) :
    s.step prices (.accept (.wait (.ready [unreadReport s fd]))) = some { s with point := .events [unreadReport s fd] } := by
  have hunread : (s.upstream fd).unread ≠ [] := by
    rw [← List.length_pos_iff, h.unread]
    omega
  simp only [ExchangeSys.step, ExchangeSys.acceptStep, h.point, ExchangeSys.waitReturns]
  refine if_pos ⟨by simp [ExchangeSys.maxEvents], List.nodup_singleton _, fun r hr => ?_⟩
  rw [List.mem_singleton.mp hr]
  refine ⟨(h.subscribing.tracked.watched fd).mpr (.inr (.inl h.mem)), rfl, rfl, ?_⟩
  unfold unreadReport
  rw [if_neg h.ne_listenFd]
  refine ⟨?_, h.fin.symm, by simp⟩
  simp [hunread]

/-- The report leads to a `recv`. -/
theorem Awaits.look {prices : DisplayPrices P} {s : ExchangeSys n c P} {fd : Fd} (h : Awaits s fd) :
    ExchangeSys.step prices { s with point := .events [unreadReport s fd] } (.accept .step) = some { s with point := .recv fd [] } := by
  simp [ExchangeSys.step, ExchangeSys.acceptStep, ExchangeSys.nextReport, unreadReport, h.ne_listenFd]

/-- A client for which nothing is queued stays when the manager is maintained. -/
theorem mem_tick {v : Server} {fd : Fd} (hmem : fd ∈ v.clients.keys) (hbytes : (v.clients.state fd).pendingBytes = 0) :
    fd ∈ v.tick.clients.keys := by
  have hview := ClientsApartAux.tick_view v fd
  rw [ClientsApartAux.view_of_mem hmem] at hview
  have hstays : ¬(v.clients.state fd).pendingBytes > slowClientDropBytes := by
    rw [hbytes]
    decide
  by_contra hgone
  rw [ClientsApartAux.view_of_not_mem hgone] at hview
  simp [Client.step, hstays] at hview

/-- A round of the accept thread: wait, look at the report, receive, and the maintenance. -/
theorem Awaits.round (prices : DisplayPrices P) {s : ExchangeSys n c P} {fd : Fd} (h : Awaits s fd)
    (hread : (s.upstream fd).read < 3 + 2 * (s.upstream fd).ids.length) :
    ∃ (es : List AcceptEvent) (t : ExchangeSys n c P), Run.exec (ExchangeSys.step prices) s (es.map .accept) = some t ∧ Awaits t fd ∧
      (t.upstream fd).ids = (s.upstream fd).ids ∧ (s.upstream fd).read < (t.upstream fd).read := by
  generalize hk : min (s.upstream fd).unread.length bufSize = k
  have hpos : 0 < k := by
    rw [← hk, h.unread]
    exact lt_min (by omega) (by decide)
  generalize hdata : (s.upstream fd).unread.take k = data
  -- the states behind the steps of the round
  generalize hs₁ : { s with point := .events [unreadReport s fd] } = s₁
  generalize hs₂ : { s with point := .recv fd [] } = s₂
  generalize hf₃ : s₂.feed.afterRecv fd (s₂.feed.server.onRecv fd data) = f₃
  generalize hs₃ : { s₂.manage f₃ with
    point := .events []
    upstream := Function.update s₂.upstream fd { s₂.upstream fd with read := (s₂.upstream fd).read + k } } = s₃
  generalize hs₄ : { s₃ with point := .maintain } = s₄
  generalize hs₅ : { s₄.manage { s₄.feed with server := s₄.feed.server.tick } with point := .head } = s₅
  generalize ht : { s₅ with point := .epollWait } = t
  have h₁ : s.step prices (.accept (.wait (.ready [unreadReport s fd]))) = some s₁ := by
    rw [← hs₁]
    exact h.wait hread
  have h₂ : s₁.step prices (.accept .step) = some s₂ := by
    rw [← hs₁, ← hs₂]
    exact h.look
  have h₃ : s₂.step prices (.accept (.recv (.bytes k))) = some s₃ := by
    have hmay : s₂.MayReceive fd (.bytes k) := by
      have hopen := (h.subscribing.tracked.openFds fd).mpr (.inr (.inl h.mem))
      rw [← hs₂, ← hk]
      exact ⟨hopen, hk ▸ hpos, Nat.min_le_left _ _, Nat.min_le_right _ _⟩
    rw [← hs₃, ← hf₃, ← hdata]
    subst hs₂
    exact if_pos hmay
  have h₄ : s₃.step prices (.accept .step) = some s₄ := by
    rw [← hs₄, ← hs₃]
    rfl
  have h₅ : s₄.step prices (.accept .step) = some s₅ := by
    rw [← hs₅, ← hs₄]
    rfl
  have h₆ : s₅.step prices (.accept .step) = some t := by
    have hrunning : s₅.feed.loop.running = true := by
      rw [← hs₅, ← hs₄, ← hs₃, ← hf₃, ← hs₂]
      exact h.running
    have hpoint : s₅.point = .head := by rw [← hs₅]
    simp only [ExchangeSys.step, ExchangeSys.acceptStep, hpoint, hrunning, if_true, ht]
  have hexec : Run.exec (ExchangeSys.step prices) s (([.wait (.ready [unreadReport s fd]), .step, .recv (.bytes k), .step, .step, .step] :
      List AcceptEvent).map .accept) = some t := by
    simp only [List.map_cons, List.map_nil, Run.exec, h₁, h₂, h₃, h₄, h₅, h₆, Option.bind_some]
  have hupstream : t.upstream = Function.update s.upstream fd { s.upstream fd with read := (s.upstream fd).read + k } := by
    rw [← ht, ← hs₅, ← hs₄, ← hs₃, ← hs₂]
    rfl
  have hserver : t.feed.server = (s.feed.server.onRecv fd data).tick := by
    rw [← ht, ← hs₅, ← hs₄, ← hs₃, ← hf₃, ← hs₂]
    rfl
  have hmem : fd ∈ t.keys := by
    have hkeys : fd ∈ (s.feed.server.onRecv fd data).clients.keys := by
      rw [ClientRunsAux.onRecv_keys]
      exact h.mem
    have hbytes : ((s.feed.server.onRecv fd data).clients.state fd).pendingBytes = 0 := by
      rw [Server.onRecv, ClientSendAux.find_of_mem h.mem]
      dsimp only
      rw [ClientSendAux.setClient_state_self, (ClientSendAux.onRecv_frame _ data).2.1]
      exact (h.idle fd (h.not_live hread)).2
    unfold ExchangeSys.keys
    rw [hserver]
    exact mem_tick hkeys hbytes
  refine ⟨_, t, hexec, ⟨?_, ?_, ?_, ?_, hmem, ?_, ?_, ?_⟩, ?_, ?_⟩
  · exact Run.exec_invariant (fun _ _ _ hi hs => hi.step hs) h.subscribing hexec
  · exact (Run.exec_invariant (fun _ _ _ hi hs => idle_step hi hs) ⟨h.subscribing.tracked, h.idle⟩ hexec).2
  · rw [← ht]
  · rw [← ht, ← hs₅, ← hs₄, ← hs₃, ← hf₃, ← hs₂]
    exact h.running
  all_goals rw [hupstream, Function.update_self]
  · exact h.fin
  · exact h.arrived
  · exact h.ids
  · exact Nat.lt_add_of_pos_right hpos

/-- Rounds, one after the other. -/
theorem Awaits.rounds {prices : DisplayPrices P} {fd : Fd} (left : Nat) :
    ∀ {s : ExchangeSys n c P}, Awaits s fd → 3 + 2 * (s.upstream fd).ids.length - (s.upstream fd).read = left →
      ∃ (es : List AcceptEvent) (t : ExchangeSys n c P), Run.exec (ExchangeSys.step prices) s (es.map .accept) = some t ∧
        t.point = .epollWait ∧ t.feed.server.IsLive fd := by
  induction left using Nat.strong_induction_on with
  | h left ih =>
    intro s h hleft
    by_cases hread : (s.upstream fd).read < 3 + 2 * (s.upstream fd).ids.length
    · obtain ⟨es, t, hexec, ht, hids, hmore⟩ := h.round prices hread
      obtain ⟨es', t', hexec', hpoint, hlive⟩ := ih (3 + 2 * (t.upstream fd).ids.length - (t.upstream fd).read)
        (by rw [hids]; omega) ht rfl
      refine ⟨es ++ es', t', ?_, hpoint, hlive⟩
      rw [List.map_append, Run.exec_append hexec, hexec']
    · exact ⟨[], s, rfl, h.point, h.live (Nat.not_lt.mp hread)⟩

end RequestReadAux

open RequestReadAux HandshakeAux

/-- In every run of the exchange in which no broadcast drops a client, from a state in which the exchange has not been stopped, the accept
thread waits, and the request of a client in the table has arrived as a whole and its FIN has not: there are rounds of the accept thread
alone that make the client live, however long the request is and however much of it has been read. -/
theorem request_read (prices : DisplayPrices P) (listenFd : Fd) (es : List ExchangeEvent) (s : ExchangeSys n c P)
    (h : Run.exec (ExchangeSys.step prices) (.init prices n c listenFd) es = some s) (hwait : s.point = .epollWait)
    (hrunning : s.feed.loop.running = true) (fd : Fd) (hmem : fd ∈ s.keys) (hids : (s.upstream fd).ids.length ≤ 65535)
    (hopen : (s.upstream fd).fin = false) (harrived : (s.upstream fd).arrived = 3 + 2 * (s.upstream fd).ids.length) :
    ∃ (es' : List AcceptEvent) (t : ExchangeSys n c P), Run.exec (ExchangeSys.step prices) s (es'.map .accept) = some t ∧
      t.point = .epollWait ∧ t.feed.server.IsLive fd := by
  have hidle := Run.exec_invariant (fun _ _ _ hi hs => idle_step hi hs)
    ⟨DescriptorsAux.tracked_init prices listenFd, fun _ _ => ⟨rfl, rfl⟩⟩ h
  exact Awaits.rounds _ ⟨subscribing_exec h, hidle.2, hwait, hrunning, hmem, hopen, harrived, hids⟩ rfl

namespace RequestReadAux

open DescriptorsAux EndToEndAux FaultInjectionAux

/-- The client 5 asks for 300 ids; its request of 603 bytes has arrived when the accept thread waits. -/
def longRequestRun : List ExchangeEvent :=
  [.accept .step, .accept (.wait (.ready [readable 3 0])), .accept .step, .accept (.accept (some (5, List.replicate 300 7))),
    .accept .step, .accept (.add "10.0.0.1:4000" 1 [5] 2), .accept (.accept none), .accept .step, .accept .step, .accept .step,
    .arrive 5 603]

end RequestReadAux

open DescriptorsAux EndToEndAux FaultInjectionAux

/-- The run `longRequestRun` meets the hypotheses of `request_read`. -/
theorem request_read_longRequestRun :
    ∃ (s t : ExchangeSys oneSymbol recvBufSize Nat) (es' : List AcceptEvent),
      Run.exec (ExchangeSys.step wholePrices) (.init wholePrices oneSymbol recvBufSize 3) longRequestRun = some s ∧
        Run.exec (ExchangeSys.step wholePrices) s (es'.map .accept) = some t ∧ t.feed.server.IsLive 5 := by
  have hrun : ∃ s : ExchangeSys oneSymbol recvBufSize Nat,
      Run.exec (ExchangeSys.step wholePrices) (.init wholePrices oneSymbol recvBufSize 3) longRequestRun = some s ∧
        s.point = .epollWait ∧ s.feed.loop.running = true ∧ 5 ∈ s.keys ∧
        s.upstream 5 = { ids := List.replicate 300 7, arrived := 603, read := 0, fin := false } := by
    decide +kernel
  obtain ⟨s, hrun, hwait, hrunning, hmem, hup⟩ := hrun
  have hlen : (s.upstream 5).ids.length = 300 := by
    rw [hup]
    exact List.length_replicate
  obtain ⟨es', t, ht, -, hlive⟩ := request_read wholePrices 3 longRequestRun s hrun hwait hrunning 5 hmem (by rw [hlen]; decide)
    (by rw [hup]) (by rw [hlen, hup])
  exact ⟨s, t, es', hrun, ht, hlive⟩

end MarketFeed
