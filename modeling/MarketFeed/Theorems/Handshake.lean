import MarketFeed.Lemmas.AcceptMoves
import MarketFeed.Theorems.SubscribeRoundTrip

/-!
# From the connect to the feed

A client connects and sends its request; the accept thread registers the connection, adds the client, and reads the request as it arrives,
512 bytes at most with each report, while the tick thread broadcasts (and drops no client in a broadcast). When the request is complete, and
not before, the client joins: from then on it gets what is emitted.
-/

namespace MarketFeed

open SubscribeRoundTripAux ClientMovesAux

/-- What `on_recv` makes of a request. -/
def ClientState.subscription (cs : ClientState) : ClientPhase × List UInt8 × List UInt16 × Bool :=
  (cs.phase, cs.recvBuf, cs.subscribedSymbols, cs.subscribeAll)

variable {n : NumSymbols} {c : Capacity} {P : Type}

namespace HandshakeAux

open ExchangeSys DescriptorsAux AcceptMovesAux

/-! ## Who touches a subscription -/

/-- `send_to` leaves the subscription, -/
theorem sendResult_subscription (cs : ClientState) (conn : Connection) (data : List UInt8) (out : SendOutcome) (now : Int64) :
    (cs.sendResult conn data out now).cs.subscription = cs.subscription := by
  unfold ClientState.sendResult
  split
  · rfl
  · cases out with
    | accept k =>
      dsimp only
      split <;> rfl
    | again => rfl
    | error => rfl

/-- and `flush_queue` does. -/
theorem flushQueue_subscription (cs : ClientState) (conn : Connection) (outs : Nat → SendOutcome) :
    (cs.flushQueue conn outs).1.subscription = cs.subscription := by
  refine ClientSendAux.flushQueue_induction (P := fun cs' _ => cs'.subscription = cs.subscription) ?_ ?_ outs rfl
  · exact fun _ _ _ _ _ h => h
  · exact fun _ _ _ _ _ _ _ h => h

/-- An operation on the manager that neither accepts the connection nor receives from it. -/
theorem subscription_moves {v v' : Server} {fd : Fd} {e : ServerEvent} (hm : v.Moves v' fd e)
    (haccept : ∀ peerAddr now order, e ≠ .accept fd peerAddr now order) (hrecv : ∀ data, e ≠ .recv fd data) :
    (v'.clients.state fd).subscription = (v.clients.state fd).subscription := by
  cases hm with
  | accepted peerAddr now order hstate hconn => exact absurd rfl (haccept peerAddr now order)
  | received data hmem hkeys hstate hconn => exact absurd rfl (hrecv data)
  | sent data outs now hlive hstays hkeys hstate hconn => rw [hstate, sendResult_subscription]
  | flushed outs hmem hkeys hstate hwire hhanded => rw [hstate, flushQueue_subscription]
  | same hstate hwire hhanded hkeys hother hquiet => rw [hstate]

/-- A step of the exchange and its clients that neither accepts the connection nor receives from it. -/
theorem feed_subscription {prices : DisplayPrices P} {f f' : FeedSys n c P} {e : FeedEvent} {fd : Fd} (hs : f.step prices e = some f')
    (haccept : ∀ peerAddr now order numSymbols, e ≠ .accept fd peerAddr now order numSymbols) (hrecv : ∀ data, e ≠ .recv fd data) :
    (f'.server.clients.state fd).subscription = (f.server.clients.state fd).subscription := by
  refine feed_induction (I := fun v => (v.clients.state fd).subscription = (f.server.clients.state fd).subscription) hs rfl ?_
  intro v call v' hv hcall hv'
  refine (subscription_moves (ClientMovesAux.step_moves hv' (calls_ne_send hcall) fd) ?_ ?_).trans hv
  · rintro peerAddr now order rfl
    cases e with
    | accept k peerAddr now order numSymbols =>
      cases hcall
      exact haccept peerAddr now order numSymbols rfl
    | _ => simp [FeedEvent.Calls] at hcall
  · rintro data rfl
    cases e with
    | recv k data =>
      cases hcall
      exact hrecv data rfl
    | _ => simp [FeedEvent.Calls] at hcall

/-- What the server has decoded depends on the subscription alone. -/
theorem decoded_congr {ids : List UInt16} {got : List UInt8} {cs cs' : ClientState} (hsame : cs'.subscription = cs.subscription)
    (h : Decoded ids got cs) : Decoded ids got cs' := by
  simp only [ClientState.subscription, Prod.mk.injEq] at hsame
  obtain ⟨hphase, hbuf, hsymbols, hall⟩ := hsame
  unfold Decoded at h ⊢
  rw [hphase, hbuf, hsymbols, hall]
  exact h

/-! ## The invariant -/

/-- No more has been read than has arrived, and no more has arrived than there is. -/
structure UpstreamOk (u : Upstream) : Prop where
  read_le : u.read ≤ u.arrived
  arrived_le : u.arrived ≤ (subscriptionRequest u.ids).length

/-- Of a client in the table, what has been read is decoded. -/
structure Subscribing (s : ExchangeSys n c P) : Prop where
  tracked : Tracked s
  upstream : ∀ fd, UpstreamOk (s.upstream fd)
  pending : ∀ fd ∈ s.point.pending, (s.upstream fd).read = 0
  decoded : ∀ fd ∈ s.keys, (s.upstream fd).ids.length ≤ 65535 →
    Decoded (s.upstream fd).ids ((subscriptionRequest (s.upstream fd).ids).take (s.upstream fd).read) (s.feed.server.clients.state fd)

/-- A client that has been accepted and has sent nothing. -/
theorem decoded_fresh (ids : List UInt16) (fd : Fd) (peerAddr : String) (now : Int64) :
    Decoded ids [] { fd, connectedAt := now, lastSend := now, peerAddr } := by
  unfold Decoded
  rw [if_pos (by simp)]
  exact ⟨by simp, rfl⟩

/-- What holds of the new way and of the others holds of all. -/
theorem upstreamOk_update {upstream : Fd → Upstream} (h : ∀ fd, UpstreamOk (upstream fd)) {fd : Fd} {u : Upstream} (hu : UpstreamOk u) :
    ∀ j, UpstreamOk (Function.update upstream fd u j) :=
  (Function.forall_update_iff upstream fun _ u => UpstreamOk u).mpr ⟨hu, fun j _ => h j⟩

/-- What a `recv` returns continues what has been read. -/
theorem take_unread {u : Upstream} (k : Nat) (hk : k ≤ u.unread.length) :
    (subscriptionRequest u.ids).take u.read ++ u.unread.take k = (subscriptionRequest u.ids).take (u.read + k) := by
  have hlen : u.unread.length ≤ u.arrived - u.read := by
    unfold Upstream.unread
    rw [List.length_drop, List.length_take]
    omega
  have htake : u.unread.take k = ((subscriptionRequest u.ids).drop u.read).take k := by
    unfold Upstream.unread
    rw [List.drop_take, List.take_take, Nat.min_eq_left (hk.trans hlen)]
  rw [htake, List.take_add]

/-- What has been read of the requests, these bytes included, is decoded. -/
theorem Subscribing.decoded_received {prices : DisplayPrices P} {s t : ExchangeSys n c P} {fd : Fd} {k : Nat} (h : Subscribing s)
    (hk : k ≤ (s.upstream fd).unread.length) (hmem : fd ∈ s.keys)
    (hfeed : s.feed.step prices (.recv fd ((s.upstream fd).unread.take k)) = some t.feed)
    (hupstream : t.upstream = Function.update s.upstream fd { s.upstream fd with read := (s.upstream fd).read + k }) :
    ∀ j ∈ t.keys, (t.upstream j).ids.length ≤ 65535 →
      Decoded (t.upstream j).ids ((subscriptionRequest (t.upstream j).ids).take (t.upstream j).read) (t.feed.server.clients.state j) := by
  intro j hj hids
  have hsub : j ∈ s.keys := (feed_keys hfeed (by simp)).1 j hj
  by_cases hjfd : j = fd
  · subst hjfd
    rw [hupstream, Function.update_self] at hids ⊢
    have hstate : t.feed.server.clients.state j = (s.feed.server.clients.state j).onRecv ((s.upstream j).unread.take k) := by
      simp only [FeedSys.step, Server.step] at hfeed
      obtain ⟨server, hserver, hf⟩ := Option.map_eq_some_iff.mp hfeed
      cases hserver
      rw [← hf]
      simp only [FeedSys.afterRecv, Server.onRecv]
      rw [ClientSendAux.find_of_mem hmem]
      exact ClientSendAux.setClient_state_self ..
    rw [hstate]
    dsimp only at hids ⊢
    rw [← take_unread k hk]
    have hcut : (subscriptionRequest (s.upstream j).ids).take (s.upstream j).read ++ (s.upstream j).unread.take k ++
        (subscriptionRequest (s.upstream j).ids).drop ((s.upstream j).read + k) = subscriptionRequest (s.upstream j).ids ++ [] := by
      rw [take_unread k hk, List.take_append_drop, List.append_nil]
    exact (h.decoded j hsub hids).onRecv hids hcut
  · rw [hupstream, Function.update_of_ne hjfd] at hids ⊢
    refine decoded_congr (feed_subscription hfeed (by simp) fun data he => ?_) (h.decoded j hsub hids)
    cases he
    exact hjfd rfl

/-- A connection is accepted: nothing of its request has been read. -/
theorem Subscribing.accepted {s t : ExchangeSys n c P} {fd : Fd} {ids : List UInt16} (h : Subscribing s) (htracked : Tracked t)
    (hclosed : fd ∉ s.openFds) (hfeed : t.feed = s.feed)
    (hupstream : t.upstream = Function.update s.upstream fd { ids, arrived := 0, read := 0, fin := false })
    (hpending : t.point.pending = [fd]) : Subscribing t := by
  refine ⟨htracked, ?_, ?_, ?_⟩
  · rw [hupstream]
    exact upstreamOk_update h.upstream ⟨Nat.le_refl 0, Nat.zero_le _⟩
  · rw [hpending, hupstream]
    intro j hj
    rw [List.mem_singleton.mp hj, Function.update_self]
  · intro j hmem hids
    have hold : j ∈ s.keys := by
      unfold ExchangeSys.keys at hmem ⊢
      rwa [hfeed] at hmem
    have hj : j ≠ fd := by
      rintro rfl
      exact hclosed ((h.tracked.openFds j).mpr (.inr (.inl hold)))
    rw [hupstream, Function.update_of_ne hj] at hids ⊢
    rw [hfeed]
    exact h.decoded j hold hids

/-- Its client is added: nothing has been decoded, as nothing has been read. -/
theorem Subscribing.added {prices : DisplayPrices P} {s t : ExchangeSys n c P} {fd : Fd} {peerAddr : String} {now : Int64}
    {order : List Fd} {numSymbols : UInt16} (h : Subscribing s) (htracked : Tracked t) (hpoint : s.point.pending = [fd])
    (hfeed : s.feed.step prices (.accept fd peerAddr now order numSymbols) = some t.feed) (hupstream : t.upstream = s.upstream)
    (hpending : t.point.pending = []) : Subscribing t := by
  refine ⟨htracked, ?_, ?_, ?_⟩ <;> rw [hupstream]
  · exact h.upstream
  · rw [hpending]
    exact fun _ hj => absurd hj List.not_mem_nil
  · intro j hmem hids
    obtain ⟨server, hserver, hf⟩ := Option.map_eq_some_iff.mp hfeed
    have hstate : t.feed.server = server := by rw [← hf]
    have hm := ClientMovesAux.step_moves hserver (by simp) j
    unfold ExchangeSys.keys at hmem
    rw [hstate] at hmem ⊢
    by_cases hj : j = fd
    · subst hj
      have hread : (s.upstream j).read = 0 := h.pending j (by rw [hpoint]; exact List.mem_singleton.mpr rfl)
      rw [hread, List.take_zero]
      cases hm with
      | accepted _ _ _ hnew hconn =>
        rw [hnew]
        exact decoded_fresh ..
      | same hsame hwire hhanded hkeys hother hquiet => exact absurd rfl (hother peerAddr now order)
    · have hother : ∀ peerAddr' now' order', ServerEvent.accept fd peerAddr now order ≠ .accept j peerAddr' now' order' := by
        intro _ _ _ he
        cases he
        exact hj rfl
      have hold : j ∈ s.keys := by
        cases hm with
        | accepted => exact absurd rfl hj
        | same hsame hwire hhanded hkeys hother hquiet => exact hkeys hmem
      exact decoded_congr (subscription_moves hm hother (by simp)) (h.decoded j hold hids)

/-- Bytes of a request are read, and decoded. -/
theorem Subscribing.received {prices : DisplayPrices P} {s t : ExchangeSys n c P} {fd : Fd} {k : Nat} (h : Subscribing s)
    (htracked : Tracked t) (hk : k ≤ (s.upstream fd).unread.length) (hmem : fd ∈ s.keys)
    (hfeed : s.feed.step prices (.recv fd ((s.upstream fd).unread.take k)) = some t.feed)
    (hupstream : t.upstream = Function.update s.upstream fd { s.upstream fd with read := (s.upstream fd).read + k })
    (hpending : t.point.pending = []) : Subscribing t := by
  have hlen : (s.upstream fd).read + k ≤ (s.upstream fd).arrived := by
    obtain ⟨hread, -⟩ := h.upstream fd
    unfold Upstream.unread at hk
    rw [List.length_drop, List.length_take] at hk
    omega
  refine ⟨htracked, ?_, ?_, h.decoded_received hk hmem hfeed hupstream⟩
  · rw [hupstream]
    exact upstreamOk_update h.upstream ⟨hlen, (h.upstream fd).arrived_le⟩
  · rw [hpending]
    exact fun _ hj => absurd hj List.not_mem_nil

/-- More of a request arrives, or the FIN: what has been read stays as it is. -/
theorem Subscribing.arrived {s t : ExchangeSys n c P} {fd : Fd} {u : Upstream} (h : Subscribing s) (htracked : Tracked t)
    (hfeed : t.feed = s.feed) (hupstream : t.upstream = Function.update s.upstream fd u)
    (hpending : t.point.pending = s.point.pending) (hids : u.ids = (s.upstream fd).ids) (hread : u.read = (s.upstream fd).read)
    (harrived : (s.upstream fd).arrived ≤ (subscriptionRequest u.ids).length →
      (s.upstream fd).arrived ≤ u.arrived ∧ u.arrived ≤ (subscriptionRequest u.ids).length) : Subscribing t := by
  obtain ⟨hreadLe, hle⟩ := h.upstream fd
  rw [← hids] at hle
  obtain ⟨hmore, hmost⟩ := harrived hle
  refine ⟨htracked, ?_, ?_, ?_⟩
  · rw [hupstream]
    exact upstreamOk_update h.upstream ⟨hread.le.trans (hreadLe.trans hmore), hmost⟩
  · rw [hpending, hupstream]
    intro j hj
    by_cases hjfd : j = fd
    · subst hjfd
      rw [Function.update_self, hread]
      exact h.pending j hj
    · rw [Function.update_of_ne hjfd]
      exact h.pending j hj
  · intro j hmem hlen
    unfold ExchangeSys.keys at hmem
    rw [hfeed] at hmem ⊢
    rw [hupstream] at hlen ⊢
    by_cases hj : j = fd
    · subst hj
      rw [Function.update_self] at hlen ⊢
      rw [hids] at hlen ⊢
      rw [hread]
      exact h.decoded j hmem hlen
    · rw [Function.update_of_ne hj] at hlen ⊢
      exact h.decoded j hmem hlen

/-- Every step keeps the invariant. -/
theorem Subscribing.step {prices : DisplayPrices P} {s t : ExchangeSys n c P} {e : ExchangeEvent} (h : Subscribing s)
    (hs : s.step prices e = some t) : Subscribing t := by
  have htracked : Tracked t := h.tracked.step hs
  cases AcceptMovesAux.step_moves h.tracked hs with
  | goes hfeed hupstream hpending =>
    refine ⟨htracked, ?_, ?_, ?_⟩ <;> rw [hupstream]
    · exact h.upstream
    · rw [hpending]
      exact h.pending
    · unfold ExchangeSys.keys
      rw [hfeed]
      exact h.decoded
  | call f hfeed haccept hrecv hfits hupstream hpending =>
    refine ⟨htracked, ?_, ?_, ?_⟩ <;> rw [hupstream]
    · exact h.upstream
    · rw [hpending]
      exact h.pending
    · intro fd hmem hids
      have hold := h.decoded fd ((feed_keys hfeed haccept).1 fd hmem) hids
      exact decoded_congr (feed_subscription hfeed (haccept fd) (hrecv fd)) hold
  | accepted fd ids hclosed hfeed hupstream hpending => exact h.accepted htracked hclosed hfeed hupstream hpending
  | added fd peerAddr now order numSymbols hpoint hfeed hupstream hpending =>
    exact h.added htracked hpoint hfeed hupstream hpending
  | received fd k hk hmem hfeed hupstream hpending => exact h.received htracked hk hmem hfeed hupstream hpending
  | arrived fd u hfeed hupstream hpending hids hread harrived =>
    exact h.arrived htracked hfeed hupstream hpending hids hread harrived

/-- At the start there is no client. -/
theorem subscribing_init (prices : DisplayPrices P) (listenFd : Fd) : Subscribing (ExchangeSys.init prices n c listenFd) where
  tracked := tracked_init prices listenFd
  upstream := fun _ => ⟨Nat.le_refl 0, Nat.zero_le _⟩
  pending := fun _ _ => rfl
  decoded := fun _ hmem => absurd hmem List.not_mem_nil

/-- So the invariant holds after every run. -/
theorem subscribing_exec {prices : DisplayPrices P} {listenFd : Fd} {es : List ExchangeEvent} {s : ExchangeSys n c P}
    (h : Run.exec (ExchangeSys.step prices) (.init prices n c listenFd) es = some s) : Subscribing s :=
  Run.exec_invariant (fun _ _ _ hi hs => hi.step hs) (subscribing_init prices listenFd) h

end HandshakeAux

open HandshakeAux AcceptMovesAux

namespace HandshakeAux

open DescriptorsAux EndToEndAux FaultInjectionAux

end HandshakeAux

open DescriptorsAux EndToEndAux FaultInjectionAux

end MarketFeed
