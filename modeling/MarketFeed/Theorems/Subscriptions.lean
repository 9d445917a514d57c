import MarketFeed.Theorems.Broadcast
import MarketFeed.TickGenerator

/-!
# What a client is subscribed to and what it gets

`on_recv` parses a subscription into `subscribe_all` and `subscribed_symbols`, and no other function reads these: `broadcast` hands
every message to every live client. So, where no broadcast drops a client, the clients get what they subscribed to exactly in the runs
in which no message is broadcast that a live client has not subscribed to.
-/

namespace MarketFeed

open ClientSendAux BroadcastAux

/-! ## Subscriptions -/

/-- What the subscription of a client is about: heartbeats, and the symbols it has listed, or all of them. -/
def ClientState.Subscribed (cs : ClientState) (m : Msg) : Prop :=
  m.header.msgType = msgHeartbeat ∨ cs.subscribeAll = true ∨ m.header.symbolId ∈ cs.subscribedSymbols

instance (cs : ClientState) (m : Msg) : Decidable (cs.Subscribed m) := inferInstanceAs (Decidable (_ ∨ _ ∨ _))

/-- The operations on the manager, with the messages that go through `broadcast`. -/
inductive MessageEvent where
  | accept (fd : Fd) (peerAddr : String) (now : Int64) (order : List Fd)
  | remove (fd : Fd)
  | recv (fd : Fd) (data : List UInt8)
  | broadcast (m : Msg) (outs : Fd → SendOutcome) (now : Int64)
  | flush (fd : Fd) (outs : Nat → SendOutcome)
  | tick

/-- The operation as it is called. -/
def MessageEvent.op : MessageEvent → ServerEvent
  | .accept fd peerAddr now order => .accept fd peerAddr now order
  | .remove fd => .remove fd
  | .recv fd data => .recv fd data
  | .broadcast m outs now => .broadcast m.bytes outs now
  | .flush fd outs => .flush fd outs
  | .tick => .tick

/-- The manager, with what each client was due since it was accepted. -/
structure SubscriptionLog where
  server : Server
  due : Fd → List (List UInt8)

namespace SubscriptionLog

def init : SubscriptionLog := { server := .empty, due := fun _ => [] }

/-- What the clients are due after an operation: a message is due to the live clients that have subscribed to it. -/
def dueAfter (s : SubscriptionLog) : MessageEvent → Fd → List (List UInt8)
  | .accept fd _ _ _ => Function.update s.due fd []
  | .broadcast m _ _ => fun fd =>
    if s.server.IsLive fd ∧ (s.server.clients.state fd).Subscribed m then s.due fd ++ [m.bytes] else s.due fd
  | _ => s.due

/-- One operation. -/
def step (s : SubscriptionLog) (e : MessageEvent) : Option SubscriptionLog :=
  (s.server.step e.op).map fun v => { server := v, due := s.dueAfter e }

/-- What `send_to` was called with for a client is what the client was due. -/
def HandsOutDue (s : SubscriptionLog) : Prop := ∀ fd, (s.server.conns fd).handed = s.due fd

/-- A message that is broadcast is one that every live client has subscribed to. -/
def SubscribedByAll (s : SubscriptionLog) : MessageEvent → Prop
  | .broadcast m _ _ => ∀ fd ∈ s.server.clients.keys,
    (s.server.clients.state fd).phase = .live → (s.server.clients.state fd).Subscribed m
  | _ => True

instance (s : SubscriptionLog) : (e : MessageEvent) → Decidable (s.SubscribedByAll e)
  | .accept .. => isTrue trivial
  | .remove _ => isTrue trivial
  | .recv .. => isTrue trivial
  | .broadcast .. => List.decidableBAll (fun _ => _ → _) _
  | .flush .. => isTrue trivial
  | .tick => isTrue trivial

end SubscriptionLog

/-! ## What the operations hand over -/

namespace SubscriptionsAux

/-- What `send_to` has been called with is not changed by `arm_epollout`, -/
theorem armEpollout_handed (v : Server) (fd : Fd) (enable : Bool) (k : Fd) :
    ((v.armEpollout fd enable).conns k).handed = (v.conns k).handed := by
  by_cases hk : k = fd
  · subst hk
    rw [armEpollout_conns_self]
  · rw [((Touches.refl fd v).armEpollout enable).conns k hk]

/-- by `remove_client`, -/
theorem removeClient_handed (v : Server) (fd k : Fd) : ((v.removeClient fd).conns k).handed = (v.conns k).handed := by
  unfold Server.removeClient
  split
  · exact armEpollout_handed v fd false k
  · rfl

/-- by `tick`, -/
theorem tick_handed (v : Server) (k : Fd) : (v.tick.conns k).handed = (v.conns k).handed := by
  unfold Server.tick
  generalize v.clients.keys.filter _ = toRemove
  dsimp only
  induction toRemove generalizing v with
  | nil => rfl
  | cons fd toRemove ih => rw [List.foldl_cons, ih, removeClient_handed]

/-- by `on_recv`, -/
theorem onRecv_handed (v : Server) (fd : Fd) (data : List UInt8) (k : Fd) :
    ((v.onRecv fd data).conns k).handed = (v.conns k).handed := by
  unfold Server.onRecv
  split <;> rfl

/-- or by `flush_pending`. -/
theorem flushPending_handed (v : Server) (fd : Fd) (outs : Nat → SendOutcome) (k : Fd) :
    ((v.flushPending fd outs).conns k).handed = (v.conns k).handed := by
  by_cases hk : k = fd
  · subst hk
    unfold Server.flushPending
    split
    · rfl
    · rename_i cs hfind
      have hhanded := (flushQueue_frame cs (v.conns k) outs).1
      dsimp only
      split
      · rw [armEpollout_handed, setConn_conns_self]
        exact hhanded
      · rw [setConn_conns_self]
        exact hhanded
  · rw [(flushPending_touches v fd outs).conns k hk]

/-- A call of `send_to` is recorded, whatever comes of it. -/
theorem sendTo_handed {v : Server} {fd : Fd} (data : List UInt8) (out : SendOutcome) (now : Int64) (hmem : fd ∈ v.clients.keys) :
    ((v.sendTo fd data out now).1.conns fd).handed = (v.conns fd).handed ++ [data] := by
  unfold Server.sendTo
  rw [find_of_mem hmem]
  dsimp only
  split
  · split
    · rw [removeClient_handed]
      simp
    · simp
  · cases out with
    | accept k =>
      dsimp only
      split <;> simp
    | again => simp
    | error =>
      rw [removeClient_handed]
      simp

/-- The visit of an entry hands the message over when the entry is live. -/
theorem visit_handed {v : Server} {fd : Fd} (data : List UInt8) (out : SendOutcome) (now : Int64) (hmem : fd ∈ v.clients.keys) :
    ((v.visit fd data out now).1.conns fd).handed =
      (v.conns fd).handed ++ if (v.clients.state fd).phase = .live then [data] else [] := by
  unfold Server.visit
  by_cases hl : (v.clients.state fd).phase = .live
  · rw [if_neg (not_not.mpr hl), if_pos hl]
    exact sendTo_handed data out now hmem
  · rw [if_pos hl, if_neg hl, List.append_nil]

/-- The loop from an entry on, when it gets to the end, hands the message over for every live entry from there on. -/
theorem broadcastFrom_handed {v v' : Server} {data : List UInt8} {outs : Fd → SendOutcome} {now : Int64}
    {before after : List Fd} {calls calls' : List Fd} (hkeys : v.clients.keys = before ++ after)
    (hdone : Server.broadcastFrom data outs now after.length v after.head? calls = .done v' calls') (k : Fd) :
    (v'.conns k).handed =
      (v.conns k).handed ++ if k ∈ after ∧ (v.clients.state k).phase = .live then [data] else [] := by
  induction after generalizing v before calls with
  | nil =>
    cases hdone
    simp
  | cons fd after ih =>
    have hmem : fd ∈ v.clients.keys := by
      rw [hkeys]
      exact List.mem_append_right before List.mem_cons_self
    have hnodup := v.clients.nodup
    rw [hkeys] at hnodup
    have hfd : fd ∉ after := (List.nodup_cons.mp (List.nodup_append.mp hnodup).2.1).1
    rw [List.length_cons, List.head?_cons] at hdone
    by_cases hdrop : (v.clients.state fd).phase = .live ∧ Drops (v.clients.state fd) data (outs fd)
    · rw [broadcastFrom_dropped now hmem hdrop] at hdone
      cases hdone
    · obtain ⟨hnext, hkeys', hstate⟩ := broadcastFrom_kept now hkeys hdrop after.length calls
      rw [hnext] at hdone
      rw [ih hkeys' hdone]
      by_cases hk : k = fd
      · subst hk
        rw [visit_handed data (outs k) now hmem]
        simp [hfd]
      · rw [(visit_touches v fd data (outs fd) now).conns k hk]
        by_cases hafter : k ∈ after
        · rw [hstate k hafter]
          simp [hk, hafter]
        · simp [hk, hafter]

/-- `broadcast` hands the message over for every live client and for no other. -/
theorem broadcast_handed {v v' : Server} {data : List UInt8} {outs : Fd → SendOutcome} {now : Int64} {calls : List Fd}
    (hdone : v.broadcast data outs now = .done v' calls) (k : Fd) :
    (v'.conns k).handed = (v.conns k).handed ++ if v.IsLive k then [data] else [] :=
  broadcastFrom_handed (List.nil_append v.clients.keys).symm hdone k

/-- An operation that accepts no descriptor in use and drops no client in a broadcast can be taken. -/
theorem step_of_ok {s : SubscriptionLog} {e : MessageEvent} (hfresh : s.server.AcceptsFresh e.op) (hdrop : s.server.DropsNone e.op) :
    ∃ s', s.step e = some s' := by
  obtain ⟨v, hv⟩ := (Server.step_iff s.server e.op).mpr ⟨hfresh, hdrop⟩
  exact ⟨_, congrArg (Option.map _) hv⟩

/-- One message more is handed over exactly when it is due. -/
theorem append_ite_eq_iff {α : Type*} {l : List α} {x : α} {p q : Prop} [Decidable p] [Decidable q] :
    (l ++ if p then [x] else []) = (if p ∧ q then l ++ [x] else l) ↔ (p → q) := by
  by_cases hp : p <;> by_cases hq : q <;> simp [hp, hq]

/-- An operation keeps to what is due exactly when it does not broadcast a message to which a live client has not subscribed. -/
theorem handsOutDue_step {s s' : SubscriptionLog} {e : MessageEvent} (h : s.HandsOutDue) (hs : s.step e = some s') :
    s'.HandsOutDue ↔ s.SubscribedByAll e := by
  obtain ⟨v, hv, rfl⟩ := Option.map_eq_some_iff.mp hs
  cases e with
  | accept fd peerAddr now order =>
    refine iff_of_true (fun k => ?_) trivial
    simp only [MessageEvent.op, Server.step] at hv
    split at hv <;> cases hv
    by_cases hk : k = fd
    · subst hk
      simp [Server.addClient, SubscriptionLog.dueAfter]
    · simp only [Server.addClient, SubscriptionLog.dueAfter, Function.update_of_ne hk]
      exact h k
  | remove fd =>
    cases hv
    exact iff_of_true (fun k => (removeClient_handed s.server fd k).trans (h k)) trivial
  | recv fd data =>
    cases hv
    exact iff_of_true (fun k => (onRecv_handed s.server fd data k).trans (h k)) trivial
  | broadcast m outs now =>
    simp only [MessageEvent.op, Server.step] at hv
    split at hv <;> rename_i hdone <;> cases hv
    have heach : ∀ k, (v.conns k).handed = s.dueAfter (.broadcast m outs now) k ↔
        (s.server.IsLive k → (s.server.clients.state k).Subscribed m) := by
      intro k
      rw [broadcast_handed hdone k, h k]
      exact append_ite_eq_iff
    exact ⟨fun hall k hk hl => (heach k).mp (hall k) ⟨hk, hl⟩, fun hall k => (heach k).mpr (fun hl => hall k hl.1 hl.2)⟩
  | flush fd outs =>
    cases hv
    exact iff_of_true (fun k => (flushPending_handed s.server fd outs k).trans (h k)) trivial
  | tick =>
    cases hv
    exact iff_of_true (fun k => (tick_handed s.server k).trans (h k)) trivial

end SubscriptionsAux

open SubscriptionsAux

/-- Any run of the manager's operations in which no broadcast drops a client, with descriptors that are not in use handed out to new
clients. In all its states, what `send_to` was called with for each client is what the client was due, exactly when every message was
broadcast while all live clients had subscribed to it. -/
theorem handsOutDue_iff (es : List MessageEvent)
    (hfresh : Run.Along SubscriptionLog.step (fun s e => s.server.AcceptsFresh e.op) SubscriptionLog.init es)
    (hdrop : Run.Along SubscriptionLog.step (fun s e => s.server.DropsNone e.op) SubscriptionLog.init es) :
    ∃ s, Run.exec SubscriptionLog.step SubscriptionLog.init es = some s ∧
      ((∀ n t, Run.exec SubscriptionLog.step SubscriptionLog.init (es.take n) = some t → t.HandsOutDue) ↔
        Run.Along SubscriptionLog.step SubscriptionLog.SubscribedByAll SubscriptionLog.init es) := by
  obtain ⟨s, hs⟩ := Run.exec_of_along (fun _ _ hok => step_of_ok hok.1 hok.2) (hfresh.and hdrop)
  exact ⟨s, hs, Run.forall_take_iff_along (fun _ _ _ hs hstep => handsOutDue_step hs hstep) (fun _ => rfl) hs⟩

namespace SubscriptionsAux

def tradeOf (sym : UInt16) : Msg := .trade (.ofIndex sym) 1000 5 ⟨4641240890982006784, 200⟩

/-- Two clients, the second subscribed to symbol 7 in two pieces; a trade of the symbol is broadcast before and after the second piece,
then a heartbeat. -/
def subscribedRun : List MessageEvent :=
  [.accept 5 "10.0.0.1:4000" 1 [5], .recv 5 [255, 0, 0], .accept 6 "10.0.0.2:4000" 2 [6, 5], .recv 6 [255, 1],
    .broadcast (tradeOf 7) (fun _ => .accept 99) 3, .recv 6 [0, 7, 0], .broadcast (tradeOf 7) (fun _ => .accept 99) 4,
    .broadcast (.heartbeat 0 1001 6) (fun _ => .accept 99) 5]

/-- A client subscribed to symbol 7, and a trade of symbol 8. -/
def otherSymbolRun : List MessageEvent :=
  [.accept 5 "10.0.0.1:4000" 1 [5], .recv 5 [255, 1, 0, 7, 0], .broadcast (tradeOf 8) (fun _ => .accept 99) 3]

end SubscriptionsAux

/-- The run `subscribedRun` meets the hypotheses of `handsOutDue_iff`, and the condition. -/
theorem handsOutDue_iff_subscribedRun :
    ∃ s, Run.exec SubscriptionLog.step SubscriptionLog.init subscribedRun = some s ∧
      (s.server.conns 6).handed = [(tradeOf 7).bytes, (Msg.heartbeat 0 1001 6).bytes] ∧
      ∀ n t, Run.exec SubscriptionLog.step SubscriptionLog.init (subscribedRun.take n) = some t → t.HandsOutDue := by
  have hrun : ∃ s, Run.exec SubscriptionLog.step SubscriptionLog.init subscribedRun = some s ∧
      (s.server.conns 6).handed = [(tradeOf 7).bytes, (Msg.heartbeat 0 1001 6).bytes] := by decide +kernel
  obtain ⟨s, hrun, hhanded⟩ := hrun
  obtain ⟨-, -, hiff⟩ := handsOutDue_iff subscribedRun (by decide +kernel) (by decide +kernel)
  exact ⟨s, hrun, hhanded, hiff.mpr (by decide +kernel)⟩

/-- In the run `otherSymbolRun` the client, which is due nothing, is handed the trade. -/
theorem unsubscribed_handed_over :
    ∃ s, Run.exec SubscriptionLog.step SubscriptionLog.init otherSymbolRun = some s ∧
      (s.server.clients.state 5).phase = .live ∧ (s.server.clients.state 5).subscribedSymbols = [7] ∧
      (s.server.clients.state 5).subscribeAll = false ∧ (s.server.conns 5).handed = [(tradeOf 8).bytes] ∧ s.due 5 = [] ∧
      ¬s.HandsOutDue := by
  have hrun : ∃ s, Run.exec SubscriptionLog.step SubscriptionLog.init otherSymbolRun = some s ∧
      (s.server.clients.state 5).phase = .live ∧ (s.server.clients.state 5).subscribedSymbols = [7] ∧
      (s.server.clients.state 5).subscribeAll = false ∧ (s.server.conns 5).handed = [(tradeOf 8).bytes] ∧ s.due 5 = [] := by
    decide +kernel
  obtain ⟨s, hrun, hlive, hsymbols, hall, hhanded, hdue⟩ := hrun
  refine ⟨s, hrun, hlive, hsymbols, hall, hhanded, hdue, fun h => ?_⟩
  rw [h 5, hdue] at hhanded
  cases hhanded

end MarketFeed
