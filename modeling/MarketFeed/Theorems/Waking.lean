import MarketFeed.Lemmas.ConnectionFlags

/-!
# Waking a disconnected client

The network thread of a client that is not connected goes round its loop without an event, and `reconnect_loop` goes round its own:
six of its steps lead from anywhere to the write that makes the eventfd readable, and only an event of the eventfd makes it unreadable
again. That event leads to `do_connect`.
-/

namespace MarketFeed

open ConnectionFlagsAux

/-- A point of the network thread on its way round the loop without an event. -/
def NetworkPoint.idle : NetworkPoint → Bool
  | .head | .epollWait | .events [] | .loadConnected => true
  | _ => false

/-- A step of the reconnect thread counts. -/
def HandlerEvent.reconnectSteps : HandlerEvent → Nat
  | .reconnect _ => 1
  | _ => 0

/-- `epoll_wait` has something to report. -/
def HandlerEvent.isReport : HandlerEvent → Bool
  | .network (.wait (.ready events)) => !events.isEmpty
  | _ => false

namespace WakingAux

/-! ## The socket -/

/-- The descriptor is open exactly when the handler is connected, but for the moment between `connect` and the store of the flag, and that
between the exchange of the flag and the `close`. -/
def OpenOk (s : FeedHandler) : NetworkPoint → Prop
  | .storeConnected _ => s.socket.isOpen = true
  | .closeSocket _ => True
  | _ => s.socket.isOpen = s.connected

/-- Where the network thread goes on after `on_disconnect` or `do_connect`, the socket is as it says. -/
theorem openOk_point {s : FeedHandler} (h : s.socket.isOpen = s.connected) (k : Resume) : OpenOk s k.point := by
  cases k <;> exact h

/-- A step of the network thread keeps the socket open exactly where it should be. -/
theorem openOk_network {s t : FeedHandler} {e : NetworkEvent} (hflags : FlagsOk s s.network) (h : OpenOk s s.network)
    (hs : s.networkStep e = some t) : OpenOk t t.network := by
  have hmove := FeedHandler.networkStep_moves hs
  generalize hp : s.network = p at hflags h hmove
  cases hmove with
  | connected k => rfl
  | notConnected k => exact hflags.1.symm
  | storeConnected k => exact h
  | resetPolicy k => exact openOk_point h k
  | connectFailed k => exact openOk_point h k
  | received rest n hmay =>
    dsimp only
    rw [hp]
    exact h
  | tryAgain rest hmay =>
    rw [hp]
    exact h
  | disconnect k hc => trivial
  | alreadyDisconnected k hc => exact openOk_point h k
  | closeSocket k => exact hflags.1.symm
  | stopped k hr => exact openOk_point h k
  | signal k => exact openOk_point h k
  | _ => exact h

/-- So does any step that leaves the network thread where it is and the socket as it is. -/
theorem openOk_leave {s t : FeedHandler} (h : OpenOk s s.network) (hl : LeavesNetwork s t)
    (hopen : t.socket.isOpen = s.socket.isOpen) : OpenOk t t.network := by
  rw [hl.network]
  cases hp : s.network <;> rw [hp] at h <;> simp only [OpenOk, hopen, hl.connected] at h ⊢ <;> exact h

/-! ## The reconnect thread -/

/-- A step of another thread or of the peer as the reconnect thread sees it. -/
structure LeavesReconnect (s t : FeedHandler) : Prop where
  reconnect : t.reconnect = s.reconnect
  running : t.running = true → s.running = true

/-- The reconnect thread ends with the handler stopped. -/
def ReconnectOk (s : FeedHandler) : Prop := s.reconnect = .finished → s.running = false

/-- A step that leaves the reconnect thread where it is, and does not start the handler, keeps why it has finished. -/
theorem LeavesReconnect.ok {s t : FeedHandler} (hl : LeavesReconnect s t) (h : ReconnectOk s) : ReconnectOk t := by
  intro hfin
  rw [hl.reconnect] at hfin
  have hrun := hl.running
  rw [h hfin] at hrun
  by_contra ht
  exact Bool.false_ne_true (hrun (by simpa using ht))

/-- A step of the network thread is such a step, -/
theorem network_leavesReconnect {s t : FeedHandler} {e : NetworkEvent} (hs : s.networkStep e = some t) : LeavesReconnect s t := by
  have hmove := FeedHandler.networkStep_moves hs
  generalize s.network = p at hmove
  cases hmove <;> exact ⟨rfl, id⟩

/-- one of `stop` too, -/
theorem stop_leavesReconnect (s : FeedHandler) : LeavesReconnect s s.stopStep := by
  unfold FeedHandler.stopStep
  split
  · exact ⟨rfl, nofun⟩
  · exact ⟨rfl, id⟩

/-- and one of the peer. -/
theorem peer_leavesReconnect {s t : FeedHandler} {e : PeerEvent} (hs : s.peerStep e = some t) : LeavesReconnect s t := by
  obtain ⟨-, -, ⟨bytes, rfl⟩ | rfl⟩ := peerStep_cases hs <;> exact ⟨rfl, id⟩

/-- The reconnect thread finishes when it finds the handler stopped, or stops it when it gives up. -/
theorem reconnectOk_reconnect {s t : FeedHandler} {e : ReconnectEvent} (hs : s.reconnectStep e = some t) : ReconnectOk t := by
  cases e with
  | step =>
    simp only [FeedHandler.reconnectStep] at hs
    split at hs <;> cases hs <;> intro hfin
    case h_4 => rfl
    case h_6 => cases hfin
    all_goals
      dsimp only at hfin ⊢
      split at hfin <;> rename_i hr <;> cases hfin <;> simpa using hr
  | delay rand =>
    simp only [FeedHandler.reconnectStep] at hs
    split at hs <;> cases hs
    intro hfin
    cases hfin

/-- The invariant. -/
structure HandlerOk (s : FeedHandler) : Prop where
  flags : FlagsOk s s.network
  descriptor : OpenOk s s.network
  reconnect : ReconnectOk s

/-- Every step of any thread keeps the three. -/
theorem HandlerOk.step {s t : FeedHandler} {e : HandlerEvent} (h : HandlerOk s) (hs : s.step e = some t) : HandlerOk t := by
  refine ⟨h.flags.step hs, ?_, ?_⟩
  · cases e with
    | network e => exact openOk_network h.flags h.descriptor hs
    | reconnect e =>
      obtain ⟨hl, hsocket⟩ := reconnectStep_leaves hs
      exact openOk_leave h.descriptor hl (congrArg Socket.isOpen hsocket)
    | stop =>
      cases hs
      obtain ⟨hl, hsocket⟩ := stopStep_leaves s
      exact openOk_leave h.descriptor hl (congrArg Socket.isOpen hsocket)
    | peer e =>
      refine openOk_leave h.descriptor (peerStep_leaves hs) ?_
      obtain ⟨-, -, ⟨bytes, rfl⟩ | rfl⟩ := peerStep_cases hs <;> rfl
  · cases e with
    | network e => exact (network_leavesReconnect hs).ok h.reconnect
    | reconnect e => exact reconnectOk_reconnect hs
    | stop =>
      cases hs
      exact (stop_leavesReconnect s).ok h.reconnect
    | peer e => exact (peer_leavesReconnect hs).ok h.reconnect

/-- They hold at the start. -/
theorem handlerOk_init : HandlerOk .init := ⟨flagsOk_init, rfl, nofun⟩

/-! ## Until the eventfd is readable -/

/-- A client that is not connected, has a reconnect pending and goes round the loop of the network thread. -/
structure Waiting (s : FeedHandler) : Prop where
  idle : s.network.idle = true
  connected : s.connected = false
  pending : s.reconnectPending = true
  closed : s.socket.isOpen = false

/-- How many steps the reconnect thread is from its write. -/
def stepsToSignal : ReconnectPoint → Nat
  | .head => 6
  | .loadPending => 5
  | .testGiveUp => 4
  | .nextDelay => 3
  | .sleeping _ => 2
  | .signal | .givingUp => 1
  | .finished => 0

/-- How many steps of the reconnect thread the eventfd is from being readable. -/
def stepsToWake (s : FeedHandler) : Nat := if 0 < s.eventCount then 0 else stepsToSignal s.reconnect

/-- The network thread does not come back when it has finished, nor `running_` when it is false. -/
theorem step_ends {s t : FeedHandler} {e : HandlerEvent} (hs : s.step e = some t) :
    (t.running = true → s.running = true) ∧ (s.network = .finished → t.network = .finished) := by
  cases e with
  | network e =>
    refine ⟨(network_leavesReconnect hs).running, fun hfin => ?_⟩
    have hmove := FeedHandler.networkStep_moves hs
    rw [hfin] at hmove
    cases hmove
  | reconnect e =>
    obtain ⟨hl, -⟩ := reconnectStep_leaves hs
    exact ⟨hl.running, fun hfin => hl.network.trans hfin⟩
  | stop =>
    cases hs
    obtain ⟨hl, -⟩ := stopStep_leaves s
    exact ⟨hl.running, fun hfin => hl.network.trans hfin⟩
  | peer e =>
    have hl := peerStep_leaves hs
    exact ⟨hl.running, fun hfin => hl.network.trans hfin⟩

/-- The network thread waits on while the others leave it, the flags and the socket as they are. -/
theorem Waiting.leave {s t : FeedHandler} (h : Waiting s) (hl : LeavesNetwork s t) (hopen : t.socket.isOpen = s.socket.isOpen) :
    Waiting t :=
  ⟨by rw [hl.network]; exact h.idle, by rw [hl.connected]; exact h.connected, by rw [hl.pending]; exact h.pending,
    by rw [hopen]; exact h.closed⟩

/-- A step of the network thread without a report leaves a waiting client waiting, if the thread does not end. -/
theorem waiting_network {s t : FeedHandler} {e : NetworkEvent} (h : Waiting s) (hquiet : (HandlerEvent.network e).isReport = false)
    (hs : s.networkStep e = some t) (hne : t.network ≠ .finished) :
    Waiting t ∧ t.eventCount = s.eventCount ∧ t.reconnect = s.reconnect := by
  have hmove := FeedHandler.networkStep_moves hs
  obtain ⟨hidle, hc, hpend, hclosed⟩ := h
  generalize s.network = p at hidle hmove
  cases hmove with
  | goOn hr => exact ⟨⟨rfl, hc, hpend, hclosed⟩, rfl, rfl⟩
  | leaveLoop hr => exact absurd rfl hne
  | ready events hlength hcount hreports =>
    cases events with
    | nil => exact ⟨⟨rfl, hc, hpend, hclosed⟩, rfl, rfl⟩
    | cons r rest => cases hquiet
  | interrupted => exact ⟨⟨rfl, hc, hpend, hclosed⟩, rfl, rfl⟩
  | failed => exact absurd rfl hne
  | batchDone => exact ⟨⟨rfl, hc, hpend, hclosed⟩, rfl, rfl⟩
  | noWatch hc' => exact ⟨⟨rfl, hc, hpend, hclosed⟩, rfl, rfl⟩
  | watch hc' =>
    rw [hc] at hc'
    cases hc'
  | _ => cases hidle

/-- A step of the reconnect thread brings the write nearer, while a reconnect is pending and the handler is running. -/
theorem nearer_reconnect {s t : FeedHandler} {e : ReconnectEvent} (hpend : s.reconnectPending = true) (hrun : t.running = true)
    (hs : s.reconnectStep e = some t) : stepsToWake t ≤ stepsToWake s - 1 := by
  have hr : s.running = true := (reconnectStep_leaves hs).1.running hrun
  unfold stepsToWake
  cases e with
  | step =>
    simp only [FeedHandler.reconnectStep] at hs
    split at hs <;> rename_i hp <;> cases hs <;> rw [hp]
    case h_4 => cases hrun
    case h_6 => exact Nat.zero_le _
    case h_1 | h_2 | h_5 =>
      simp only [hr, hpend, if_true, stepsToSignal]
      split <;> omega
    case h_3 =>
      dsimp only
      split
      · exact Nat.zero_le _
      · split <;> simp [stepsToSignal]
  | delay rand =>
    simp only [FeedHandler.reconnectStep] at hs
    split at hs <;> rename_i hp <;> cases hs
    rw [hp]
    simp only [stepsToSignal]
    split <;> omega

/-- A step without a report leaves a waiting client waiting, and brings the write nearer when it is one of the reconnect thread. -/
theorem waiting_step {s t : FeedHandler} {e : HandlerEvent} (h : Waiting s) (hquiet : e.isReport = false) (hs : s.step e = some t)
    (hrun : t.running = true) (hne : t.network ≠ .finished) :
    Waiting t ∧ stepsToWake t ≤ stepsToWake s - e.reconnectSteps := by
  cases e with
  | network e =>
    obtain ⟨hw, hcount, hreconnect⟩ := waiting_network h hquiet hs hne
    refine ⟨hw, ?_⟩
    unfold stepsToWake
    rw [hcount, hreconnect]
    exact Nat.le_refl _
  | reconnect e =>
    obtain ⟨hl, hsocket⟩ := reconnectStep_leaves hs
    exact ⟨h.leave hl (congrArg Socket.isOpen hsocket), nearer_reconnect h.pending hrun hs⟩
  | stop =>
    cases hs
    unfold FeedHandler.stopStep at hrun
    cases hsig : s.stopper with
    | idle =>
      rw [hsig] at hrun
      cases hrun
    | signal =>
      obtain ⟨hl, hsocket⟩ := stopStep_leaves s
      refine ⟨h.leave hl (congrArg Socket.isOpen hsocket), ?_⟩
      unfold FeedHandler.stopStep stepsToWake
      rw [hsig]
      exact Nat.zero_le _
  | peer e =>
    obtain ⟨hopen, -⟩ := peerStep_cases hs
    rw [h.closed] at hopen
    cases hopen

/-- Over a run, each step of the reconnect thread counts. -/
theorem waiting_run {es : List HandlerEvent} {s t : FeedHandler} (h : Waiting s) (hquiet : ∀ e ∈ es, e.isReport = false)
    (hexec : Run.exec FeedHandler.step s es = some t) (hrun : t.running = true) (hne : t.network ≠ .finished) :
    Waiting t ∧ stepsToWake t ≤ stepsToWake s - (es.map HandlerEvent.reconnectSteps).sum := by
  induction es generalizing s with
  | nil =>
    cases hexec
    exact ⟨h, Nat.le_refl _⟩
  | cons e es ih =>
    obtain ⟨s', hs', hexec'⟩ := Run.exec_cons_eq_some.mp hexec
    -- the thread has not finished and the handler not been stopped in between
    have hends : s'.running = true ∧ s'.network ≠ .finished :=
      ⟨Run.exec_invariant (I := fun u => u.running = true → s'.running = true) (fun _ _ _ hi hs hu => hi ((step_ends hs).1 hu)) id
          hexec' hrun,
        fun hfin => hne (Run.exec_invariant (I := fun u => u.network = .finished) (fun _ _ _ hi hs => (step_ends hs).2 hi) hfin hexec')⟩
    obtain ⟨hw, hle⟩ := waiting_step h (hquiet e List.mem_cons_self) hs' hends.1 hends.2
    obtain ⟨ht, hle'⟩ := ih hw (fun e' he' => hquiet e' (List.mem_cons_of_mem e he')) hexec'
    refine ⟨ht, ?_⟩
    rw [List.map_cons, List.sum_cons]
    omega

/-! ## The report -/

/-- What is reported to a waiting client is an event of the eventfd, and it leads to `do_connect`. -/
theorem Waiting.report {s t : FeedHandler} (h : Waiting s) {r : Ready} {rest : List Ready}
    (hs : s.networkStep (.wait (.ready (r :: rest))) = some t) :
    ∃ u, Run.exec FeedHandler.step t [.network .step, .network .step] = some u ∧ u.network = .connect (.events rest) := by
  have hmove := FeedHandler.networkStep_moves hs
  generalize s.network = p at hmove
  cases hmove with
  | ready _ hlength hcount hreports =>
    have hreport := hreports r List.mem_cons_self
    cases r with
    | socket flags =>
      have hopen := h.closed
      rw [hreport.1] at hopen
      cases hopen
    | eventFd =>
      exact ⟨_, Run.exec_cons_eq_some.mpr ⟨_, rfl, Run.exec_cons_eq_some.mpr ⟨_, if_pos h.pending, rfl⟩⟩, rfl⟩

end WakingAux

open WakingAux

/-- In every run, from a state in which the network thread of a client that is not connected waits in `epoll_wait`: when the reconnect
thread has taken six steps, whatever the other threads have done, the eventfd is readable and the client still goes round its loop,
unless it has been stopped or has given up, `epoll_wait` has failed, or there has been a report; and the report that there is then
leads to `do_connect`. -/
theorem waiting_client_woken (es : List HandlerEvent) (s : FeedHandler) (h : Run.exec FeedHandler.step .init es = some s)
    (hconnected : s.connected = false) (hwait : s.network = .epollWait) (es' : List HandlerEvent) (t : FeedHandler)
    (h' : Run.exec FeedHandler.step s es' = some t) (hquiet : ∀ e ∈ es', e.isReport = false)
    (hsix : 6 ≤ (es'.map HandlerEvent.reconnectSteps).sum) (hrunning : t.running = true) (hfinished : t.network ≠ .finished) :
    t.connected = false ∧ 0 < t.eventCount ∧ t.network.idle = true ∧
      ∀ r rest u, t.networkStep (.wait (.ready (r :: rest))) = some u →
        ∃ v, Run.exec FeedHandler.step u [.network .step, .network .step] = some v ∧ v.network = .connect (.events rest) := by
  have hok : HandlerOk s := Run.exec_invariant (fun _ _ _ hi hs => hi.step hs) handlerOk_init h
  have hok' : HandlerOk t := Run.exec_invariant (fun _ _ _ hi hs => hi.step hs) hok h'
  have hrun : s.running = true :=
    Run.exec_invariant (I := fun u => u.running = true → s.running = true) (fun _ _ _ hi hs hu => hi ((step_ends hs).1 hu)) id h'
      hrunning
  have hflags := hok.flags
  have hopen := hok.descriptor
  rw [hwait] at hflags hopen
  have hwaiting : Waiting s := ⟨by rw [hwait]; rfl, hconnected, hflags.2 hrun hconnected, Eq.trans hopen hconnected⟩
  obtain ⟨ht, hle⟩ := waiting_run hwaiting hquiet h' hrunning hfinished
  refine ⟨ht.connected, ?_, ht.idle, fun r rest u hu => ht.report hu⟩
  have hsteps : stepsToWake s ≤ 6 := by
    unfold stepsToWake
    split
    · exact Nat.zero_le _
    · cases s.reconnect <;> simp [stepsToSignal]
  have hzero : stepsToWake t = 0 := by omega
  unfold stepsToWake at hzero
  split at hzero
  · assumption
  · -- the reconnect thread has not finished, so it would have a step to go
    exfalso
    cases hp : t.reconnect <;> rw [hp] at hzero <;> cases hzero
    have hstopped := hok'.reconnect hp
    rw [hrunning] at hstopped
    cases hstopped

namespace WakingAux

/-- The first `connect` fails, and the network thread waits. -/
def refusedRun : List HandlerEvent := [.network (.connect false), .network .step, .network .step]

/-- The reconnect thread gets round its loop once, while `epoll_wait` times out and is called again. -/
def backoffRun : List HandlerEvent :=
  [.reconnect .step, .reconnect .step, .network (.wait (.ready [])), .reconnect .step, .reconnect (.delay 7), .network .step,
    .reconnect .step, .network .step, .network .step, .reconnect .step]

end WakingAux

/-- The runs `refusedRun` and `backoffRun` meet the hypotheses of `waiting_client_woken`. -/
theorem waiting_client_woken_refusedRun :
    ∃ s t, Run.exec FeedHandler.step .init refusedRun = some s ∧ Run.exec FeedHandler.step s backoffRun = some t ∧
      t.connected = false ∧ 0 < t.eventCount ∧ t.network.idle = true ∧
      ∀ r rest u, t.networkStep (.wait (.ready (r :: rest))) = some u →
        ∃ v, Run.exec FeedHandler.step u [.network .step, .network .step] = some v ∧ v.network = .connect (.events rest) := by
  have hrun : ∃ s, Run.exec FeedHandler.step .init refusedRun = some s ∧ s.connected = false ∧ s.network = .epollWait ∧
      ∃ t, Run.exec FeedHandler.step s backoffRun = some t ∧ t.running = true ∧ t.network ≠ .finished := by
    decide
  obtain ⟨s, hs, hconnected, hwait, t, ht, hrunning, hfinished⟩ := hrun
  exact ⟨s, t, hs, ht,
    waiting_client_woken refusedRun s hs hconnected hwait backoffRun t ht (by decide) (by decide) hrunning hfinished⟩

end MarketFeed
