import MarketFeed.Lemmas.ConnectionFlags

/-!
# Stopping

Once `running_` is false, neither thread goes round its loop again. The network thread gets to its end through what is left of the
batch it is in; `epoll_wait`, if it is in there, is woken by the eventfd that `stop` writes to, so that no join of `stop` waits for the
timeout. Only a peer that goes on sending, or signals that go on interrupting `recv`, can keep the drain loop going.
-/

namespace MarketFeed

open ConnectionFlagsAux

namespace ShutdownAux

/-! ## How much of a batch is left -/

/-- The batch is one of `epoll_wait`: at most `MAX_EVENTS` entries, one of them taken already at the points inside an entry. -/
def Resume.Within : Resume → Prop
  | .head => True
  | .events rest => rest.length < maxEvents

/-- The same at each point of the network thread. -/
def Within : NetworkPoint → Prop
  | .connect k | .storeConnected k | .resetPolicy k | .connectFailed k => Resume.Within k
  | .exchangeConnected k | .closeSocket k | .loadRunning k | .storePending k | .signal k => Resume.Within k
  | .exchangePending rest | .drain rest => rest.length < maxEvents
  | .events rest => rest.length ≤ maxEvents
  | .head | .epollWait | .loadConnected | .checkTimeout | .finished => True

/-- Where a batch goes on, it is not longer. -/
theorem within_point {k : Resume} (h : Resume.Within k) : Within k.point := by
  cases k with
  | head => trivial
  | events rest => exact Nat.le_of_lt h

/-- Every step of the network thread stays within the batch. -/
theorem within_network {s t : FeedHandler} {e : NetworkEvent} (h : Within s.network) (hs : s.networkStep e = some t) :
    Within t.network := by
  have hmove := FeedHandler.networkStep_moves hs
  generalize hp : s.network = p at h hmove
  cases hmove with
  | resetPolicy k => exact within_point h
  | connectFailed k => exact within_point h
  | alreadyDisconnected k hc => exact within_point h
  | stopped k hr => exact within_point h
  | signal k => exact within_point h
  | ready events hlength hcount hreports => exact hlength
  | eventFd rest => exact h
  | hangUp flags rest hbits => exact h
  | readable flags rest hbits hin => exact h
  | noBits flags rest hbits hin => exact Nat.le_of_lt h
  | nonePending rest hpending => exact Nat.le_of_lt h
  | drained rest hmay => exact Nat.le_of_lt h
  | received rest n hmay =>
    dsimp only
    rw [hp]
    exact h
  | tryAgain rest hmay =>
    rw [hp]
    exact h
  | _ => first | exact h | trivial

/-- Every step keeps the batch within its bound. -/
theorem within_step {s t : FeedHandler} {e : HandlerEvent} (h : Within s.network) (hs : s.step e = some t) : Within t.network := by
  cases e with
  | network e => exact within_network h hs
  | reconnect e => exact (reconnectStep_leaves hs).1.network ▸ h
  | stop =>
    cases hs
    exact (stopStep_leaves s).1.network ▸ h
  | peer e => exact (peerStep_leaves hs).network ▸ h

/-- At the start there is none. -/
theorem within_init : Within FeedHandler.init.network := trivial

/-! ## How many steps are left -/

/-- The steps left for the rest of a batch, and then to the end of the thread: at most five for each entry. -/
def batchSteps (rest : List Ready) : Nat := 5 * rest.length + 7

/-- The steps left after `do_connect` or `on_disconnect`. -/
def resumeSteps : Resume → Nat
  | .head => 1
  | .events rest => batchSteps rest

/-- The steps that the network thread has left at most when it has been stopped, `recv` of queued bytes not counted. -/
def networkSteps : NetworkPoint → Nat
  | .connect k => 3 + resumeSteps k
  | .storeConnected k => 2 + resumeSteps k
  | .resetPolicy k | .connectFailed k => 1 + resumeSteps k
  | .head => 1
  | .epollWait => 1 + (5 * maxEvents + 7)
  | .events rest => batchSteps rest
  | .exchangePending rest => 4 + batchSteps rest
  | .drain rest => 4 + batchSteps rest
  | .exchangeConnected k => 3 + resumeSteps k
  | .closeSocket k => 2 + resumeSteps k
  | .loadRunning k => 1 + resumeSteps k
  | .storePending k => 2 + resumeSteps k
  | .signal k => 1 + resumeSteps k
  | .loadConnected => 6
  | .checkTimeout => 5
  | .finished => 0

/-- The steps that the reconnect thread has left at most when it has been stopped. -/
def reconnectSteps : ReconnectPoint → Nat
  | .head | .givingUp | .sleeping _ => 1
  | .nextDelay | .signal => 2
  | .testGiveUp => 3
  | .loadPending => 4
  | .finished => 0

/-- The steps left for both threads, and a `recv` for each byte queued. -/
def stepsLeft (s : FeedHandler) : Nat := networkSteps s.network + s.socket.queue.length + reconnectSteps s.reconnect

end ShutdownAux

open ShutdownAux

/-- A step of one of the two threads counts. -/
def HandlerEvent.threadSteps : HandlerEvent → Nat
  | .network _ | .reconnect _ => 1
  | .stop | .peer _ => 0

/-- What may keep the drain loop going: a byte that arrives, a `recv` that is interrupted. -/
def HandlerEvent.delays : HandlerEvent → Nat
  | .network (.recv .interrupted) => 1
  | .peer (.arrive bytes) => bytes.length
  | _ => 0

namespace ShutdownAux

@[simp] theorem resumeSteps_head : resumeSteps .head = 1 := rfl

@[simp] theorem resumeSteps_events (rest : List Ready) : resumeSteps (.events rest) = batchSteps rest := rfl

@[simp] theorem networkSteps_point (k : Resume) : networkSteps k.point = resumeSteps k := by
  cases k <;> rfl

/-- Each step of the network thread of a stopped handler is one of those it has left. -/
theorem account_network {s t : FeedHandler} {e : NetworkEvent} (hr : s.running = false) (hs : s.networkStep e = some t) :
    t.running = false ∧ stepsLeft t + 1 ≤ stepsLeft s + (HandlerEvent.network e).delays := by
  have hmove := FeedHandler.networkStep_moves hs
  unfold stepsLeft
  generalize hp : s.network = p at hmove
  cases hmove with
  | goOn hrun =>
    rw [hr] at hrun
    cases hrun
  | askReconnect k hrun =>
    rw [hr] at hrun
    cases hrun
  | ready events hlength hcount hreports =>
    refine ⟨hr, ?_⟩
    simp only [networkSteps, batchSteps]
    omega
  | received rest n hmay =>
    obtain ⟨-, hpos, hle, -⟩ := hmay
    refine ⟨hr, ?_⟩
    dsimp only
    rw [hp, List.length_drop]
    omega
  | tryAgain rest hmay =>
    refine ⟨hr, ?_⟩
    rw [hp]
    exact Nat.le_refl _
  | _ =>
    refine ⟨hr, ?_⟩
    simp only [networkSteps_point, FeedHandler.efdWrite, Socket.opened, Socket.closed, List.length_nil]
    simp only [networkSteps, resumeSteps_head, resumeSteps_events, batchSteps, List.length_nil, List.length_cons]
    omega

/-- A step of the reconnect thread is one less to go. -/
theorem account_reconnect {s t : FeedHandler} {e : ReconnectEvent} (hr : s.running = false) (hs : s.reconnectStep e = some t) :
    t.running = false ∧ stepsLeft t + 1 ≤ stepsLeft s := by
  unfold stepsLeft
  cases e with
  | step =>
    simp only [FeedHandler.reconnectStep] at hs
    split at hs <;> rename_i hp <;> cases hs <;> rw [hp]
    case h_1 | h_5 =>
      refine ⟨hr, ?_⟩
      rw [hr]
      exact Nat.le_refl _
    case h_2 | h_3 =>
      -- the test goes either way
      refine ⟨hr, ?_⟩
      dsimp only
      split <;> simp only [reconnectSteps] <;> omega
    case h_4 => exact ⟨rfl, Nat.le_refl _⟩
    case h_6 =>
      refine ⟨hr, ?_⟩
      simp only [reconnectSteps, FeedHandler.efdWrite]
      omega
  | delay rand =>
    simp only [FeedHandler.reconnectStep] at hs
    split at hs <;> rename_i hp <;> cases hs
    rw [hp]
    exact ⟨hr, Nat.le_refl _⟩

/-- Each step of a stopped handler is accounted for. -/
theorem account_step {s t : FeedHandler} {e : HandlerEvent} (hr : s.running = false) (hs : s.step e = some t) :
    t.running = false ∧ stepsLeft t + e.threadSteps ≤ stepsLeft s + e.delays := by
  cases e with
  | network e => exact account_network hr hs
  | reconnect e => exact account_reconnect hr hs
  | stop =>
    cases hs
    unfold FeedHandler.stopStep
    split
    · exact ⟨rfl, Nat.le_refl _⟩
    · exact ⟨hr, Nat.le_refl _⟩
  | peer e =>
    simp only [FeedHandler.step, FeedHandler.peerStep] at hs
    split at hs
    · cases e with
      | arrive bytes =>
        dsimp only at hs
        split at hs <;> cases hs
        refine ⟨hr, ?_⟩
        simp only [stepsLeft, HandlerEvent.threadSteps, HandlerEvent.delays, List.length_append]
        omega
      | fin =>
        cases hs
        exact ⟨hr, Nat.le_refl _⟩
    · cases hs

/-- Both threads together have few steps left. -/
theorem stepsLeft_le {s : FeedHandler} (h : Within s.network) : stepsLeft s ≤ 92 + s.socket.queue.length := by
  have hnetwork : networkSteps s.network ≤ 88 := by
    have hresume : ∀ k, Resume.Within k → resumeSteps k ≤ 82 := by
      intro k hk
      cases k with
      | head => simp
      | events rest =>
        have hlt : rest.length < 16 := hk
        simp only [resumeSteps_events, batchSteps]
        omega
    cases hp : s.network <;> rw [hp] at h <;> simp only [networkSteps, batchSteps, maxEvents, Within] at h ⊢ <;>
      first | omega | (have hk := hresume _ h; omega)
  have hreconnect : reconnectSteps s.reconnect ≤ 4 := by
    cases s.reconnect <;> simp [reconnectSteps]
  unfold stepsLeft
  omega

/-! ## Nobody waits -/

/-- A stopped handler whose network thread does not wait in `epoll_wait`, unless the eventfd is readable. -/
def Woken (s : FeedHandler) : Prop := s.running = false ∧ (s.network = .epollWait → 0 < s.eventCount)

/-- No batch goes on in `epoll_wait`. -/
theorem point_ne_epollWait (k : Resume) : k.point ≠ .epollWait := by
  cases k <;> exact nofun

/-- The network thread does not come back to `epoll_wait` once the handler is stopped. -/
theorem Woken.network {s t : FeedHandler} {e : NetworkEvent} (h : Woken s) (hs : s.networkStep e = some t) : Woken t := by
  have hmove := FeedHandler.networkStep_moves hs
  obtain ⟨hr, hwait⟩ := h
  generalize hp : s.network = p at hmove
  cases hmove with
  | goOn hrun =>
    rw [hr] at hrun
    cases hrun
  | askReconnect k hrun =>
    rw [hr] at hrun
    cases hrun
  | received rest n hmay =>
    refine ⟨hr, fun hw => ?_⟩
    cases hp.symm.trans hw
  | tryAgain rest hmay => exact ⟨hr, hwait⟩
  | _ => exact ⟨hr, fun hw => by first | cases hw | exact absurd hw (point_ne_epollWait _)⟩

/-- The reconnect thread never takes from the eventfd. -/
theorem reconnectStep_eventCount {s t : FeedHandler} {e : ReconnectEvent} (hs : s.reconnectStep e = some t) :
    s.eventCount ≤ t.eventCount := by
  cases e with
  | step =>
    simp only [FeedHandler.reconnectStep] at hs
    split at hs <;> cases hs
    case h_6 => exact Nat.le_succ _
    all_goals exact Nat.le_refl _
  | delay rand =>
    simp only [FeedHandler.reconnectStep] at hs
    split at hs <;> cases hs
    exact Nat.le_refl _

/-- Every step keeps it. -/
theorem Woken.step {s t : FeedHandler} {e : HandlerEvent} (h : Woken s) (hs : s.step e = some t) : Woken t := by
  have hrunning := (account_step h.1 hs).1
  cases e with
  | network e => exact h.network hs
  | reconnect e =>
    have hleaves := (reconnectStep_leaves hs).1
    refine ⟨hrunning, fun hw => ?_⟩
    rw [hleaves.network] at hw
    exact (h.2 hw).trans_le (reconnectStep_eventCount hs)
  | stop =>
    cases hs
    refine ⟨hrunning, ?_⟩
    unfold FeedHandler.stopStep
    split
    · exact h.2
    · exact fun hw => Nat.lt_add_right 1 (h.2 hw)
  | peer e =>
    obtain ⟨-, -, ⟨bytes, rfl⟩ | rfl⟩ := peerStep_cases hs <;> exact ⟨hrunning, h.2⟩

/-- The write of `stop` wakes the network thread. -/
theorem woken_of_signal {s : FeedHandler} (hr : s.running = false) (hstop : s.stopper = .signal) : Woken s.stopStep := by
  unfold FeedHandler.stopStep
  rw [hstop]
  exact ⟨hr, fun _ => Nat.succ_pos _⟩

/-- `stop` stores the flag before it writes, and nothing sets it again. -/
theorem running_of_signal {s t : FeedHandler} {e : HandlerEvent} (h : s.stopper = .signal → s.running = false)
    (hs : s.step e = some t) : t.stopper = .signal → t.running = false := by
  by_cases hr : s.running = false
  · exact fun _ => (account_step hr hs).1
  · intro ht
    have hidle : s.stopper ≠ .signal := fun hsig => hr (h hsig)
    cases e with
    | network e =>
      have hmove := FeedHandler.networkStep_moves hs
      generalize s.network = p at hmove
      cases hmove <;> exact absurd ht hidle
    | reconnect e =>
      cases e <;> simp only [FeedHandler.step, FeedHandler.reconnectStep] at hs <;> split at hs <;> cases hs <;>
        exact absurd ht hidle
    | stop =>
      cases hs
      unfold FeedHandler.stopStep at ht ⊢
      split
      · rfl
      · rename_i hsig
        exact absurd hsig hidle
    | peer e =>
      obtain ⟨-, -, ⟨bytes, rfl⟩ | rfl⟩ := peerStep_cases hs <;> exact absurd ht hidle

end ShutdownAux

/-- A step of the network thread that is neither the timeout of `epoll_wait` nor an interruption. -/
def NetworkEvent.prompt : NetworkEvent → Bool
  | .wait (.ready events) => !events.isEmpty
  | .wait _ | .recv .interrupted => false
  | _ => true

namespace ShutdownAux

/-- A network thread that has been woken goes on until it has finished. -/
theorem Woken.goes_on {s : FeedHandler} (h : Woken s) (hne : s.network ≠ .finished) :
    ∃ e t, e.prompt = true ∧ s.networkStep e = some t := by
  cases hp : s.network with
  | finished => exact absurd hp hne
  | connect k => exact ⟨.connect true, _, rfl, by rw [FeedHandler.networkStep, hp]⟩
  | epollWait =>
    have hreport : s.Reports .eventFd := h.2 hp
    refine ⟨.wait (.ready [.eventFd]), ?_⟩
    simp only [FeedHandler.networkStep, hp, FeedHandler.waitReturns]
    exact ⟨_, rfl, if_pos ⟨by decide, by decide, by simpa using hreport⟩⟩
  | drain rest =>
    have hmay : ∃ result, result ≠ .interrupted ∧ s.MayReceive result := by
      by_cases hopen : s.socket.isOpen = true
      · by_cases hqueue : s.socket.queue = []
        · cases hfin : s.socket.fin with
          | true => exact ⟨.eof, by simp, hopen, hqueue, hfin⟩
          | false => exact ⟨.again, by simp, hopen, hqueue, hfin⟩
        · exact ⟨.bytes 1, by simp, hopen, Nat.one_pos, List.length_pos_iff.mpr hqueue, by decide⟩
      · exact ⟨.failed, by simp, trivial⟩
    obtain ⟨result, hne', hmay⟩ := hmay
    refine ⟨.recv result, s.recvReturns rest result, ?_, ?_⟩
    · cases result with
      | interrupted => exact absurd rfl hne'
      | _ => rfl
    · simp only [FeedHandler.networkStep, hp]
      exact if_pos hmay
  | exchangePending rest =>
    refine ⟨.step, ?_⟩
    simp only [FeedHandler.networkStep, hp, FeedHandler.networkGoes, NetworkEvent.prompt, true_and]
    split <;> exact ⟨_, rfl⟩
  | exchangeConnected k =>
    refine ⟨.step, ?_⟩
    simp only [FeedHandler.networkStep, hp, FeedHandler.networkGoes, NetworkEvent.prompt, true_and]
    split <;> exact ⟨_, rfl⟩
  | checkTimeout => exact ⟨.check true, _, rfl, by rw [FeedHandler.networkStep, hp]⟩
  | _ => exact ⟨.step, _, rfl, by rw [FeedHandler.networkStep, hp]; rfl⟩

/-- A reconnect thread goes on until it has finished. -/
theorem reconnect_goes_on {s : FeedHandler} (hne : s.reconnect ≠ .finished) : ∃ e t, s.reconnectStep e = some t := by
  cases hp : s.reconnect with
  | finished => exact absurd hp hne
  | nextDelay => exact ⟨.delay 0, _, by rw [FeedHandler.reconnectStep, hp]⟩
  | _ => exact ⟨.step, _, by rw [FeedHandler.reconnectStep, hp]⟩

end ShutdownAux

/-- In every run in which `stop` has stored its flag and then writes to the eventfd: from there, whatever the threads and the peer do, the
network thread and the reconnect thread take at most 92 more steps, a `recv` for each byte queued or arriving and for each interruption not
counted; and until it has finished, each of the two has a step to take, the network thread one other than a timeout or an interruption. -/
theorem stop_ends (es : List HandlerEvent) (s : FeedHandler) (h : Run.exec FeedHandler.step .init es = some s)
    (hstop : s.stopper = .signal) (es' : List HandlerEvent) (t : FeedHandler)
    (h' : Run.exec FeedHandler.step s (.stop :: es') = some t) :
    (es'.map HandlerEvent.threadSteps).sum ≤ 92 + s.socket.queue.length + (es'.map HandlerEvent.delays).sum ∧
      (t.network = .finished ∨ ∃ e u, e.prompt = true ∧ t.networkStep e = some u) ∧
      (t.reconnect = .finished ∨ ∃ e u, t.reconnectStep e = some u) := by
  have hwithin : Within s.network := Run.exec_invariant (fun _ _ _ hi hs => within_step hi hs) (t := s) within_init h
  have hinit : FeedHandler.init.stopper = .signal → FeedHandler.init.running = false := nofun
  have hr : s.running = false :=
    Run.exec_invariant (I := fun s => s.stopper = .signal → s.running = false) (fun _ _ _ hi hs => running_of_signal hi hs) hinit h
      hstop
  obtain ⟨s', hs', hrest⟩ := Run.exec_cons_eq_some.mp h'
  cases hs'
  have hwoken := woken_of_signal hr hstop
  refine ⟨?_, ?_, ?_⟩
  · obtain ⟨hleaves, hsocket⟩ := ConnectionFlagsAux.stopStep_leaves s
    have haccount := Run.exec_account (I := fun s => s.running = false) (fun _ _ _ hi hs => account_step hi hs) hwoken.1 hrest
    have hle : stepsLeft s.stopStep ≤ 92 + s.stopStep.socket.queue.length := stepsLeft_le (hleaves.network ▸ hwithin)
    rw [hsocket] at hle
    omega
  · have ht : Woken t := Run.exec_invariant (fun _ _ _ hi hs => hi.step hs) hwoken hrest
    by_cases hfin : t.network = .finished
    · exact .inl hfin
    · exact .inr (ht.goes_on hfin)
  · by_cases hfin : t.reconnect = .finished
    · exact .inl hfin
    · exact .inr (reconnect_goes_on hfin)

namespace ShutdownAux

/-- `stop` is called while the network thread waits on a connection with two bytes unread. -/
def stoppedRun : List HandlerEvent :=
  [.network (.connect true), .network .step, .network .step, .network .step, .peer (.arrive [1, 2]), .reconnect .step, .stop]

/-- The way to the end: the batch, with bytes that still arrive, and the other thread. -/
def endingRun : List HandlerEvent :=
  [.network (.wait (.ready [.socket ⟨true, false, false, false⟩, .eventFd])), .network .step, .network (.recv (.bytes 2)),
    .peer (.arrive [3]), .network (.recv .interrupted), .network (.recv (.bytes 1)), .network (.recv .again), .network .step,
    .network .step, .network .step, .network .step, .network (.check false), .reconnect .step, .network .step, .reconnect .step]

end ShutdownAux

/-- The run `stoppedRun` meets the hypotheses of `stop_ends`; `endingRun` leads to the end of both threads. -/
theorem stop_ends_stoppedRun :
    ∃ s t, Run.exec FeedHandler.step .init stoppedRun = some s ∧ Run.exec FeedHandler.step s (.stop :: endingRun) = some t ∧
      (t.network = .finished ∧ t.reconnect = .finished) ∧
      (endingRun.map HandlerEvent.threadSteps).sum ≤ 92 + s.socket.queue.length + (endingRun.map HandlerEvent.delays).sum := by
  have hrun : ∃ s, Run.exec FeedHandler.step .init stoppedRun = some s ∧ s.stopper = .signal ∧
      ∃ t, Run.exec FeedHandler.step s (.stop :: endingRun) = some t ∧ t.network = .finished ∧ t.reconnect = .finished := by
    decide
  obtain ⟨s, hs, hstop, t, ht, hends⟩ := hrun
  exact ⟨s, t, hs, ht, hends, (stop_ends stoppedRun s hs hstop endingRun t ht).1⟩

end MarketFeed
