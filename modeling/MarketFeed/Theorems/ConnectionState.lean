import MarketFeed.Lemmas.ConnectionFlags

/-!
# The connection is up or a reconnect is pending

At the head of the network loop of a running handler exactly one of the two flags holds, whatever the order of the three threads and
of the events.
-/

namespace MarketFeed

open ConnectionFlagsAux

/-- In every state of every run: at the head of `network_loop`, while the handler is running, exactly one of `connected_` and
`reconnect_pending_` is set; `do_connect` is called only while `connected_` is not set; and a running handler that waits in
`epoll_wait` without a connection has a reconnect pending. -/
theorem one_flag_at_head (es : List HandlerEvent) (s : FeedHandler)
    (h : Run.exec FeedHandler.step FeedHandler.init es = some s) :
    (s.network = .head → s.running = true → Xor (s.connected = true) (s.reconnectPending = true)) ∧
      (∀ k, s.network = .connect k → s.connected = false) ∧
      (s.network = .epollWait → s.running = true → s.connected = false → s.reconnectPending = true) := by
  have hinv : FlagsOk s s.network :=
    Run.exec_invariant (I := fun s => FlagsOk s s.network) (fun _ _ _ hi hs => hi.step hs) flagsOk_init h
  refine ⟨fun hp hr => ?_, fun k hp => ?_, fun hp hr hc => ?_⟩
  · rw [hp] at hinv
    cases hc : s.connected with
    | true => exact Or.inl ⟨rfl, by simp [hinv.1 hc]⟩
    | false => exact Or.inr ⟨hinv.2 hr hc, by simp⟩
  · rw [hp] at hinv
    exact hinv.1
  · rw [hp] at hinv
    exact hinv.2 hr hc

namespace ConnectionStateAux

/-- The initial connect fails, the reconnect thread signals, the next one succeeds; the peer closes, and the handler is at the head of
its loop again. -/
def reconnectRun : List HandlerEvent :=
  [.network (.connect false), .network .step, .reconnect .step, .reconnect .step, .reconnect .step, .reconnect (.delay 7),
    .network .step, .reconnect .step, .reconnect .step, .network (.wait (.ready [.eventFd])), .network .step, .network .step,
    .network (.connect true), .network .step, .network .step, .network .step, .network .step, .network (.check false),
    .peer .fin, .network .step, .network (.wait (.ready [.socket ⟨false, true, false, false⟩])), .network .step, .network .step,
    .network .step, .network .step, .network .step, .network .step, .network .step, .network .step]

end ConnectionStateAux

open ConnectionStateAux

/-- The run `reconnectRun`, to which `one_flag_at_head` applies. -/
theorem one_flag_at_head_reconnectRun :
    ∃ s, Run.exec FeedHandler.step FeedHandler.init reconnectRun = some s ∧ s.network = .head ∧
      Xor (s.connected = true) (s.reconnectPending = true) ∧ s.reconnectPending = true := by
  have hrun : ∃ s, Run.exec FeedHandler.step FeedHandler.init reconnectRun = some s ∧ s.network = .head ∧ s.running = true ∧
      s.reconnectPending = true := by decide +kernel
  obtain ⟨s, hrun, hhead, hrunning, hpending⟩ := hrun
  exact ⟨s, hrun, hhead, (one_flag_at_head reconnectRun s hrun).1 hhead hrunning, hpending⟩

end MarketFeed
