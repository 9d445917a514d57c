import MarketFeed.Theorems.Descriptors

/-!
# The exchange after `stop`

`stop` stores its flag and shuts the listening socket down, which `epoll_wait` reports from then on. So the accept thread finishes its
batch and leaves its loop without waiting, whatever the clients do; the tick thread finishes its batch. The runs are those of whole calls
on the manager in which no broadcast drops a client.
-/

namespace MarketFeed

variable {n : NumSymbols} {c : Capacity} {P : Type}

/-- Where the accept thread goes with a step, while `stop` has not stored its flag or has, and the listening socket is shut down or
not. -/
inductive AcceptPoint.Next (running shut : Bool) : AcceptPoint → AcceptPoint → Prop where
  | again (hrun : running = true) : Next running shut .head .epollWait
  | leave (hrun : running = false) : Next running shut .head .finished
  | reports (reports : List Report) (hlen : reports.length ≤ ExchangeSys.maxEvents) : Next running shut .epollWait (.events reports)
  | interrupted : Next running shut .epollWait .head
  | failed : Next running shut .epollWait .finished
  | batchDone : Next running shut (.events []) .maintain
  | listening (r : Report) (rest : List Report) : Next running shut (.events (r :: rest)) (.accept rest)
  | handled (r : Report) (rest : List Report) : Next running shut (.events (r :: rest)) (.events rest)
  | writable (r : Report) (rest : List Report) : Next running shut (.events (r :: rest)) (.flush r.fd rest)
  | readable (r : Report) (rest : List Report) : Next running shut (.events (r :: rest)) (.recv r.fd rest)
  | refused (rest : List Report) : Next running shut (.accept rest) (.events rest)
  | accepted (fd : Fd) (rest : List Report) (hopen : shut = false) : Next running shut (.accept rest) (.register fd rest)
  | registered (fd : Fd) (rest : List Report) : Next running shut (.register fd rest) (.addClient fd rest)
  | added (fd : Fd) (rest : List Report) : Next running shut (.addClient fd rest) (.accept rest)
  | flushed (fd : Fd) (rest : List Report) : Next running shut (.flush fd rest) (.events rest)
  | received (fd : Fd) (rest : List Report) : Next running shut (.recv fd rest) (.events rest)
  | maintained : Next running shut .maintain .head

/-- The report that the listening socket is shut down. -/
def ExchangeSys.shutReport (s : ExchangeSys n c P) : Report :=
  { fd := s.listenFd, flags := { epollIn := true, rdHup := false, hup := true, err := false }, epollOut := false
    connection := s.accepted s.listenFd }

/-- The steps of the two threads. -/
def ExchangeEvent.threadSteps : ExchangeEvent → Nat
  | .accept _ | .tick .. => 1
  | _ => 0

namespace ServerStopAux

open ExchangeSys DescriptorsAux

variable {prices : DisplayPrices P} {s t : ExchangeSys n c P}

/-! ## Where the threads are -/

/-- Only the tick thread and `stop` touch the tick loop. -/
theorem feed_loop {f f' : FeedSys n c P} {e : FeedEvent} (hs : f.step prices e = some f')
    (htick : ∀ te outs now, e ≠ FeedEvent.tick te outs now) : f'.loop = f.loop := by
  cases e with
  | tick te outs now => exact absurd rfl (htick te outs now)
  | accept fd peerAddr now order numSymbols =>
    obtain ⟨server, -, rfl⟩ := Option.map_eq_some_iff.mp hs
    rfl
  | client fd e =>
    obtain ⟨cl, -, rfl⟩ := Option.map_eq_some_iff.mp hs
    rfl
  | remove fd | recv fd data | flush fd outs | maintain =>
    cases hs
    rfl

/-- A step of the accept thread. -/
structure Goes (s t : ExchangeSys n c P) : Prop where
  next : AcceptPoint.Next s.feed.loop.running s.listenShut s.point t.point
  loop : t.feed.loop = s.feed.loop
  shut : t.listenShut = s.listenShut
  stopper : t.stopper = s.stopper

/-- A call on the manager, wherever the accept thread goes on. -/
theorem call_goes {f : FeedEvent} {point : AcceptPoint} (hs : s.call prices f point = some t)
    (htick : ∀ te outs now, f ≠ FeedEvent.tick te outs now)
    (hnext : AcceptPoint.Next s.feed.loop.running s.listenShut s.point point) : Goes s t := by
  obtain ⟨feed, hfeed, rfl⟩ := Option.map_eq_some_iff.mp hs
  exact ⟨hnext, feed_loop hfeed htick, rfl, rfl⟩

/-- A look at the next report. -/
theorem nextReport_goes {reports : List Report} (hp : s.point = .events reports) (hs : s.nextReport prices reports = some t) :
    Goes s t := by
  cases reports with
  | nil =>
    cases hs
    exact ⟨hp ▸ .batchDone, rfl, rfl, rfl⟩
  | cons r rest =>
    rw [ExchangeSys.nextReport] at hs
    split at hs
    · cases hs
      exact ⟨hp ▸ .listening r rest, rfl, rfl, rfl⟩
    · split at hs
      · exact call_goes hs (by simp) (hp ▸ .handled r rest)
      · split at hs
        · cases hs
          exact ⟨hp ▸ .writable r rest, rfl, rfl, rfl⟩
        · split at hs <;> cases hs
          · exact ⟨hp ▸ .readable r rest, rfl, rfl, rfl⟩
          · exact ⟨hp ▸ .handled r rest, rfl, rfl, rfl⟩

/-- A return of `recv`, -/
theorem recvReturns_goes {fd : Fd} {rest : List Report} {result : RecvResult} (hp : s.point = .recv fd rest)
    (hs : s.recvReturns prices fd rest result = some t) : Goes s t := by
  have hnext : AcceptPoint.Next s.feed.loop.running s.listenShut s.point (.events rest) := hp ▸ .received fd rest
  cases result with
  | bytes k =>
    simp only [ExchangeSys.recvReturns] at hs
    obtain ⟨u, hu, rfl⟩ := Option.map_eq_some_iff.mp hs
    obtain ⟨hgoes, hloop, hshut, hstopper⟩ := call_goes hu (by simp) hnext
    exact ⟨hgoes, hloop, hshut, hstopper⟩
  | again =>
    cases hs
    exact ⟨hnext, rfl, rfl, rfl⟩
  | eof | interrupted | failed => exact call_goes hs (by simp) hnext

/-- of `epoll_wait`, -/
theorem waitReturns_goes {result : ReportResult} (hp : s.point = .epollWait) (hs : s.waitReturns result = some t) : Goes s t := by
  cases result with
  | ready reports =>
    obtain ⟨⟨hlen, -⟩, hs⟩ := Option.ite_none_right_eq_some.mp hs
    cases hs
    exact ⟨hp ▸ .reports reports hlen, rfl, rfl, rfl⟩
  | interrupted =>
    cases hs
    exact ⟨hp ▸ .interrupted, rfl, rfl, rfl⟩
  | failed =>
    cases hs
    exact ⟨hp ▸ .failed, rfl, rfl, rfl⟩

/-- of `accept4`. -/
theorem acceptReturns_goes {rest : List Report} {conn : Option (Fd × List UInt16)} (hp : s.point = .accept rest)
    (hs : s.acceptReturns rest conn = some t) : Goes s t := by
  cases conn with
  | none =>
    cases hs
    exact ⟨hp ▸ .refused rest, rfl, rfl, rfl⟩
  | some conn =>
    obtain ⟨⟨-, hopen⟩, hs⟩ := Option.ite_none_right_eq_some.mp hs
    cases hs
    exact ⟨hp ▸ .accepted conn.1 rest hopen, rfl, rfl, rfl⟩

/-- Every step of the accept thread goes where `AcceptPoint.Next` says. -/
theorem acceptStep_goes {e : AcceptEvent} (hs : s.acceptStep prices e = some t) : Goes s t := by
  cases e with
  | step =>
    simp only [ExchangeSys.acceptStep] at hs
    split at hs <;> rename_i hp
    · cases hs
      refine ⟨?_, rfl, rfl, rfl⟩
      rw [hp]
      dsimp only
      split <;> rename_i hrun
      · exact .again hrun
      · exact .leave (Bool.eq_false_of_not_eq_true hrun)
    · exact nextReport_goes hp hs
    · cases hs
      exact ⟨hp ▸ .registered _ _, rfl, rfl, rfl⟩
    · exact call_goes hs (by simp) (hp ▸ .maintained)
    · cases hs
  | wait result =>
    simp only [ExchangeSys.acceptStep] at hs
    split at hs <;> rename_i hp
    · exact waitReturns_goes hp hs
    · cases hs
  | accept conn =>
    simp only [ExchangeSys.acceptStep] at hs
    split at hs <;> rename_i hp
    · exact acceptReturns_goes hp hs
    · cases hs
  | add peerAddr now order numSymbols =>
    simp only [ExchangeSys.acceptStep] at hs
    split at hs <;> rename_i hp
    · exact call_goes hs (by simp) (hp ▸ .added _ _)
    · cases hs
  | flush outs =>
    simp only [ExchangeSys.acceptStep] at hs
    split at hs <;> rename_i hp
    · exact call_goes hs (by simp) (hp ▸ .flushed _ _)
    · cases hs
  | recv result =>
    simp only [ExchangeSys.acceptStep] at hs
    split at hs <;> rename_i hp
    · exact recvReturns_goes hp (Option.ite_none_right_eq_some.mp hs).2
    · cases hs

/-! ## How many steps are left -/

/-- The batch is not longer than `epoll_wait` makes it. -/
def Within : AcceptPoint → Prop
  | .events rest => rest.length ≤ ExchangeSys.maxEvents
  | .accept rest | .register _ rest | .addClient _ rest | .flush _ rest | .recv _ rest => rest.length < ExchangeSys.maxEvents
  | .head | .epollWait | .maintain | .finished => True

/-- The batch only gets shorter. -/
theorem Within.next {running shut : Bool} {p q : AcceptPoint} (h : Within p) (hn : AcceptPoint.Next running shut p q) : Within q := by
  cases hn with
  | reports reports hlen => exact hlen
  | listening r rest | writable r rest | readable r rest => exact h
  | handled r rest => exact Nat.le_of_succ_le h
  | refused rest | flushed fd rest | received fd rest => exact Nat.le_of_lt h
  | accepted fd rest | registered fd rest | added fd rest => exact h
  | again | leave | interrupted | failed | batchDone | maintained => trivial

/-- The steps that the accept thread takes at most, once `stop` has returned. -/
def acceptLeft : AcceptPoint → Nat
  | .finished => 0
  | .head => 1
  | .maintain => 2
  | .events rest => 2 * rest.length + 3
  | .accept rest | .flush _ rest | .recv _ rest => 2 * rest.length + 4
  | .addClient _ rest => 2 * rest.length + 5
  | .register _ rest => 2 * rest.length + 6
  | .epollWait => 132

/-- After `stop` every step of the accept thread is one less to go. -/
theorem acceptLeft_next {p q : AcceptPoint} (hn : AcceptPoint.Next false true p q) : acceptLeft q + 1 ≤ acceptLeft p := by
  cases hn with
  | again hrun => cases hrun
  | accepted fd rest hopen => cases hopen
  | reports reports hlen =>
    unfold ExchangeSys.maxEvents at hlen
    simp only [acceptLeft]
    omega
  | _ =>
    simp only [acceptLeft, List.length_cons, List.length_nil]
    omega

/-- From anywhere there are at most 132. -/
theorem acceptLeft_le {p : AcceptPoint} (h : Within p) : acceptLeft p ≤ 132 := by
  cases p <;> simp only [acceptLeft, Within, ExchangeSys.maxEvents] at h ⊢ <;> omega

/-- The steps that both threads take at most, once `stop` has returned. -/
def stepsLeft (s : ExchangeSys n c P) : Nat := acceptLeft s.point + if s.feed.loop.pc = .head then 0 else 1

/-- Once the flag is stored, the tick thread ends its batch. -/
theorem tickLoop_stopped {l l' : TickLoop n} {e : TickEvent} (hrun : l.running = false) (hs : l.step e = some l') :
    l'.running = false ∧ (e = .stop ∧ l'.pc = l.pc ∨ l.pc ≠ .head ∧ l'.pc = .head) := by
  cases e with
  | stop =>
    cases hs
    exact ⟨rfl, .inl ⟨rfl, rfl⟩⟩
  | batch rate =>
    simp only [TickLoop.step] at hs
    split at hs <;> simp [hrun] at hs
  | tick fault draw nowNs =>
    simp only [TickLoop.step] at hs
    split at hs <;> simp [hrun] at hs
  | endBatch now nowNs =>
    simp only [TickLoop.step] at hs
    split at hs <;> rename_i hp
    · rw [if_neg (by simp [hrun])] at hs
      cases hs
      refine ⟨?_, .inr ⟨by simp [hp], rfl⟩⟩
      unfold TickLoop.heartbeat
      split <;> exact hrun
    · cases hs

/-- A step of the tick thread, or the store of the flag. -/
theorem tick_stopped {f f' : FeedSys n c P} {e : TickEvent} {outs : Fd → SendOutcome} {now : Int64} (hrun : f.loop.running = false)
    (hs : f.step prices (.tick e outs now) = some f') :
    f'.loop.running = false ∧ (e = .stop ∧ f'.loop.pc = f.loop.pc ∨ f.loop.pc ≠ .head ∧ f'.loop.pc = .head) := by
  obtain ⟨loop, hloop, hs⟩ := Option.bind_eq_some_iff.mp hs
  obtain ⟨server, -, rfl⟩ := Option.map_eq_some_iff.mp hs
  exact tickLoop_stopped hrun hloop

/-- A step after `stop`. -/
theorem account_step {e : ExchangeEvent} (h : s.feed.loop.running = false ∧ s.listenShut = true) (hs : s.step prices e = some t) :
    (t.feed.loop.running = false ∧ t.listenShut = true) ∧ stepsLeft t + e.threadSteps ≤ stepsLeft s + 0 := by
  obtain ⟨hrun, hshut⟩ := h
  cases e with
  | accept e =>
    obtain ⟨hnext, hloop, hshut', -⟩ := acceptStep_goes hs
    rw [hrun, hshut] at hnext
    have hle := acceptLeft_next hnext
    refine ⟨⟨by rw [hloop]; exact hrun, hshut'.trans hshut⟩, ?_⟩
    unfold stepsLeft
    rw [hloop]
    simp only [ExchangeEvent.threadSteps]
    omega
  | stop =>
    simp only [ExchangeSys.step, stopStep] at hs
    split at hs
    · obtain ⟨feed, hfeed, rfl⟩ := Option.map_eq_some_iff.mp hs
      obtain ⟨hrun', ⟨-, hpc⟩ | ⟨hbatch, hpc⟩⟩ := tick_stopped hrun hfeed
      · refine ⟨⟨hrun', hshut⟩, ?_⟩
        simp only [stepsLeft, manage, hpc, ExchangeEvent.threadSteps, Nat.add_zero, Nat.le_refl]
      · refine ⟨⟨hrun', hshut⟩, ?_⟩
        simp [stepsLeft, manage, hpc, ExchangeEvent.threadSteps]
    · cases hs
      exact ⟨⟨hrun, rfl⟩, Nat.le_refl _⟩
  | tick e outs now =>
    obtain ⟨hne, hs⟩ := Option.ite_none_left_eq_some.mp hs
    obtain ⟨feed, hfeed, rfl⟩ := Option.map_eq_some_iff.mp hs
    obtain ⟨hrun', ⟨he, -⟩ | ⟨hbatch, hpc⟩⟩ := tick_stopped hrun hfeed
    · exact absurd he hne
    · refine ⟨⟨hrun', hshut⟩, ?_⟩
      simp [stepsLeft, manage, hpc, hbatch, ExchangeEvent.threadSteps]
  | client fd e =>
    obtain ⟨feed, hfeed, rfl⟩ := Option.map_eq_some_iff.mp hs
    have hloop : feed.loop = s.feed.loop := feed_loop hfeed (by simp)
    refine ⟨⟨by rw [← hrun, ← hloop]; rfl, hshut⟩, ?_⟩
    simp only [stepsLeft, manage, hloop, ExchangeEvent.threadSteps, Nat.add_zero, Nat.le_refl]
  | arrive fd len =>
    obtain ⟨-, hs⟩ := Option.ite_none_left_eq_some.mp hs
    cases hs
    exact ⟨⟨hrun, hshut⟩, Nat.le_refl _⟩
  | fin fd =>
    cases hs
    exact ⟨⟨hrun, hshut⟩, Nat.le_refl _⟩

/-! ## Nobody waits -/

/-- The accept thread goes on until it has finished, and where it would wait, there is something to report. -/
theorem goes_on (h : Tracked s) (hshut : s.listenShut = true) (hne : s.point ≠ .finished) :
    (∃ e t, s.acceptStep prices e = some t) ∧ (s.point = .epollWait → s.Reports s.shutReport) := by
  have hreport : s.Reports s.shutReport := by
    refine ⟨(h.watched _).mpr (.inl rfl), rfl, rfl, ?_⟩
    rw [if_pos (show s.shutReport.fd = s.listenFd from rfl)]
    exact hshut.symm
  refine ⟨?_, fun _ => hreport⟩
  cases hp : s.point with
  | finished => exact absurd hp hne
  | head => exact ⟨.step, _, by rw [ExchangeSys.acceptStep, hp]⟩
  | epollWait => exact ⟨.wait .interrupted, _, by rw [ExchangeSys.acceptStep, hp]; rfl⟩
  | events rest =>
    have hsome : ∃ t, s.nextReport prices rest = some t := by
      cases rest with
      | nil => exact ⟨_, rfl⟩
      | cons r rest =>
        rw [ExchangeSys.nextReport]
        split
        · exact ⟨_, rfl⟩
        · split
          · exact ⟨_, rfl⟩
          · split
            · exact ⟨_, rfl⟩
            · split <;> exact ⟨_, rfl⟩
    obtain ⟨t, ht⟩ := hsome
    refine ⟨.step, t, ?_⟩
    rw [ExchangeSys.acceptStep, hp]
    exact ht
  | accept rest => exact ⟨.accept none, _, by rw [ExchangeSys.acceptStep, hp]; rfl⟩
  | register fd rest => exact ⟨.step, _, by rw [ExchangeSys.acceptStep, hp]⟩
  | addClient fd rest =>
    have hfresh := (h.fresh fd (by rw [hp]; exact List.mem_singleton.mpr rfl)).2
    have hadd : ∃ t, s.call prices (.accept fd "" 0 (fd :: s.keys) 0) (.accept rest) = some t := by
      simp only [ExchangeSys.call, FeedSys.step, Server.step]
      rw [if_pos ⟨hfresh, List.Perm.refl _⟩]
      exact ⟨_, rfl⟩
    obtain ⟨t, ht⟩ := hadd
    refine ⟨.add "" 0 (fd :: s.keys) 0, t, ?_⟩
    rw [ExchangeSys.acceptStep, hp]
    exact ht
  | flush fd rest => exact ⟨.flush fun _ => .again, _, by rw [ExchangeSys.acceptStep, hp]; rfl⟩
  | recv fd rest => exact ⟨.recv .failed, _, by rw [ExchangeSys.acceptStep, hp]; exact if_pos trivial⟩
  | maintain => exact ⟨.step, _, by rw [ExchangeSys.acceptStep, hp]; rfl⟩

/-- What holds in every run: batches are no longer than `epoll_wait` makes them, and between the two steps of `stop` its flag is stored. -/
structure StopOk (s : ExchangeSys n c P) : Prop where
  tracked : Tracked s
  within : Within s.point
  stored : s.stopper = .signal → s.feed.loop.running = false

/-- The flag stays as it is, or is stored. -/
theorem tick_running {f f' : FeedSys n c P} {e : TickEvent} {outs : Fd → SendOutcome} {now : Int64}
    (hs : f.step prices (.tick e outs now) = some f') : f'.loop.running = true → e ≠ .stop ∧ f.loop.running = true := by
  obtain ⟨loop, hloop, hs⟩ := Option.bind_eq_some_iff.mp hs
  obtain ⟨server, -, rfl⟩ := Option.map_eq_some_iff.mp hs
  intro hrun
  dsimp only at hrun
  by_cases hold : f.loop.running = true
  · refine ⟨?_, hold⟩
    rintro rfl
    cases hloop
    cases hrun
  · rw [(tickLoop_stopped (Bool.eq_false_of_not_eq_true hold) hloop).1] at hrun
    cases hrun

/-- Every step keeps what is known after `stop`. -/
theorem StopOk.step {e : ExchangeEvent} (h : StopOk s) (hs : s.step prices e = some t) : StopOk t := by
  have htracked : Tracked t := h.tracked.step hs
  cases e with
  | accept e =>
    obtain ⟨hnext, hloop, -, hstopper⟩ := acceptStep_goes hs
    refine ⟨htracked, h.within.next hnext, ?_⟩
    rw [hstopper, hloop]
    exact h.stored
  | stop =>
    simp only [ExchangeSys.step, stopStep] at hs
    split at hs
    · obtain ⟨feed, hfeed, rfl⟩ := Option.map_eq_some_iff.mp hs
      refine ⟨htracked, h.within, fun _ => ?_⟩
      exact Bool.eq_false_of_not_eq_true fun hrun => (tick_running hfeed hrun).1 rfl
    · cases hs
      exact ⟨htracked, h.within, by simp⟩
  | tick e outs now =>
    obtain ⟨-, hs⟩ := Option.ite_none_left_eq_some.mp hs
    obtain ⟨feed, hfeed, rfl⟩ := Option.map_eq_some_iff.mp hs
    refine ⟨htracked, h.within, fun hsignal => Bool.eq_false_of_not_eq_true fun hrun => ?_⟩
    have hrun' := (tick_running hfeed hrun).2
    rw [h.stored hsignal] at hrun'
    cases hrun'
  | client fd e =>
    obtain ⟨feed, hfeed, rfl⟩ := Option.map_eq_some_iff.mp hs
    have hloop : feed.loop = s.feed.loop := feed_loop hfeed (by simp)
    refine ⟨htracked, h.within, fun hsignal => ?_⟩
    rw [← h.stored hsignal, ← hloop]
    rfl
  | arrive fd len =>
    obtain ⟨-, hs⟩ := Option.ite_none_left_eq_some.mp hs
    cases hs
    exact ⟨htracked, h.within, h.stored⟩
  | fin fd =>
    cases hs
    exact ⟨htracked, h.within, h.stored⟩

end ServerStopAux

open ServerStopAux DescriptorsAux

/-- In every run of the exchange in which no broadcast drops a client, and in which `stop` has stored its flag and then shuts the listening
socket down: from there, whatever the threads, the clients and their connections do, the accept thread and the tick thread take at most 133
more steps; and the accept thread has a step to take until it has finished, and in `epoll_wait` a report that is there. -/
theorem server_stop_ends (prices : DisplayPrices P) (listenFd : Fd) (es : List ExchangeEvent) (s : ExchangeSys n c P)
    (h : Run.exec (ExchangeSys.step prices) (.init prices n c listenFd) es = some s) (hstop : s.stopper = .signal)
    (es' : List ExchangeEvent) (t : ExchangeSys n c P) (h' : Run.exec (ExchangeSys.step prices) s (.stop :: es') = some t) :
    (es'.map ExchangeEvent.threadSteps).sum ≤ 133 ∧
      (t.point = .finished ∨
        (∃ e u, t.acceptStep prices e = some u) ∧ (t.point = .epollWait → t.Reports t.shutReport)) := by
  have hinit : StopOk (ExchangeSys.init prices n c listenFd) := ⟨tracked_init prices listenFd, trivial, by simp [ExchangeSys.init]⟩
  have hok : StopOk s := Run.exec_invariant (fun _ _ _ hi hs => hi.step hs) hinit h
  have hok' : StopOk t := Run.exec_invariant (fun _ _ _ hi hs => hi.step hs) hok h'
  obtain ⟨s', hs', hrest⟩ := Run.exec_cons_eq_some.mp h'
  simp only [ExchangeSys.step, ExchangeSys.stopStep, hstop, Option.some.injEq] at hs'
  subst hs'
  generalize hs₁ : { s with listenShut := true, stopper := .idle } = s₁ at hrest
  have hstopped : s₁.feed.loop.running = false ∧ s₁.listenShut = true := by
    rw [← hs₁]
    exact ⟨hok.stored hstop, rfl⟩
  have hstopped' := Run.exec_invariant (I := fun s => s.feed.loop.running = false ∧ s.listenShut = true)
    (fun _ _ _ hi hs => (account_step hi hs).1) hstopped hrest
  refine ⟨?_, ?_⟩
  · have haccount : stepsLeft t + (es'.map ExchangeEvent.threadSteps).sum ≤ stepsLeft s₁ + (es'.map fun _ => 0).sum :=
      Run.exec_account (fun _ _ _ hi hs => account_step hi hs) hstopped hrest
    have hle : stepsLeft s₁ ≤ 133 := by
      have haccept : acceptLeft s.point ≤ 132 := acceptLeft_le hok.within
      have hpoint : s₁.point = s.point := by rw [← hs₁]
      unfold stepsLeft
      rw [hpoint]
      split <;> omega
    have hzero : (es'.map fun _ => 0).sum = 0 := by simp
    omega
  · by_cases hfin : t.point = .finished
    · exact .inl hfin
    · exact .inr (goes_on hok'.tracked hstopped'.2 hfin)

namespace ServerStopAux

open DescriptorsAux EndToEndAux FaultInjectionAux

/-- `stop` comes while a batch ticks and the accept thread has a report of 5 to look at. -/
def busyRun : List ExchangeEvent :=
  [.accept .step, .accept (.wait (.ready [readable 3 0])), .accept .step, .accept (.accept (some (5, []))), .accept .step,
    .accept (.add "10.0.0.1:4000" 1 [5] 2), .accept (.accept none), .accept .step, .accept .step, .accept .step,
    .tick (.batch 100000) (fun _ => .again) 2, .arrive 5 3, .accept (.wait (.ready [readable 5 1])), .stop]

/-- Both threads end, the accept thread without another `epoll_wait`. -/
def endingRun : List ExchangeEvent :=
  [.accept .step, .tick (.endBatch 5 7) (fun _ => .again) 3, .accept (.recv (.bytes 3)), .accept .step, .accept .step, .accept .step]

end ServerStopAux

open DescriptorsAux EndToEndAux FaultInjectionAux

/-- The run `busyRun` meets the hypotheses of `server_stop_ends`, and `endingRun` ends it. -/
theorem server_stop_ends_busyRun :
    ∃ s t : ExchangeSys oneSymbol recvBufSize Nat,
      Run.exec (ExchangeSys.step wholePrices) (.init wholePrices oneSymbol recvBufSize 3) busyRun = some s ∧
        Run.exec (ExchangeSys.step wholePrices) s (.stop :: endingRun) = some t ∧
        (endingRun.map ExchangeEvent.threadSteps).sum ≤ 133 ∧ t.point = .finished := by
  have hrun : ∃ s : ExchangeSys oneSymbol recvBufSize Nat,
      Run.exec (ExchangeSys.step wholePrices) (.init wholePrices oneSymbol recvBufSize 3) busyRun = some s ∧ s.stopper = .signal ∧
        ∃ t : ExchangeSys oneSymbol recvBufSize Nat,
          Run.exec (ExchangeSys.step wholePrices) s (.stop :: endingRun) = some t ∧ t.point = .finished := by decide +kernel
  obtain ⟨s, hrun, hstop, t, ht, hfin⟩ := hrun
  exact ⟨s, t, hrun, ht, (server_stop_ends wholePrices 3 busyRun s hrun hstop endingRun t ht).1, hfin⟩

end MarketFeed
