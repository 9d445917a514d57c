import MarketFeed.Lemmas.ConnectionFlags
import MarketFeed.Theorems.GiveUp

/-!
# The backoff of the reconnect thread

`next_delay_ms` counts the attempts itself, and only a `do_connect` that succeeds sets the count back. So the sleeps since the last reset
are those of the schedule in their order, whatever the network thread does in between, and there are at most `MAX_ATTEMPT`.
-/

namespace MarketFeed

/-- The first `n` delays of the policy, without the jitter. -/
def ReconnectPolicy.schedule (n : Nat) : List Nat := (List.range n).map fun k => baseMs * 2 ^ min k 8

/-- A delay with a jitter of less than 100 ms. -/
def ReconnectPolicy.Jittered (base delayMs : Nat) : Prop := base ≤ delayMs ∧ delayMs < base + 100

/-- The handler, and how long the reconnect thread has slept before each attempt since the policy was last reset. -/
structure SleepLog where
  handler : FeedHandler
  sleeps : List Nat
  deriving DecidableEq, Repr

namespace SleepLog

def init : SleepLog := { handler := .init, sleeps := [] }

/-- The sleeps after a step. -/
def after (l : SleepLog) : HandlerEvent → List Nat
  | .reconnect (.delay rand) => l.sleeps ++ [(l.handler.policy.nextDelayMs rand).2]
  | .network .step =>
    match l.handler.network with
    | .resetPolicy _ => []
    | _ => l.sleeps
  | _ => l.sleeps

/-- A step of the handler. -/
def step (l : SleepLog) (e : HandlerEvent) : Option SleepLog := (l.handler.step e).map fun s => { handler := s, sleeps := l.after e }

end SleepLog

/-- A `connect` succeeds. -/
def HandlerEvent.connects : HandlerEvent → Bool
  | .network (.connect ok) => ok
  | _ => false

namespace BackoffAux

open ReconnectPolicy

/-- The sleeps are those of the schedule, and as many as the policy has counted. -/
structure SleepOk (l : SleepLog) : Prop where
  sleeps : List.Forall₂ Jittered (ReconnectPolicy.schedule l.handler.policy.attempt) l.sleeps
  attempts : l.handler.policy.attempt ≤ ReconnectPolicy.maxAttempt
  next : l.handler.reconnect = .nextDelay → l.handler.policy.attempt < ReconnectPolicy.maxAttempt

/-- The schedule of one more sleep. -/
theorem schedule_succ (n : Nat) :
    ReconnectPolicy.schedule (n + 1) = ReconnectPolicy.schedule n ++ [ReconnectPolicy.baseMs * 2 ^ min n 8] := by
  simp [ReconnectPolicy.schedule, List.range_succ]

/-- The cap never takes effect: the delay is that of the schedule. -/
theorem nextDelayMs_eq (p : ReconnectPolicy) (rand : Nat) :
    p.nextDelayMs rand = (⟨p.attempt + 1⟩, ReconnectPolicy.baseMs * 2 ^ min p.attempt 8 + rand % 100) := by
  have hshift : (if p.attempt < 8 then p.attempt else 8) = min p.attempt 8 := by
    split <;> omega
  have hpow : 2 ^ min p.attempt 8 ≤ 2 ^ 8 := Nat.pow_le_pow_right (by decide) (Nat.min_le_right _ _)
  have hcap : ReconnectPolicy.baseMs * 2 ^ min p.attempt 8 ≤ ReconnectPolicy.maxMs := by
    unfold ReconnectPolicy.baseMs ReconnectPolicy.maxMs
    omega
  unfold ReconnectPolicy.nextDelayMs
  dsimp only
  rw [hshift, Nat.min_eq_left hcap]

/-- The log after a step that touches neither the policy nor the point at which a delay is due. -/
theorem SleepOk.same {l : SleepLog} {t : FeedHandler} (h : SleepOk l) (hpolicy : t.policy = l.handler.policy)
    (hnext : t.reconnect = .nextDelay → l.handler.reconnect = .nextDelay) : SleepOk { handler := t, sleeps := l.sleeps } := by
  refine ⟨?_, ?_, fun hn => ?_⟩
  · rw [hpolicy]
    exact h.sleeps
  · rw [hpolicy]
    exact h.attempts
  · rw [hpolicy]
    exact h.next (hnext hn)

/-- A step of the network thread keeps the sleeps in step with the policy: a reset of the policy starts them anew. -/
theorem SleepOk.network {l : SleepLog} {t : FeedHandler} {e : NetworkEvent} (h : SleepOk l) (hs : l.handler.networkStep e = some t) :
    SleepOk { handler := t, sleeps := l.after (.network e) } := by
  have hmove := FeedHandler.networkStep_moves hs
  generalize hp : l.handler.network = p at hmove
  cases hmove with
  | resetPolicy k =>
    have hnone : l.after (.network .step) = [] := by
      unfold SleepLog.after
      rw [hp]
    rw [hnone]
    exact ⟨List.Forall₂.nil, Nat.zero_le _, fun _ => Nat.zero_lt_succ _⟩
  | received | tryAgain | connected | notConnected | ready | interrupted | failed | peerClosed | drained | recvError | timeout | inTime =>
    exact h.same rfl id
  | _ =>
    -- another step of the thread
    have hsame : l.after (.network .step) = l.sleeps := by
      unfold SleepLog.after
      rw [hp]
    rw [hsame]
    exact h.same rfl id

/-- So does one of the reconnect thread: each delay it asks for is the next of the schedule, and is slept. -/
theorem SleepOk.reconnect {l : SleepLog} {t : FeedHandler} {e : ReconnectEvent} (h : SleepOk l)
    (hs : l.handler.reconnectStep e = some t) : SleepOk { handler := t, sleeps := l.after (.reconnect e) } := by
  cases e with
  | step =>
    simp only [FeedHandler.reconnectStep] at hs
    split at hs <;> cases hs
    case h_3 =>
      refine ⟨h.sleeps, h.attempts, fun hn => ?_⟩
      dsimp only at hn
      split at hn <;> rename_i hgive
      · cases hn
      · simpa [ReconnectPolicy.giveUp] using hgive
    case h_4 => exact ⟨h.sleeps, h.attempts, by simp⟩
    case h_6 => exact ⟨h.sleeps, h.attempts, by simp⟩
    all_goals
      refine ⟨h.sleeps, h.attempts, fun hn => ?_⟩
      dsimp only at hn
      split at hn <;> cases hn
  | delay rand =>
    simp only [FeedHandler.reconnectStep, nextDelayMs_eq] at hs
    split at hs <;> rename_i hp <;> cases hs
    have hjitter : rand % 100 < 100 := Nat.mod_lt _ (by decide)
    refine ⟨?_, h.next hp, by simp⟩
    simp only [SleepLog.after, nextDelayMs_eq, schedule_succ]
    exact List.rel_append h.sleeps (.cons ⟨Nat.le_add_right _ _, Nat.add_lt_add_left hjitter _⟩ .nil)

/-- Every step of any thread does. -/
theorem SleepOk.step {l l' : SleepLog} {e : HandlerEvent} (h : SleepOk l) (hs : l.step e = some l') : SleepOk l' := by
  obtain ⟨t, ht, rfl⟩ := Option.map_eq_some_iff.mp hs
  cases e with
  | network e => exact h.network ht
  | reconnect e => exact h.reconnect ht
  | stop =>
    cases ht
    unfold FeedHandler.stopStep
    split <;> exact h.same rfl id
  | peer e =>
    obtain ⟨-, -, ⟨bytes, rfl⟩ | rfl⟩ := ConnectionFlagsAux.peerStep_cases ht <;> exact h.same rfl id

/-! ## Giving up -/

/-- No `connect` has succeeded: the policy is not reset, and whoever gives up has counted all attempts. -/
structure RefusedOk (s : FeedHandler) : Prop where
  refused : s.network.awaitsReset = false
  givingUp : s.reconnect = .givingUp → ReconnectPolicy.maxAttempt ≤ s.policy.attempt
  gaveUp : s.giveUps ≠ [] → s.reconnect = .finished ∧ ReconnectPolicy.maxAttempt ≤ s.policy.attempt

/-- A step that leaves the policy and the reconnect thread as they are, and takes the network thread to no reset of the policy. -/
theorem RefusedOk.leave {s t : FeedHandler} (h : RefusedOk s) (hrefused : t.network.awaitsReset = false)
    (hreconnect : t.reconnect = s.reconnect) (hpolicy : t.policy = s.policy) (hgiveUps : t.giveUps = s.giveUps) : RefusedOk t := by
  refine ⟨hrefused, ?_, ?_⟩
  · rw [hreconnect, hpolicy]
    exact h.givingUp
  · rw [hgiveUps, hreconnect, hpolicy]
    exact h.gaveUp

/-- As long as no connect succeeds, the network thread never resets the policy. -/
theorem RefusedOk.network {s t : FeedHandler} {e : NetworkEvent} (h : RefusedOk s) (hno : (HandlerEvent.network e).connects = false)
    (hs : s.networkStep e = some t) : RefusedOk t := by
  have hmove := FeedHandler.networkStep_moves hs
  have hrefused := h.refused
  generalize hp : s.network = p at hrefused hmove
  cases hmove with
  | connected k => cases hno
  | storeConnected k => cases hrefused
  | resetPolicy k => cases hrefused
  | connectFailed k => exact h.leave (GiveUpAux.awaitsReset_point k) rfl rfl rfl
  | alreadyDisconnected k hc => exact h.leave (GiveUpAux.awaitsReset_point k) rfl rfl rfl
  | stopped k hr => exact h.leave (GiveUpAux.awaitsReset_point k) rfl rfl rfl
  | signal k => exact h.leave (GiveUpAux.awaitsReset_point k) rfl rfl rfl
  | received rest n hmay => exact h.leave h.refused rfl rfl rfl
  | tryAgain rest hmay => exact h
  | _ => exact h.leave rfl rfl rfl rfl

/-- The reconnect thread gives up behind the last attempt only, and takes no step afterwards. -/
theorem RefusedOk.reconnect {s t : FeedHandler} {e : ReconnectEvent} (h : RefusedOk s) (hs : s.reconnectStep e = some t) :
    RefusedOk t := by
  -- a thread that has given up takes no step
  have hnone : s.giveUps = [] := by
    by_contra hne
    have hfin := (h.gaveUp hne).1
    cases e <;> simp [FeedHandler.reconnectStep, hfin] at hs
  cases e with
  | step =>
    simp only [FeedHandler.reconnectStep] at hs
    split at hs <;> rename_i hp <;> cases hs
    case h_3 =>
      refine ⟨h.refused, fun hg => ?_, fun hne => absurd hnone hne⟩
      dsimp only at hg
      split at hg <;> rename_i hgive
      · simpa [ReconnectPolicy.giveUp] using hgive
      · cases hg
    case h_4 => exact ⟨h.refused, by simp, fun _ => ⟨rfl, h.givingUp hp⟩⟩
    case h_6 => exact ⟨h.refused, by simp, fun hne => absurd hnone hne⟩
    all_goals
      refine ⟨h.refused, fun hg => ?_, fun hne => absurd hnone hne⟩
      dsimp only at hg
      split at hg <;> cases hg
  | delay rand =>
    simp only [FeedHandler.reconnectStep] at hs
    split at hs <;> cases hs
    exact ⟨h.refused, by simp, fun hne => absurd hnone hne⟩

/-- Every step does, as long as no connect succeeds. -/
theorem RefusedOk.step {s t : FeedHandler} {e : HandlerEvent} (h : RefusedOk s) (hno : e.connects = false) (hs : s.step e = some t) :
    RefusedOk t := by
  cases e with
  | network e => exact h.network hno hs
  | reconnect e => exact h.reconnect hs
  | stop =>
    cases hs
    unfold FeedHandler.stopStep
    split <;> exact h.leave h.refused rfl rfl rfl
  | peer e =>
    obtain ⟨-, -, ⟨bytes, rfl⟩ | rfl⟩ := ConnectionFlagsAux.peerStep_cases hs <;> exact h.leave h.refused rfl rfl rfl

end BackoffAux

open BackoffAux ReconnectPolicy

namespace BackoffAux

end BackoffAux

end MarketFeed
