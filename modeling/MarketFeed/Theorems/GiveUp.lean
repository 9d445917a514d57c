import MarketFeed.FeedHandler

/-!
# Giving up

`reconnect_loop` counts an attempt with each `next_delay_ms`, and the network thread makes the attempt when it gets round to it.
As long as the count keeps up with the attempts, the reconnect thread gives up only after as many failures as the policy asks for.
-/

namespace MarketFeed

/-- A `connect` has succeeded, and the policy has not been reset yet. -/
def NetworkPoint.awaitsReset : NetworkPoint → Bool
  | .storeConnected _ | .resetPolicy _ => true
  | _ => false

/-- The condition on the steps: an attempt is counted only when a `do_connect` has failed for it since the last one that succeeded;
`give_up` does not find its 20 attempts while a success has still to reset them; and no `do_connect` succeeds between that finding and
the store that stops the handler. -/
def FeedHandler.CountKeepsUp (s : FeedHandler) : HandlerEvent → Prop
  | .reconnect (.delay _) => s.policy.attempt < s.failures
  | .reconnect .step => s.reconnect = .testGiveUp → s.policy.giveUp = true → s.network.awaitsReset = false
  | .network (.connect true) => s.reconnect ≠ .givingUp
  | _ => True

instance (s : FeedHandler) : DecidablePred s.CountKeepsUp := fun e => by
  unfold FeedHandler.CountKeepsUp
  split <;> infer_instance

namespace GiveUpAux

/-- The attempts counted have failed, and so have those of every give-up. -/
structure CountOk (s : FeedHandler) : Prop where
  counted : s.network.awaitsReset = false → s.policy.attempt ≤ s.failures
  givingUp : s.reconnect = .givingUp → ReconnectPolicy.maxAttempt ≤ s.failures
  giveUps : ∀ n ∈ s.giveUps, ReconnectPolicy.maxAttempt ≤ n

theorem CountOk.init : CountOk FeedHandler.init :=
  ⟨fun _ => Nat.le_refl _, nofun, fun _ hn => absurd hn List.not_mem_nil⟩

/-- A step of the network thread that changes neither the count nor what is counted. -/
structure SameCount (s t : FeedHandler) : Prop where
  awaits : t.network.awaitsReset = s.network.awaitsReset
  policy : t.policy = s.policy
  failures : t.failures = s.failures
  reconnect : t.reconnect = s.reconnect
  giveUps : t.giveUps = s.giveUps

/-- Such a step is seen from the point it leaves. -/
theorem SameCount.move {s t : FeedHandler} {p : NetworkPoint} (hp : s.network = p) (hawaits : t.network.awaitsReset = p.awaitsReset)
    (hpolicy : t.policy = s.policy := by rfl) (hfailures : t.failures = s.failures := by rfl)
    (hreconnect : t.reconnect = s.reconnect := by rfl) (hgiveUps : t.giveUps = s.giveUps := by rfl) : SameCount s t :=
  ⟨by rw [hp, hawaits], hpolicy, hfailures, hreconnect, hgiveUps⟩

theorem CountOk.same {s t : FeedHandler} (h : CountOk s) (hsame : SameCount s t) : CountOk t := by
  obtain ⟨h1, h2, h3⟩ := h
  refine ⟨?_, ?_, ?_⟩
  · rw [hsame.awaits, hsame.policy, hsame.failures]
    exact h1
  · rw [hsame.reconnect, hsame.failures]
    exact h2
  · rw [hsame.giveUps]
    exact h3

theorem awaitsReset_point (k : Resume) : k.point.awaitsReset = false := by
  cases k <;> rfl

/-- Every step of the network thread keeps the count. -/
theorem CountOk.network {s t : FeedHandler} {e : NetworkEvent} (h : CountOk s) (hok : s.CountKeepsUp (.network e))
    (hs : s.networkStep e = some t) : CountOk t := by
  have hmove := FeedHandler.networkStep_moves hs
  generalize hp : s.network = p at hmove
  cases hmove with
  | connected k => exact ⟨nofun, fun hg => absurd hg hok, h.giveUps⟩
  | notConnected k =>
    have hcount : s.policy.attempt ≤ s.failures := h.counted (by rw [hp]; rfl)
    exact ⟨fun _ => Nat.le_succ_of_le hcount, fun hg => Nat.le_succ_of_le (h.givingUp hg), h.giveUps⟩
  | resetPolicy k => exact ⟨fun _ => Nat.zero_le _, h.givingUp, h.giveUps⟩
  | connectFailed k => exact h.same (.move hp (awaitsReset_point k))
  | alreadyDisconnected k hc => exact h.same (.move hp (awaitsReset_point k))
  | stopped k hr => exact h.same (.move hp (awaitsReset_point k))
  | signal k => exact h.same (.move hp (awaitsReset_point k))
  | received rest n hmay => exact h.same (.move rfl rfl)
  | tryAgain rest hmay => exact h
  -- no other step is about a `connect` or the policy
  | _ => exact h.same (.move hp rfl)

/-- Every step of the reconnect thread keeps the count. -/
theorem CountOk.reconnect {s t : FeedHandler} {e : ReconnectEvent} (h : CountOk s) (hok : s.CountKeepsUp (.reconnect e))
    (hs : s.reconnectStep e = some t) : CountOk t := by
  cases e with
  | step =>
    simp only [FeedHandler.reconnectStep] at hs
    split at hs <;> rename_i hp <;> cases hs
    case h_3 =>
      refine ⟨h.counted, fun hg => ?_, h.giveUps⟩
      dsimp only at hg
      split at hg <;> rename_i hgive
      · -- `give_up` counts what has failed
        have hcount := h.counted (hok hp hgive)
        have hmax : ReconnectPolicy.maxAttempt ≤ s.policy.attempt := by simpa [ReconnectPolicy.giveUp] using hgive
        exact hmax.trans hcount
      · cases hg
    case h_4 =>
      refine ⟨h.counted, nofun, fun n hn => ?_⟩
      rcases List.mem_append.mp hn with hn | hn
      · exact h.giveUps n hn
      · rw [List.mem_singleton.mp hn]
        exact h.givingUp hp
    case h_6 => exact ⟨h.counted, nofun, h.giveUps⟩
    -- the other points go on to one of two, neither of which gives up
    all_goals
      refine ⟨h.counted, fun hg => ?_, h.giveUps⟩
      dsimp only at hg
      split at hg <;> cases hg
  | delay rand =>
    simp only [FeedHandler.reconnectStep] at hs
    split at hs <;> cases hs
    exact ⟨fun _ => hok, nofun, h.giveUps⟩

/-- Every step that meets the condition keeps the count. -/
theorem CountOk.step {s t : FeedHandler} {e : HandlerEvent} (h : CountOk s) (hok : s.CountKeepsUp e) (hs : s.step e = some t) :
    CountOk t := by
  cases e with
  | network e => exact h.network hok hs
  | reconnect e => exact h.reconnect hok hs
  | stop =>
    cases hs
    unfold FeedHandler.stopStep
    split <;> exact h.same (.move rfl rfl)
  | peer e =>
    simp only [FeedHandler.step, FeedHandler.peerStep] at hs
    split at hs
    · split at hs
      · split at hs <;> cases hs
        exact h.same (.move rfl rfl)
      · cases hs
        exact h.same (.move rfl rfl)
    · cases hs

end GiveUpAux

open GiveUpAux

/-- In every run whose steps all meet the condition, each time `reconnect_loop` stops the handler at least `MAX_ATTEMPT` calls of
`do_connect` have failed since the last one that succeeded. -/
theorem giveUp_of_countKeepsUp (es : List HandlerEvent) (s : FeedHandler)
    (hok : Run.Along FeedHandler.step FeedHandler.CountKeepsUp FeedHandler.init es)
    (h : Run.exec FeedHandler.step FeedHandler.init es = some s) : ∀ n ∈ s.giveUps, ReconnectPolicy.maxAttempt ≤ n := by
  have hinv : CountOk s := Run.exec_invariant_along (fun _ _ _ hi hstep hs => hi.step hstep hs) CountOk.init hok h
  exact hinv.giveUps

namespace GiveUpAux

/-- The reconnect thread finds a reconnect pending, counts an attempt, sleeps and signals. -/
def countAttempt : List HandlerEvent :=
  [.reconnect .step, .reconnect .step, .reconnect .step, .reconnect (.delay 0), .reconnect .step, .reconnect .step]

/-- The network thread is woken and tries to connect in vain. -/
def failAttempt : List HandlerEvent :=
  [.network .step, .network (.wait (.ready [.eventFd])), .network .step, .network .step, .network (.connect false), .network .step,
    .network .step, .network .step]

/-- The reconnect thread gives up. -/
def giveUpSteps : List HandlerEvent := [.reconnect .step, .reconnect .step, .reconnect .step, .reconnect .step]

/-- The initial connect fails, and so does one for each attempt counted. -/
def steadyRun : List HandlerEvent :=
  List.flatten [[.network (.connect false), .network .step], (List.replicate 20 (countAttempt ++ failAttempt)).flatten, giveUpSteps]

/-- The initial connect fails, and the network thread does not get round to another while the reconnect thread counts to 20. -/
def aheadRun : List HandlerEvent :=
  List.flatten [[.network (.connect false), .network .step], (List.replicate 20 countAttempt).flatten, giveUpSteps]

end GiveUpAux

/-- The run `steadyRun` meets the hypotheses of `giveUp_of_countKeepsUp`, and ends in a give-up. -/
theorem giveUp_of_countKeepsUp_steadyRun :
    ∃ s, Run.exec FeedHandler.step FeedHandler.init steadyRun = some s ∧ s.giveUps = [21] ∧
      ∀ n ∈ s.giveUps, ReconnectPolicy.maxAttempt ≤ n := by
  have hrun : ∃ s, Run.exec FeedHandler.step FeedHandler.init steadyRun = some s ∧ s.giveUps = [21] := by decide +kernel
  obtain ⟨s, hrun, hgiveUps⟩ := hrun
  exact ⟨s, hrun, hgiveUps, giveUp_of_countKeepsUp steadyRun s (by decide +kernel) hrun⟩

/-- In the run `aheadRun` the reconnect thread gives up after a single `do_connect`. -/
theorem giveUp_after_one_failure :
    ∃ s, Run.exec FeedHandler.step FeedHandler.init aheadRun = some s ∧ s.running = false ∧ s.giveUps = [1] ∧
      ¬∀ n ∈ s.giveUps, ReconnectPolicy.maxAttempt ≤ n := by decide +kernel

end MarketFeed
