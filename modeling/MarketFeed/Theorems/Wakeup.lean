import MarketFeed.SendThreads

/-!
# Lost EPOLLOUT wakeups

A client with a backlog is served again only when `EPOLLOUT` fires. Both threads decide by the queue and act on the decision in
a later step, so a queue can be filled between the flush that found it empty and the disarming, or be flushed and disarmed between
the test that found it non-empty and the `enqueue`. In either case the backlog is left without a wakeup. Apart from these two
orders of steps a backlog keeps its wakeup.
-/

namespace MarketFeed

namespace SendSys

/-- The queue of the client. -/
def queue (s : SendSys) : List (List UInt8) :=
  match s.client with
  | some cs => cs.pending
  | none => []

/-- Neither `send_to` nor `flush_pending` is in progress. -/
def Quiescent (s : SendSys) : Prop := s.tick = .idle ∧ s.accept = .idle

instance (s : SendSys) : Decidable s.Quiescent := inferInstanceAs (Decidable (s.tick = .idle ∧ s.accept = .idle))

/-- `send_to` is about to arm `EPOLLOUT`. -/
def Arming (s : SendSys) : Prop := s.tick = .arming true ∨ s.tick = .arming false

instance (s : SendSys) : Decidable s.Arming := inferInstanceAs (Decidable (s.tick = .arming true ∨ s.tick = .arming false))

/-- `send_to` is about to put a message behind a backlog. -/
def AtBacklog (s : SendSys) : Bool :=
  match s.tick with
  | .backlog _ => true
  | _ => false

/-- The two steps that act on a decision taken earlier find it still good: `EPOLLOUT` is disarmed only while the queue is empty or
`send_to` is about to arm it, and a message is put behind a backlog only while there is one or `EPOLLOUT` is armed. -/
def Fresh (s : SendSys) : SendEvent → Prop
  | .disarm => s.queue = [] ∨ s.Arming
  | .enqueue => s.AtBacklog = true → s.queue ≠ [] ∨ s.conn.epollOut = true
  | _ => True

instance (s : SendSys) (e : SendEvent) : Decidable (s.Fresh e) :=
  match e with
  | .disarm => inferInstanceAs (Decidable (s.queue = [] ∨ s.Arming))
  | .enqueue => inferInstanceAs (Decidable (s.AtBacklog = true → s.queue ≠ [] ∨ s.conn.epollOut = true))
  | .send _ _ _ => isTrue trivial
  | .limit => isTrue trivial
  | .arm => isTrue trivial
  | .drop => isTrue trivial
  | .flush _ => isTrue trivial

end SendSys

namespace WakeupAux

/-- A backlog is armed, or about to be. -/
def Armed (s : SendSys) : Prop := s.queue ≠ [] → s.conn.epollOut = true ∨ s.Arming

theorem not_arming {s : SendSys} {pc : TickPc} (h : s.tick = pc) (h1 : pc ≠ .arming true) (h2 : pc ≠ .arming false) :
    ¬s.Arming := by
  rintro (ha | ha)
  · exact h1 (h ▸ ha)
  · exact h2 (h ▸ ha)

/-- A backlog outside the arming window is armed. -/
theorem Armed.epollOut {s : SendSys} (h : Armed s) (hq : s.queue ≠ []) (ht : ¬s.Arming) : s.conn.epollOut = true := by
  rcases h hq with harmed | harming
  · exact harmed
  · exact absurd harming ht

/-- The first step of `send_to` keeps the queue and the interest set. -/
theorem beginSend_frame {s : SendSys} {cs : ClientState} (hcs : s.client = some cs) (data : List UInt8) (out : SendOutcome)
    (now : Int64) :
    (s.beginSend cs data out now).queue = s.queue ∧ (s.beginSend cs data out now).conn.epollOut = s.conn.epollOut := by
  unfold SendSys.beginSend
  dsimp only
  split
  · exact ⟨rfl, rfl⟩
  · cases out with
    | accept k =>
      dsimp only
      split
      · simp [SendSys.queue, hcs]
      · exact ⟨rfl, rfl⟩
    | again => exact ⟨rfl, rfl⟩
    | error => exact ⟨rfl, rfl⟩

/-- Every step that acts on a decision still good keeps backlogs armed. -/
theorem Armed.step {s s' : SendSys} {e : SendEvent} (h : Armed s) (hok : s.Fresh e) (hs : s.step e = some s') : Armed s' := by
  cases e with
  | send data out now =>
    simp only [SendSys.step] at hs
    split at hs <;> rename_i htick hclient <;> cases hs
    · intro hq
      obtain ⟨hqueue, hconn⟩ := beginSend_frame hclient data out now
      rw [hqueue] at hq
      have harmed := h.epollOut hq (not_arming htick (by simp) (by simp))
      exact Or.inl (hconn.trans harmed)
    · exact h
  | enqueue =>
    simp only [SendSys.step] at hs
    split at hs
    · -- behind a backlog: nothing arms after this step, so it must be armed already
      rename_i data cs htick hclient
      cases hs
      intro _
      left
      have hbacklog : s.AtBacklog = true := by
        unfold SendSys.AtBacklog
        rw [htick]
      rcases hok hbacklog with hq | harmed
      · exact h.epollOut hq (not_arming htick (by simp) (by simp))
      · exact harmed
    · rename_i data refused cs htick hclient
      cases hs
      intro _
      right
      cases refused with
      | false => exact Or.inr rfl
      | true => exact Or.inl rfl
    · cases hs
  | limit =>
    simp only [SendSys.step] at hs
    split at hs <;> rename_i htick hclient <;> cases hs
    intro hq
    exact Or.inl (h.epollOut hq (not_arming htick (by simp) (by simp)))
  | arm =>
    simp only [SendSys.step] at hs
    split at hs <;> rename_i htick hclient <;> cases hs
    intro _
    exact Or.inl rfl
  | drop =>
    simp only [SendSys.step] at hs
    split at hs <;> rename_i htick <;> cases hs
    intro hq
    exact absurd rfl hq
  | flush outs =>
    simp only [SendSys.step] at hs
    split at hs
    · rename_i cs haccept hclient
      cases hs
      intro hq
      have hconn := (ClientSendAux.flushQueue_frame cs s.conn outs).2.1
      have hold : s.queue ≠ [] := by
        intro hnil
        simp only [SendSys.queue, hclient] at hnil
        apply hq
        simp only [SendSys.queue, ClientState.flushQueue]
        rw [hnil]
        exact hnil
      rcases h hold with harmed | harming
      · exact Or.inl (hconn.trans harmed)
      · exact Or.inr harming
    · cases hs
      exact h
    · cases hs
  | disarm =>
    simp only [SendSys.step] at hs
    split at hs <;> rename_i haccept <;> cases hs
    intro hq
    rcases hok with hempty | harming
    · exact absurd hempty hq
    · exact Or.inr harming

end WakeupAux

open WakeupAux

/-- In every run in which the disarming and the `enqueue` behind a backlog find the decision they act on still good, a client with a
backlog has `EPOLLOUT` armed in every state in which neither operation is in progress. -/
theorem wakeup_of_fresh (fd : Fd) (peerAddr : String) (now : Int64) (es : List SendEvent) (s : SendSys)
    (hfresh : Run.Along SendSys.step SendSys.Fresh (SendSys.init fd peerAddr now) es)
    (h : Run.exec SendSys.step (SendSys.init fd peerAddr now) es = some s) (hq : s.Quiescent) (hp : s.queue ≠ []) :
    s.conn.epollOut = true := by
  have harmed : Armed s :=
    Run.exec_invariant_along (fun _ _ _ hi hok hs => hi.step hok hs) (fun hne => absurd rfl hne) hfresh h
  exact harmed.epollOut hp (not_arming hq.1 (by simp) (by simp))

namespace WakeupAux

/-- A message is refused and queued, flushed and disarmed; then a message is sent in part, and one is put behind it. -/
def backlogRun : List SendEvent :=
  [.send [1, 2] .again 1, .enqueue, .arm, .flush (fun _ => .accept 7), .disarm, .send [3, 4] (.accept 0) 2, .enqueue, .arm,
    .send [5, 6] .again 3, .enqueue, .limit]

/-- A message is refused, queued and armed. The flush sends it; before `EPOLLOUT` is disarmed, the next message is refused, queued
and armed. -/
def lostRun : List SendEvent :=
  [.send [1, 2] .again 1, .enqueue, .arm, .flush (fun _ => .accept 7), .send [3, 4] .again 2, .enqueue, .arm, .disarm]

end WakeupAux

/-- The run `backlogRun` meets the hypotheses of `wakeup_of_fresh`. -/
theorem wakeup_of_fresh_backlogRun :
    ∃ s, Run.exec SendSys.step (SendSys.init 5 "10.0.0.1:4000" 0) backlogRun = some s ∧ s.queue = [[4], [5, 6]] ∧
      s.conn.epollOut = true := by
  have hrun : ∃ s, Run.exec SendSys.step (SendSys.init 5 "10.0.0.1:4000" 0) backlogRun = some s ∧ s.queue = [[4], [5, 6]] ∧
      s.Quiescent ∧ s.queue ≠ [] := by decide +kernel
  obtain ⟨s, hrun, hqueue, hquiescent, hne⟩ := hrun
  exact ⟨s, hrun, hqueue, wakeup_of_fresh 5 "10.0.0.1:4000" 0 backlogRun s (by decide +kernel) hrun hquiescent hne⟩

/-- The run `lostRun` ends with no operation in progress, a message queued, and `EPOLLOUT` not armed. -/
theorem lost_wakeup :
    ∃ s, Run.exec SendSys.step (SendSys.init 5 "10.0.0.1:4000" 0) lostRun = some s ∧ s.Quiescent ∧ s.queue = [[3, 4]] ∧
      s.conn.epollOut = false := by decide +kernel

end MarketFeed
