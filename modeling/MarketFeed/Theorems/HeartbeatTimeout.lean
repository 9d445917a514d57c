import MarketFeed.Heartbeat

/-!
# Heartbeat timeouts

The check of `network_loop` reads the clock before it loads the stamp. A callback that reads the clock and stores in between leaves
a stamp ahead of the check's reading; the unsigned difference is then close to `2 ^ 64` and counts as a timeout. Without such a
callback a timeout means that more than thirty seconds have passed.
-/

namespace MarketFeed

namespace HeartbeatAux

/-- What the network thread has read of the clock. -/
def NetworkOk (s : HeartbeatSys) : Prop :=
  match s.network with
  | .idle => True
  | .refreshing => True
  | .storing t => t ≤ s.clock
  | .clockRead now => now ≤ s.clock ∧ s.lastRecvNs ≤ now
  | .loaded now last => last ≤ now

/-- What the parse thread has read of the clock. -/
def ParseOk (s : HeartbeatSys) : Prop :=
  match s.parse with
  | .idle => True
  | .storing t => t ≤ s.clock

/-- No stamp is ahead of the clock, none that the check may load is ahead of its reading, and the timeouts are real ones. -/
structure ClockInv (s : HeartbeatSys) : Prop where
  lastRecvNs : s.lastRecvNs ≤ s.clock
  network : NetworkOk s
  parse : ParseOk s
  timeouts : ∀ d ∈ s.timeouts, d.last ≤ d.now ∧ d.now.toNat - d.last.toNat > 30 * 10 ^ 9

theorem ClockInv.init : ClockInv HeartbeatSys.init :=
  ⟨UInt64.le_refl _, trivial, trivial, fun _ hd => absurd hd List.not_mem_nil⟩

/-- A difference over the timeout, when it does not wrap. -/
theorem timeout_real {now last : UInt64} (hle : last ≤ now) (h : now - last > heartbeatTimeoutNs) :
    now.toNat - last.toNat > 30 * 10 ^ 9 := by
  have hsub := UInt64.toNat_sub_of_le now last hle
  have hlt := UInt64.lt_iff_toNat_lt.mp h
  rw [hsub] at hlt
  exact hlt

/-- Time passes. -/
theorem ClockInv.advance {s : HeartbeatSys} (h : ClockInv s) {t : UInt64} (ht : s.clock ≤ t) :
    ClockInv { s with clock := t } := by
  refine ⟨UInt64.le_trans h.lastRecvNs ht, ?_, ?_, h.timeouts⟩
  · have hn := h.network
    unfold NetworkOk at hn ⊢
    dsimp only
    split
    · trivial
    · trivial
    · rename_i hpc
      rw [hpc] at hn
      exact UInt64.le_trans hn ht
    · rename_i hpc
      rw [hpc] at hn
      exact ⟨UInt64.le_trans hn.1 ht, hn.2⟩
    · rename_i hpc
      rw [hpc] at hn
      exact hn
  · have hp := h.parse
    unfold ParseOk at hp ⊢
    dsimp only
    split
    · trivial
    · rename_i hpc
      rw [hpc] at hp
      exact UInt64.le_trans hp ht

/-- The callback's store, when it does not overtake the check. -/
theorem ClockInv.callbackStore {s : HeartbeatSys} (h : ClockInv s) (hok : s.NotOvertaken .callbackStore) {t : UInt64}
    (hpc : s.parse = .storing t) : ClockInv { s with lastRecvNs := t, parse := .idle } := by
  have ht := h.parse
  unfold ParseOk at ht
  rw [hpc] at ht
  refine ⟨ht, ?_, trivial, h.timeouts⟩
  have hn := h.network
  unfold NetworkOk at hn ⊢
  dsimp only
  split
  · trivial
  · trivial
  · rename_i hnet
    rw [hnet] at hn
    exact hn
  · rename_i now hnet
    rw [hnet] at hn
    refine ⟨hn.1, ?_⟩
    unfold HeartbeatSys.NotOvertaken HeartbeatSys.overtakes at hok
    rw [hnet, hpc] at hok
    exact UInt64.not_lt.mp (of_decide_eq_false hok)
  · rename_i hnet
    rw [hnet] at hn
    exact hn

/-- Every step that does not overtake the check keeps the invariant. -/
theorem ClockInv.step {s s' : HeartbeatSys} {e : HeartbeatEvent} (h : ClockInv s) (hok : s.NotOvertaken e)
    (hs : s.step e = some s') : ClockInv s' := by
  have hn := h.network
  unfold NetworkOk at hn
  cases e with
  | advance t =>
    simp only [HeartbeatSys.step] at hs
    split at hs <;> rename_i ht <;> cases hs
    exact h.advance ht
  | connect =>
    simp only [HeartbeatSys.step] at hs
    split at hs <;> cases hs
    exact ⟨h.lastRecvNs, trivial, h.parse, h.timeouts⟩
  | disconnect =>
    simp only [HeartbeatSys.step] at hs
    split at hs <;> rename_i hpc <;> cases hs
    exact ⟨h.lastRecvNs, h.network, h.parse, h.timeouts⟩
  | receive =>
    simp only [HeartbeatSys.step] at hs
    split at hs <;> cases hs
    exact ⟨h.lastRecvNs, trivial, h.parse, h.timeouts⟩
  | networkClock =>
    simp only [HeartbeatSys.step] at hs
    split at hs <;> cases hs
    exact ⟨h.lastRecvNs, UInt64.le_refl _, h.parse, h.timeouts⟩
  | networkStore =>
    simp only [HeartbeatSys.step] at hs
    split at hs <;> rename_i hpc <;> cases hs
    rw [hpc] at hn
    exact ⟨hn, trivial, h.parse, h.timeouts⟩
  | check =>
    simp only [HeartbeatSys.step] at hs
    split at hs <;> cases hs
    exact ⟨h.lastRecvNs, ⟨UInt64.le_refl _, h.lastRecvNs⟩, h.parse, h.timeouts⟩
  | load =>
    simp only [HeartbeatSys.step] at hs
    split at hs <;> rename_i hpc <;> cases hs
    rw [hpc] at hn
    exact ⟨h.lastRecvNs, hn.2, h.parse, h.timeouts⟩
  | compare =>
    simp only [HeartbeatSys.step] at hs
    split at hs
    · rename_i now last hpc
      rw [hpc] at hn
      split at hs <;> rename_i hover <;> cases hs
      · refine ⟨h.lastRecvNs, trivial, h.parse, fun d hd => ?_⟩
        rcases List.mem_append.mp hd with hold | hnew
        · exact h.timeouts d hold
        · rw [List.mem_singleton.mp hnew]
          exact ⟨hn, timeout_real hn hover.2⟩
      · exact ⟨h.lastRecvNs, trivial, h.parse, h.timeouts⟩
    · cases hs
  | callbackClock =>
    simp only [HeartbeatSys.step] at hs
    split at hs <;> cases hs
    exact ⟨h.lastRecvNs, h.network, UInt64.le_refl _, h.timeouts⟩
  | callbackStore =>
    simp only [HeartbeatSys.step] at hs
    split at hs <;> rename_i hpc <;> cases hs
    exact h.callbackStore hok hpc

end HeartbeatAux

open HeartbeatAux

/-- In every run in which no callback stores, between the check's reading of the clock and its load, a later reading than the
check's, every timeout is called with a stamp more than thirty seconds before the check's reading. -/
theorem timeout_of_notOvertaken (es : List HeartbeatEvent) (s : HeartbeatSys)
    (hok : Run.Along HeartbeatSys.step HeartbeatSys.NotOvertaken HeartbeatSys.init es)
    (h : Run.exec HeartbeatSys.step HeartbeatSys.init es = some s) (d : Timeout) (hd : d ∈ s.timeouts) :
    d.last ≤ d.now ∧ d.now.toNat - d.last.toNat > 30 * 10 ^ 9 := by
  have hinv : ClockInv s := Run.exec_invariant_along (fun _ _ _ hi hok hs => hi.step hok hs) ClockInv.init hok h
  exact hinv.timeouts d hd

namespace HeartbeatAux

/-- A message right after the connect, then silence for more than thirty seconds. -/
def silentRun : List HeartbeatEvent :=
  [.advance 1000, .connect, .networkClock, .networkStore, .advance 2000, .receive, .networkClock, .callbackClock, .networkStore,
    .check, .callbackStore, .load, .compare, .advance 30000002001, .check, .load, .compare]

/-- The check reads the clock at 2000; the callback reads 2001 and stores it before the check loads. -/
def overtakenRun : List HeartbeatEvent :=
  [.advance 1000, .connect, .networkClock, .networkStore, .advance 2000, .receive, .networkClock, .networkStore, .check,
    .advance 2001, .callbackClock, .callbackStore, .load, .compare]

end HeartbeatAux

/-- The run `silentRun` meets the hypotheses of `timeout_of_notOvertaken`. -/
theorem timeout_of_notOvertaken_silentRun :
    ∃ s, Run.exec HeartbeatSys.step HeartbeatSys.init silentRun = some s ∧ ⟨30000002001, 2000⟩ ∈ s.timeouts ∧
      (30000002001 : UInt64).toNat - (2000 : UInt64).toNat > 30 * 10 ^ 9 := by
  have hrun : ∃ s, Run.exec HeartbeatSys.step HeartbeatSys.init silentRun = some s ∧ ⟨30000002001, 2000⟩ ∈ s.timeouts := by
    decide +kernel
  obtain ⟨s, hrun, hd⟩ := hrun
  exact ⟨s, hrun, hd, (timeout_of_notOvertaken silentRun s (by decide +kernel) hrun _ hd).2⟩

/-- The run `overtakenRun` ends in a timeout one nanosecond before the stamp it is measured from. -/
theorem spurious_timeout :
    ∃ s, Run.exec HeartbeatSys.step HeartbeatSys.init overtakenRun = some s ∧ s.timeouts = [⟨2000, 2001⟩] ∧
      ¬(2001 : UInt64) ≤ 2000 := by decide +kernel

end MarketFeed
