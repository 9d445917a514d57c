import MarketFeed.Lemmas.TrackerInv

/-!
# Concurrent recording loses nothing

With no reset every field is on the same side of every reset, so the invariant of the tracker holds after every interleaving. When all
threads are out of `record` nothing is owed any more.
-/

namespace MarketFeed

namespace ConcurrentRecordAux

open LatencyTrackerAux LatencyThreadsAux TrackerInvAux

variable {n : Nat}

/-! ## Where the minimum and the maximum come from -/

/-- What threads still have to compare, and the minimum and maximum unless they are as in a new tracker, are samples counted. -/
structure FromSamples (s : TrackerSys n) : Prop where
  pending : ∀ i f x, pending (s.pcs i) f = some x → x ∈ s.recorded.map (·.2)
  extreme : ∀ e, s.tracker.extreme e = LatencyTracker.fresh.extreme e ∨ s.tracker.extreme e ∈ s.recorded.map (·.2)

/-- In a new tracker the minimum and the maximum are the initial ones. -/
theorem FromSamples.init (n : Nat) : FromSamples (TrackerSys.init n) where
  pending := nofun
  extreme := fun _ => .inl rfl

/-- A thread goes on with nothing new pending. -/
theorem FromSamples.advance {s : TrackerSys n} (h : FromSamples s) {i : Fin n} {k : LatencyTracker} {pc : RecordPc}
    (hpc : ∀ f x, TrackerInvAux.pending pc f = some x → TrackerInvAux.pending (s.pcs i) f = some x)
    (hk : ∀ e, k.extreme e = s.tracker.extreme e ∨ TrackerInvAux.pending (s.pcs i) (.extreme e) = some (k.extreme e)) :
    FromSamples (s.advance i k pc) where
  pending := fun j f x hx => by
    rcases eq_or_ne j i with rfl | hne
    · rw [advance_pcs_self] at hx
      exact h.pending j f x (hpc f x hx)
    · rw [advance_pcs_of_ne _ hne] at hx
      exact h.pending j f x hx
  extreme := fun e => by
    change k.extreme e = _ ∨ k.extreme e ∈ _
    rcases hk e with hsame | hpend
    · rw [hsame]
      exact h.extreme e
    · exact .inr (h.pending i _ _ hpend)

/-- Inside the loop and behind it nothing new is pending. -/
theorem pending_of_inLoop {e : Extreme} {ns : UInt64} {pc pc' : RecordPc} (h : InLoop e ns pc)
    (h' : InLoop e ns pc' ∨ pc' = .afterLoop e ns) {f : TrackerField} {x : UInt64} (hx : pending pc' f = some x) :
    pending pc f = some x := by
  rcases f with c | e'
  · rcases h' with h' | rfl
    · rw [h'.pending_counter] at hx
      cases hx
    · rw [pending_afterLoop_counter] at hx
      cases hx
  · rcases eq_or_ne e' e with rfl | hne
    · rcases h' with h' | rfl
      · rw [h.pending_self, ← h'.pending_self, hx]
      · cases e' <;> cases hx
    · rw [← h.pending_other h' hne, hx]

/-- After a comparison the thread is in the loop or behind it. -/
theorem compare_inLoop (e : Extreme) (ns cur : UInt64) :
    InLoop e ns (.compare e ns cur) ∨ RecordPc.compare e ns cur = .afterLoop e ns := by
  by_cases hbeats : e.Beats ns cur
  · exact .inl (InLoop.compare hbeats)
  · exact .inr (if_neg hbeats)

/-- An access stores no value but the sample of its call. -/
theorem FromSamples.accessStep {s s' : TrackerSys n} (h : FromSamples s) {i : Fin n} {spurious : Bool}
    (hs : s.accessStep i spurious = some s') : FromSamples s' := by
  unfold TrackerSys.accessStep at hs
  cases hpc : s.pcs i with
  | idle =>
    rw [hpc] at hs
    cases hs
  | addTotal ns =>
    rw [hpc] at hs
    cases hs
    refine h.advance ?_ fun e => ?_
    · rintro ((b | - | -) | e) x hx <;> first | cases hx; done | exact hpc ▸ hx
    · exact .inl (by cases e <;> rfl)
  | addCount ns =>
    rw [hpc] at hs
    cases hs
    refine h.advance ?_ fun e => ?_
    · rintro ((b | - | -) | e) x hx <;> first | cases hx; done | exact hpc ▸ hx
    · exact .inl (by cases e <;> rfl)
  | load e ns =>
    rw [hpc] at hs
    cases hs
    have hloop : InLoop e ns (s.pcs i) := hpc ▸ .inl rfl
    exact h.advance (fun f x => pending_of_inLoop hloop (compare_inLoop e ns _)) fun _ => .inl rfl
  | exchange e ns cur =>
    rw [hpc] at hs
    have hloop : InLoop e ns (s.pcs i) := hpc ▸ .inr ⟨cur, rfl⟩
    dsimp only at hs
    split at hs
    · cases hs
      refine h.advance (fun f x => pending_of_inLoop hloop (.inr rfl)) fun e' => ?_
      rcases eq_or_ne e' e with rfl | hne
      · rw [extreme_setExtreme]
        exact .inr hloop.pending_self
      · exact .inl (extreme_setExtreme_of_ne _ hne _)
    · cases hs
      exact h.advance (fun f x => pending_of_inLoop hloop (compare_inLoop e ns _)) fun _ => .inl rfl

/-- The call of `record` counts its sample. -/
theorem FromSamples.recordStep {s s' : TrackerSys n} (h : FromSamples s) {i : Fin n} {ns : UInt64}
    (hs : s.recordStep i ns = some s') : FromSamples s' := by
  unfold TrackerSys.recordStep at hs
  split at hs
  · obtain ⟨b, -, rfl⟩ := Option.map_eq_some_iff.mp hs
    have hmem : ∀ x, x ∈ s.recorded.map (·.2) → x ∈ (started s i b ns).recorded.map (·.2) := fun x hx => by
      unfold started
      rw [List.map_append]
      exact List.mem_append_left _ hx
    have hnew : ns ∈ (started s i b ns).recorded.map (·.2) := by
      unfold started
      rw [List.map_append]
      exact List.mem_append_right _ List.mem_cons_self
    refine ⟨fun j f x hx => ?_, fun e => ?_⟩
    · rcases eq_or_ne j i with rfl | hne
      · rw [advance_pcs_self] at hx
        have hx' : x = ns := by rcases f with (b' | - | -) | e <;> cases hx <;> rfl
        rw [hx']
        exact hnew
      · rw [advance_pcs_of_ne _ hne] at hx
        exact hmem x (h.pending j f x hx)
    · have hsame : (s.tracker.addToBucket b).extreme e = s.tracker.extreme e := by cases e <;> rfl
      change (s.tracker.addToBucket b).extreme e = _ ∨ (s.tracker.addToBucket b).extreme e ∈ _
      rw [hsame]
      rcases h.extreme e with hstart | hx
      · exact .inl hstart
      · exact .inr (hmem _ hx)
  · cases hs

/-- Every step but one of `reset` keeps it. -/
theorem FromSamples.step {s s' : TrackerSys n} (h : FromSamples s) {e : TrackerEvent n} (he : e ≠ .reset) (hs : s.step e = some s') :
    FromSamples s' := by
  cases e with
  | record i ns => exact h.recordStep hs
  | access i spurious => exact h.accessStep hs
  | reset => exact absurd rfl he

/-! ## Runs without a reset -/

/-- Nothing has been reset. -/
structure NoReset (s : TrackerSys n) : Prop where
  stores : s.stores = 0
  resets : s.resets = 0
  calls : ∀ i, s.callResets i = 0
  recorded : ∀ p ∈ s.recorded, p.1 = 0

/-- No field has been cleared. -/
theorem NoReset.cleared {s : TrackerSys n} (h : NoReset s) (f : TrackerField) : s.cleared f = 0 :=
  (cleared_of_quiescent h.stores f).trans h.resets

/-- So every call is on one side of all resets. -/
theorem NoReset.oneSide {s : TrackerSys n} (h : NoReset s) (e : TrackerEvent n) : s.OneSide e := by
  cases e with
  | record i ns => trivial
  | access i spurious =>
    rintro (c | e) -
    · exact (h.calls i).trans (h.cleared _).symm
    · exact ((h.calls i).trans (h.cleared _).symm).le
  | reset => trivial

/-- Every step but one of `reset` keeps it. -/
theorem NoReset.step {s s' : TrackerSys n} (h : NoReset s) {e : TrackerEvent n} (he : e ≠ .reset) (hs : s.step e = some s') :
    NoReset s' := by
  cases e with
  | record i ns =>
    simp only [TrackerSys.step, TrackerSys.recordStep] at hs
    split at hs
    · obtain ⟨b, -, rfl⟩ := Option.map_eq_some_iff.mp hs
      have hzero := h.cleared (.counter (.bucket b))
      refine ⟨h.stores, h.resets, fun j => ?_, fun p hp => ?_⟩
      · rcases eq_or_ne j i with rfl | hne
        · exact (Function.update_self ..).trans hzero
        · exact (Function.update_of_ne hne ..).trans (h.calls j)
      · rcases List.mem_append.mp hp with hp | hp
        · exact h.recorded p hp
        · rw [List.mem_singleton.mp hp]
          exact hzero
    · cases hs
  | access i spurious =>
    obtain ⟨k, pc, rfl⟩ := accessStep_eq_advance hs
    exact ⟨h.stores, h.resets, h.calls, h.recorded⟩
  | reset => exact absurd rfl he

/-- So all samples count. -/
theorem NoReset.samplesAt {s : TrackerSys n} (h : NoReset s) : s.samplesAt s.resets = s.recorded.map (·.2) := by
  unfold TrackerSys.samplesAt
  rw [List.filter_eq_self.mpr fun p hp => decide_eq_true ((h.recorded p hp).trans h.resets.symm)]

/-- A minimum or maximum that nothing beats is a sample, also where it is the same as in a new tracker. -/
theorem extreme_mem {e : Extreme} {v : UInt64} {xs : List UInt64} (hfrom : v = LatencyTracker.fresh.extreme e ∨ v ∈ xs)
    (hbest : ∀ x ∈ xs, ¬ e.Beats x v) : v ∈ xs ∨ xs = [] ∧ v = LatencyTracker.fresh.extreme e := by
  rcases hfrom with hstart | hmem
  · cases xs with
    | nil => exact .inr ⟨rfl, hstart⟩
    | cons x xs =>
      have hx := hbest x List.mem_cons_self
      have heq : x = v := by
        subst hstart
        cases e with
        | min => exact UInt64.le_antisymm (le_uint64Max x) (UInt64.not_lt.mp hx)
        | max => exact UInt64.le_antisymm (UInt64.not_lt.mp hx) UInt64.zero_le
      exact .inl (heq ▸ List.mem_cons_self)
  · exact .inl hmem

/-- After a run without a reset the tracker holds the samples of its calls. -/
theorem holds_of_noReset {es : List (TrackerEvent n)} {s : TrackerSys n} (hrun : Run.exec TrackerSys.step (.init n) es = some s)
    (hreset : .reset ∉ es) (hidle : ∀ i, s.pcs i = .idle) : s.tracker.Holds (TrackerSys.samplesOf es) := by
  have hstep : ∀ (s : TrackerSys n) (e : TrackerEvent n) (s' : TrackerSys n), (TrackerInv s ∧ FromSamples s ∧ NoReset s) →
      e ≠ .reset → s.step e = some s' → TrackerInv s' ∧ FromSamples s' ∧ NoReset s' := by
    rintro s e s' ⟨hinv, hfrom, hnone⟩ he hs
    exact ⟨hinv.step (hnone.oneSide e) hs, hfrom.step he hs, hnone.step he hs⟩
  have halong : Run.Along TrackerSys.step (fun _ e => e ≠ .reset) (.init n) es := by
    refine Run.along_of_forall (fun e he => ?_) _
    rintro rfl
    exact hreset he
  obtain ⟨hinv, hfrom, hnone⟩ := Run.exec_invariant_along hstep
    ⟨TrackerInv.init n, FromSamples.init n, ⟨rfl, rfl, fun _ => rfl, nofun⟩⟩ halong hrun
  have hq : s.Quiescent := ⟨hnone.stores, hidle⟩
  have hmem : s.recorded.map (·.2) = TrackerSys.samplesOf es := recorded_exec hrun
  have hsamples : s.samplesAt s.resets = TrackerSys.samplesOf es := hnone.samplesAt.trans hmem
  have hcounter := hinv.counter_eq hq
  have hbest := hinv.not_beats hq
  have hextreme := hfrom.extreme
  rw [hsamples] at hbest
  rw [hmem] at hextreme
  refine ⟨fun b => ?_, ?_, ?_, fun x hx => ?_, ?_, fun x hx => ?_, ?_⟩
  · rw [← hsamples, ← made_bucket]
    exact hcounter (.bucket b)
  · rw [← hsamples]
    exact hcounter .total
  · rw [← hsamples, ← made_count]
    exact hcounter .count
  · exact UInt64.not_lt.mp (hbest .min x hx)
  · exact extreme_mem (hextreme .min) (hbest .min)
  · exact UInt64.not_lt.mp (hbest .max x hx)
  · exact extreme_mem (hextreme .max) (hbest .max)

end ConcurrentRecordAux

open ConcurrentRecordAux

/-- Any number of threads, each calling `record` with any samples, in any interleaving and with any failed exchanges: when all calls
have returned and nothing was reset, the counters hold the samples modulo 2^64, exactly when they are fewer than that, and the minimum
and the maximum are those of the samples. -/
theorem concurrent_record (n : Nat) (es : List (TrackerEvent n)) (s : TrackerSys n)
    (hrun : Run.exec TrackerSys.step (.init n) es = some s) (hreset : .reset ∉ es) (hidle : ∀ i, s.pcs i = .idle) :
    s.tracker.Holds (TrackerSys.samplesOf es) ∧
      ((TrackerSys.samplesOf es).length < 2 ^ 64 →
        (∀ b, (s.tracker.buckets b).toNat = (TrackerSys.samplesOf es).countP fun x => InBucket b x) ∧
          s.tracker.sampleCount.toNat = (TrackerSys.samplesOf es).length) := by
  have hholds := holds_of_noReset hrun hreset hidle
  refine ⟨hholds, fun hlen => ⟨fun b => ?_, ?_⟩⟩
  · rw [hholds.buckets b]
    exact UInt64.toNat_ofNat_of_lt' (List.countP_le_length.trans_lt hlen)
  · rw [hholds.sampleCount]
    exact UInt64.toNat_ofNat_of_lt' hlen

namespace ConcurrentRecordAux

/-- Two threads in the loop for the minimum at once: the exchange of the first fails for no reason, then because the second one, with
the smaller sample, was faster. -/
def racingRun : List (TrackerEvent 2) :=
  [.record 0 900, .access 0 false, .access 0 false, .record 1 30, .access 1 false, .access 0 false, .access 0 true, .access 1 false,
    .access 1 false, .access 1 false, .access 0 false, .access 0 false, .access 1 false, .access 0 false, .access 1 false]

end ConcurrentRecordAux

/-- The run `racingRun`. -/
theorem concurrent_record_racingRun :
    ∃ s, Run.exec TrackerSys.step (.init 2) racingRun = some s ∧ (∀ i, s.pcs i = .idle) ∧ s.tracker.minNs = 30 ∧
      s.tracker.maxNs = 900 ∧ s.tracker.Holds [900, 30] := by
  have hrun : ∃ s, Run.exec TrackerSys.step (.init 2) racingRun = some s ∧ (∀ i, s.pcs i = .idle) ∧ s.tracker.minNs = 30 ∧
      s.tracker.maxNs = 900 := by decide +kernel
  obtain ⟨s, hrun, hidle, hmin, hmax⟩ := hrun
  exact ⟨s, hrun, hidle, hmin, hmax, (concurrent_record 2 racingRun s hrun (by decide) hidle).1⟩

namespace ConcurrentRecordAux

open LatencyTrackerAux

/-- One thread can make any calls, one after the other. -/
theorem exists_calls {xs : List UInt64} (hsmall : ∀ x ∈ xs, x < 10000000) (s : TrackerSys 1) (hs : ∀ i, s.pcs i = .idle) :
    ∃ es t, Run.exec TrackerSys.step s es = some t ∧ (∀ i, t.pcs i = .idle) ∧ .reset ∉ es ∧ TrackerSys.samplesOf es = xs := by
  induction xs generalizing s with
  | nil => exact ⟨[], s, rfl, hs, List.not_mem_nil, rfl⟩
  | cons x xs ih =>
    have hrecord : ∃ k, s.tracker.record x = some k := by
      unfold LatencyTracker.record
      rw [bucketSlot_eq (hsmall x List.mem_cons_self)]
      exact ⟨_, rfl⟩
    obtain ⟨k, hk⟩ := hrecord
    obtain ⟨m, t, ht, -, hpcs⟩ := exec_record (hs 0) hk
    obtain ⟨es, u, hu, hidle, hreset, hxs⟩ := ih (fun y hy => hsmall y (List.mem_cons_of_mem x hy)) t fun i => hpcs ▸ hs i
    refine ⟨.record 0 x :: List.replicate m (.access 0 false) ++ es, u, (Run.exec_append ht).trans hu, hidle, ?_, ?_⟩
    · rw [List.mem_append, List.mem_cons]
      rintro ((h | h) | h)
      · cases h
      · cases List.eq_of_mem_replicate h
      · exact hreset h
    · have hcall : TrackerSys.samplesOf (List.replicate m (.access (0 : Fin 1) false)) = [] :=
        List.filterMap_eq_nil_iff.mpr fun e he => by rw [List.eq_of_mem_replicate he]
      have hrest : TrackerSys.samplesOf (List.replicate m (.access (0 : Fin 1) false) ++ es) = xs := by
        unfold TrackerSys.samplesOf at hcall hxs ⊢
        rw [List.filterMap_append, hcall, hxs, List.nil_append]
      exact congrArg (x :: ·) hrest

/-- A multiple of 2^64 samples is counted as none. -/
theorem sampleCount_replicate {m : Nat} (hm : m % 2 ^ 64 = 0) :
    ∃ (es : List (TrackerEvent 1)) (s : TrackerSys 1), Run.exec TrackerSys.step (.init 1) es = some s ∧ .reset ∉ es ∧
      (∀ i, s.pcs i = .idle) ∧ TrackerSys.samplesOf es = List.replicate m 0 ∧ s.tracker.sampleCount = 0 := by
  have hsmall : ∀ x ∈ List.replicate m (0 : UInt64), x < 10000000 := fun x hx => by
    rw [List.eq_of_mem_replicate hx]
    decide
  obtain ⟨es, s, hrun, hidle, hreset, hsamples⟩ := exists_calls hsmall (.init 1) fun _ => rfl
  have hholds := holds_of_noReset hrun hreset hidle
  refine ⟨es, s, hrun, hreset, hidle, hsamples, ?_⟩
  rw [hholds.sampleCount, hsamples, List.length_replicate, ← UInt64.toNat_inj, UInt64.toNat_ofNat', hm]
  rfl

end ConcurrentRecordAux

/-- 2^64 samples of 0 ns by one thread: `sample_count_` is 0. -/
theorem concurrent_record_wrapped :
    ∃ (es : List (TrackerEvent 1)) (s : TrackerSys 1), Run.exec TrackerSys.step (.init 1) es = some s ∧ .reset ∉ es ∧
      (∀ i, s.pcs i = .idle) ∧ TrackerSys.samplesOf es = List.replicate (2 ^ 64) 0 ∧
      s.tracker.sampleCount.toNat ≠ (TrackerSys.samplesOf es).length := by
  obtain ⟨es, s, hrun, hreset, hidle, hsamples, hcount⟩ := sampleCount_replicate (Nat.mod_self (2 ^ 64))
  refine ⟨es, s, hrun, hreset, hidle, hsamples, ?_⟩
  rw [hcount, hsamples, List.length_replicate]
  decide

end MarketFeed
