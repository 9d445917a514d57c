import MarketFeed.Lemmas.TrackerInv

/-!
# Reset of a tracker in use

A call of `record` that is under way during a reset may update some fields before they are cleared and others after it. From then on
the fields describe different samples. So long as no call is on both sides of a reset, and nothing overflows, the fields agree in every
state in which nobody is in a call, also after resets that came between the updates of a call.
-/

namespace MarketFeed

/-- The buckets add up to the number of samples, and the mean is between the minimum and the maximum. -/
def LatencyTracker.Consistent (k : LatencyTracker) : Prop :=
  ∑ b, (k.buckets b).toNat = k.sampleCount.toNat ∧
    (0 < k.sampleCount → k.minNs ≤ k.totalNs / k.sampleCount ∧ k.totalNs / k.sampleCount ≤ k.maxNs)

/-- With the sample that `record` is called with, neither the number nor the sum of those counted since the last reset of its bucket
overflows. -/
def TrackerSys.Fits {n : Nat} (s : TrackerSys n) : TrackerEvent n → Prop
  | .record _ ns =>
    ∀ b ∈ bucketSlot (bucketFor ns),
      (s.samplesAt (s.cleared (.counter (.bucket b)))).length + 1 < 2 ^ 64 ∧
        ((s.samplesAt (s.cleared (.counter (.bucket b)))).map UInt64.toNat).sum + ns.toNat < 2 ^ 64
  | _ => True

instance {n : Nat} (s : TrackerSys n) : ∀ e, Decidable (s.Fits e)
  | .record _ ns => Option.decidableForallMem (bucketSlot (bucketFor ns))
  | .access _ _ => isTrue trivial
  | .reset => isTrue trivial

namespace TrackerResetAux

open LatencyTrackerAux TrackerInvAux

variable {n : Nat}

/-! ## Overflow -/

/-- Neither the number nor the sum of the samples overflows. -/
def Bounded (s : TrackerSys n) : Prop :=
  ∀ r, (s.samplesAt r).length < 2 ^ 64 ∧ ((s.samplesAt r).map UInt64.toNat).sum < 2 ^ 64

theorem Bounded.step {s s' : TrackerSys n} (h : Bounded s) {e : TrackerEvent n} (hfits : s.Fits e) (hs : s.step e = some s') :
    Bounded s' := by
  cases e with
  | record i ns =>
    simp only [TrackerSys.step, TrackerSys.recordStep] at hs
    split at hs
    · obtain ⟨b, hb, rfl⟩ := Option.map_eq_some_iff.mp hs
      intro r
      change ((started s i b ns).samplesAt r).length < _ ∧ (((started s i b ns).samplesAt r).map UInt64.toNat).sum < _
      rw [samplesAt_started]
      split_ifs with hr
      · subst hr
        rw [List.length_append, List.map_append, List.sum_append, List.map_singleton, List.sum_singleton]
        exact hfits b hb
      · rw [List.append_nil]
        exact h r
    · cases hs
  | access i spurious =>
    obtain ⟨k, pc, rfl⟩ := accessStep_eq_advance hs
    exact h
  | reset =>
    cases hs
    unfold Bounded TrackerSys.samplesAt
    rw [resetStep_recorded]
    exact h

/-! ## What follows of samples without overflow -/

/-- Every sample is in one bucket. -/
theorem sum_countP_inBucket {xs : List UInt64} (hsmall : ∀ x ∈ xs, x < 10000000) :
    ∑ b, (xs.countP fun x => InBucket b x) = xs.length := by
  induction xs with
  | nil => exact Finset.sum_eq_zero fun _ _ => rfl
  | cons x xs ih =>
    have hone : ∑ b, (if InBucket b x then 1 else 0) = 1 := by
      have hx := hsmall x List.mem_cons_self
      simp only [InBucket, bucketSlot_eq hx, Option.some_inj, Finset.sum_ite_eq, Finset.mem_univ, if_true]
    simp only [List.countP_cons, decide_eq_true_eq, Finset.sum_add_distrib]
    rw [ih fun y hy => hsmall y (List.mem_cons_of_mem x hy), hone, List.length_cons]

/-- The mean of samples is between their bounds. -/
theorem mean_between {xs : List UInt64} {lo hi : UInt64} (hpos : 0 < xs.length) (hlo : ∀ x ∈ xs, lo ≤ x) (hhi : ∀ x ∈ xs, x ≤ hi) :
    lo.toNat ≤ (xs.map UInt64.toNat).sum / xs.length ∧ (xs.map UInt64.toNat).sum / xs.length ≤ hi.toNat := by
  have hge : (xs.map UInt64.toNat).length • lo.toNat ≤ (xs.map UInt64.toNat).sum := by
    refine List.card_nsmul_le_sum _ _ fun y hy => ?_
    obtain ⟨x, hx, rfl⟩ := List.mem_map.mp hy
    exact UInt64.le_iff_toNat_le.mp (hlo x hx)
  have hle : (xs.map UInt64.toNat).sum ≤ (xs.map UInt64.toNat).length • hi.toNat := by
    refine List.sum_le_card_nsmul _ _ fun y hy => ?_
    obtain ⟨x, hx, rfl⟩ := List.mem_map.mp hy
    exact UInt64.le_iff_toNat_le.mp (hhi x hx)
  rw [List.length_map, smul_eq_mul] at hge hle
  exact ⟨(Nat.le_div_iff_mul_le hpos).mpr (Nat.mul_comm _ _ ▸ hge), Nat.div_le_of_le_mul hle⟩

/-- With nobody in a call the fields agree. -/
theorem consistent_of_inv {s : TrackerSys n} (hinv : TrackerInv s) (hbounded : Bounded s) (hq : s.Quiescent)
    (hsmall : ∀ x ∈ s.samplesAt s.resets, x < 10000000) : s.tracker.Consistent := by
  obtain ⟨hlen, hsum⟩ := hbounded s.resets
  have hbucket : ∀ b, (s.tracker.buckets b).toNat = (s.samplesAt s.resets).countP fun x => InBucket b x := fun b => by
    have hb : s.tracker.buckets b = UInt64.ofNat (made s (.bucket b) s.resets) := hinv.counter_eq hq (.bucket b)
    rw [hb, made_bucket]
    exact UInt64.toNat_ofNat_of_lt' (List.countP_le_length.trans_lt hlen)
  have htotal : s.tracker.totalNs.toNat = ((s.samplesAt s.resets).map UInt64.toNat).sum := by
    have ht : s.tracker.totalNs = UInt64.ofNat (made s .total s.resets) := hinv.counter_eq hq .total
    rw [ht]
    exact UInt64.toNat_ofNat_of_lt' hsum
  have hcount : s.tracker.sampleCount.toNat = (s.samplesAt s.resets).length := by
    have hc : s.tracker.sampleCount = UInt64.ofNat (made s .count s.resets) := hinv.counter_eq hq .count
    rw [hc, made_count]
    exact UInt64.toNat_ofNat_of_lt' hlen
  refine ⟨?_, fun hpos => ?_⟩
  · rw [Finset.sum_congr rfl fun b _ => hbucket b, sum_countP_inBucket hsmall, hcount]
  · rw [UInt64.lt_iff_toNat_lt, UInt64.toNat_zero, hcount] at hpos
    have hmean := mean_between hpos (fun x hx => UInt64.not_lt.mp (hinv.not_beats hq .min x hx))
      fun x hx => UInt64.not_lt.mp (hinv.not_beats hq .max x hx)
    rw [UInt64.le_iff_toNat_le, UInt64.le_iff_toNat_le, UInt64.toNat_div, htotal, hcount]
    exact hmean

end TrackerResetAux

open TrackerInvAux TrackerResetAux

/-- In every run of any number of recording threads and a resetting one in which no call of `record` is on both sides of a reset and
nothing overflows, the fields of the tracker agree whenever nobody is in a call. -/
theorem consistent_of_oneSide (n : Nat) (es : List (TrackerEvent n)) (s : TrackerSys n)
    (hrun : Run.exec TrackerSys.step (.init n) es = some s) (hsmall : ∀ ns ∈ TrackerSys.samplesOf es, ns < 10000000)
    (hok : Run.Along TrackerSys.step (fun s e => s.OneSide e ∧ s.Fits e) (.init n) es) (hq : s.Quiescent) : s.tracker.Consistent := by
  have hstep : ∀ (s : TrackerSys n) (e : TrackerEvent n) (s' : TrackerSys n), (TrackerInv s ∧ Bounded s) →
      (s.OneSide e ∧ s.Fits e) → s.step e = some s' → TrackerInv s' ∧ Bounded s' := by
    rintro s e s' ⟨hinv, hbounded⟩ ⟨hside, hfits⟩ hs
    exact ⟨hinv.step hside hs, hbounded.step hfits hs⟩
  have hinit : Bounded (TrackerSys.init n) := fun _ => ⟨Nat.two_pow_pos 64, Nat.two_pow_pos 64⟩
  obtain ⟨hinv, hbounded⟩ := Run.exec_invariant_along hstep ⟨TrackerInv.init n, hinit⟩ hok hrun
  refine consistent_of_inv hinv hbounded hq fun x hx => ?_
  obtain ⟨p, hp, rfl⟩ := List.mem_map.mp hx
  have hmem : p.2 ∈ s.recorded.map (·.2) := List.mem_map_of_mem (List.mem_filter.mp hp).1
  rw [recorded_exec hrun] at hmem
  exact hsmall p.2 hmem

namespace TrackerResetAux

/-- A call that makes all its updates before the reset that it overlaps with, and one behind it. -/
def overlappingRun : List (TrackerEvent 1) :=
  .record 0 5 :: List.replicate 100 .reset ++ List.replicate 6 (.access 0 false) ++ List.replicate 512 .reset ++
    .record 0 7 :: List.replicate 6 (.access 0 false)

end TrackerResetAux

/-- The run `overlappingRun`. -/
theorem consistent_of_oneSide_overlappingRun :
    ∃ s, Run.exec TrackerSys.step (.init 1) overlappingRun = some s ∧ s.Quiescent ∧ s.tracker.sampleCount = 1 ∧
      s.tracker.Consistent := by
  have hrun : ∃ s, Run.exec TrackerSys.step (.init 1) overlappingRun = some s ∧ (s.stores = 0 ∧ ∀ i, s.pcs i = .idle) ∧
      s.tracker.sampleCount = 1 := by decide +kernel
  have hok : Run.Along TrackerSys.step (fun s e => s.OneSide e ∧ s.Fits e) (.init 1) overlappingRun := by decide +kernel
  have hsamples : TrackerSys.samplesOf overlappingRun = [5, 7] := by decide +kernel
  have hsmall : ∀ ns ∈ TrackerSys.samplesOf overlappingRun, ns < 10000000 := by
    rw [hsamples]
    simp
  obtain ⟨s, hrun, hq, hcount⟩ := hrun
  exact ⟨s, hrun, hq, hcount, consistent_of_oneSide 1 overlappingRun s hrun hsmall hok hq⟩

namespace TrackerResetAux

/-- A whole `reset` behind the first update of a call. -/
def overtakenRun : List (TrackerEvent 1) :=
  .record 0 5 :: List.replicate numStores .reset ++ List.replicate 6 (.access 0 false)

/-- The tracker in the middle of that run, behind the reset. -/
def overtaken : TrackerSys 1 :=
  { TrackerSys.init 1 with pcs := fun _ => .addTotal 5, resets := 1, recorded := [(0, 5)] }

theorem exec_overtaken : Run.exec TrackerSys.step (.init 1) (.record 0 5 :: List.replicate numStores .reset) = some overtaken := by
  have hstart : (TrackerSys.init 1).step (.record 0 5) = some (started (.init 1) 0 ⟨5, by decide⟩ 5) := rfl
  refine Run.exec_cons_eq_some.mpr ⟨_, hstart, (exec_reset rfl).trans ?_⟩
  have hpcs : (started (.init 1) 0 ⟨5, by decide⟩ 5).pcs = fun _ => .addTotal 5 := by decide
  have hcalls : (started (.init 1) 0 ⟨5, by decide⟩ 5).callResets = fun _ => 0 := by decide
  rw [hpcs, hcalls]
  rfl

end TrackerResetAux

/-- After the run `overtakenRun` the tracker counts one sample and no bucket has any. -/
theorem inconsistent_overtakenRun :
    ∃ s, Run.exec TrackerSys.step (.init 1) overtakenRun = some s ∧ s.Quiescent ∧ ¬ s.tracker.Consistent := by
  have hrest : ∃ s, Run.exec TrackerSys.step overtaken (List.replicate 6 (.access 0 false)) = some s ∧
      (s.stores = 0 ∧ ∀ i, s.pcs i = .idle) ∧ s.tracker.sampleCount = 1 ∧ ∀ b, s.tracker.buckets b = 0 := by decide +kernel
  obtain ⟨s, hrest, hq, hcount, hbuckets⟩ := hrest
  refine ⟨s, (Run.exec_append exec_overtaken).trans hrest, hq, fun hconsistent => ?_⟩
  have hsum := hconsistent.1
  rw [hcount, Finset.sum_eq_zero fun b _ => by rw [hbuckets b]; rfl] at hsum
  exact absurd hsum (by decide)

end MarketFeed
