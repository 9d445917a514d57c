import MarketFeed.LatencyTracker
import MarketFeed.Lib.Rank

/-!
# The reported percentiles are order statistics, up to the bucket

The scan stops at the first bucket up to which enough samples are counted, and that is the bucket of the order statistic: a bucket is
reached when at least `⌈q n⌉` samples are in the buckets up to it, since `bucket_for` never decreases.
-/

namespace MarketFeed

open LatencyTrackerAux Rank

/-- The reported value of a percentile is the lower edge of the bucket of the order statistic, and below the last bucket it is off by
less than the width of that bucket. -/
def ReportsPercentile (xs : List UInt64) (q : ℚ) (v : UInt64) : Prop :=
  ∃ x, nthSmallest xs ⌈q * xs.length⌉₊ = some x ∧ v = bucketToNs (bucketFor x) ∧
    (x < 2624768 → v ≤ x ∧ x - v < bucketToNs (bucketFor x + 1) - bucketToNs (bucketFor x))

namespace PercentilesAux

/-! ## Cumulative counts -/

/-- The number of samples in the buckets before bucket `i`. -/
def before (xs : List UInt64) (i : Nat) : Nat := xs.countP fun x => bucketNat x.toNat < i

theorem before_succ (xs : List UInt64) (i : Nat) : before xs (i + 1) = before xs i + xs.countP fun x => bucketNat x.toNat = i := by
  unfold before
  induction xs with
  | nil => rfl
  | cons x xs ih =>
    simp only [List.countP_cons, decide_eq_true_eq] at ih ⊢
    split_ifs <;> omega

theorem before_le (xs : List UInt64) (i : Nat) : before xs i ≤ xs.length := List.countP_le_length

/-- The order statistic is in one of the buckets up to `j` exactly when enough samples are. -/
theorem le_before_iff {xs : List UInt64} {n : Nat} {q : ℚ} (hq : 0 < q) {x : UInt64} (hpos : 0 < n)
    (hx : nthSmallest xs ⌈q * n⌉₊ = some x) (j : Nat) : q * n ≤ (before xs (j + 1) : ℚ) ↔ bucketNat x.toNat ≤ j := by
  have hrank : 0 < ⌈q * n⌉₊ := by
    rw [Nat.ceil_pos]
    exact mul_pos hq (Nat.cast_pos.mpr hpos)
  have hdown : ∀ a b : UInt64, a ≤ b → decide (bucketNat b.toNat < j + 1) → decide (bucketNat a.toNat < j + 1) := by
    intro a b hab hb
    simp only [decide_eq_true_eq] at hb ⊢
    exact (bucketNat_mono (UInt64.le_iff_toNat_le.mp hab)).trans_lt hb
  have hiff := nthSmallest_iff_le_countP hdown hrank hx
  rw [decide_eq_true_eq, Nat.ceil_le, Nat.lt_succ_iff] at hiff
  exact hiff.symm

/-! ## The scan -/

/-- The inner loop settles the targets that are reached; with the targets in order the others are not. -/
theorem settle_spec (acc n : UInt64) (i : Nat) {qs : List ℚ} (hsorted : qs.Pairwise (· ≤ ·)) :
    ∃ taken left, qs = taken ++ left ∧ LatencyTracker.settle acc n i qs = (taken.map fun _ => bucketToNs i, left) ∧
      (∀ q ∈ taken, q * n.toNat ≤ (acc.toNat : ℚ)) ∧ ∀ q ∈ left, ¬ q * n.toNat ≤ (acc.toNat : ℚ) := by
  induction qs with
  | nil => exact ⟨[], [], rfl, rfl, nofun, nofun⟩
  | cons q qs ih =>
    obtain ⟨hle, hsorted⟩ := List.pairwise_cons.mp hsorted
    unfold LatencyTracker.settle
    by_cases hq : (acc.toNat : ℚ) ≥ q * n.toNat
    · obtain ⟨taken, left, rfl, hsettle, htaken, hleft⟩ := ih hsorted
      refine ⟨q :: taken, left, rfl, ?_, ?_, hleft⟩
      · rw [if_pos hq, hsettle]
        rfl
      · rintro q' (- | ⟨_, hq'⟩)
        · exact hq
        · exact htaken q' hq'
    · refine ⟨[], q :: qs, rfl, if_neg hq, nofun, ?_⟩
      rintro q' (- | ⟨_, hq'⟩) hreached
      · exact hq hreached
      · exact hq ((mul_le_mul_of_nonneg_right (hle q' hq') (Nat.cast_nonneg _)).trans hreached)

/-- The scan from bucket `i` on, with the buckets before it counted: each target gets the bucket `f q` at which it is reached. -/
theorem scanBuckets_eq {xs : List UInt64} (hlen : xs.length < 2 ^ 64) {f : ℚ → Nat} {n maxNs : UInt64} :
    ∀ (counts : List UInt64) (i : Nat) (qs : List ℚ), qs.Pairwise (· ≤ ·) →
      (∀ m (hm : m < counts.length), counts[m] = UInt64.ofNat (xs.countP fun x => bucketNat x.toNat = i + m)) →
      (∀ q ∈ qs, ∀ j, q * n.toNat ≤ (before xs (j + 1) : ℚ) ↔ f q ≤ j) → (∀ q ∈ qs, i ≤ f q) →
      (∀ q ∈ qs, f q < i + counts.length) →
      LatencyTracker.scanBuckets n maxNs i counts (UInt64.ofNat (before xs i)) qs = qs.map fun q => bucketToNs (f q) := by
  intro counts
  induction counts with
  | nil =>
    intro i qs _ _ _ hlo hhi
    unfold LatencyTracker.scanBuckets
    refine List.map_congr_left fun q hq => absurd (hhi q hq) ?_
    exact Nat.not_lt.mpr (hlo q hq)
  | cons c counts ih =>
    intro i qs hsorted hcounts hf hlo hhi
    unfold LatencyTracker.scanBuckets
    split
    · rename_i hqs
      rw [hqs]
      rfl
    · have hc : c = UInt64.ofNat (xs.countP fun x => bucketNat x.toNat = i) := hcounts 0 (Nat.zero_lt_succ _)
      have hacc : UInt64.ofNat (before xs i) + c = UInt64.ofNat (before xs (i + 1)) := by
        rw [hc, ← UInt64.ofNat_add, before_succ]
      have haccNat : (UInt64.ofNat (before xs (i + 1))).toNat = before xs (i + 1) :=
        UInt64.toNat_ofNat_of_lt' ((before_le xs (i + 1)).trans_lt hlen)
      obtain ⟨taken, left, rfl, hsettle, htaken, hleft⟩ := settle_spec (UInt64.ofNat (before xs (i + 1))) n i hsorted
      rw [haccNat] at htaken hleft
      dsimp only
      rw [hacc, hsettle, List.map_append]
      congr 1
      · -- the targets reached here were not reached before
        refine List.map_congr_left fun q hq => ?_
        have hmem : q ∈ taken ++ left := List.mem_append_left left hq
        rw [Nat.le_antisymm (hlo q hmem) ((hf q hmem i).mp (htaken q hq))]
      · refine ih (i + 1) left (List.pairwise_append.mp hsorted).2.1 ?_ ?_ ?_ ?_
        · intro m hm
          have hnext := hcounts (m + 1) (Nat.succ_lt_succ hm)
          rw [List.getElem_cons_succ] at hnext
          rw [hnext, Nat.add_right_comm, Nat.add_assoc]
        · exact fun q hq => hf q (List.mem_append_right taken hq)
        · intro q hq
          have hnot := mt (hf q (List.mem_append_right taken hq) i).mpr (hleft q hq)
          omega
        · intro q hq
          have hlt := hhi q (List.mem_append_right taken hq)
          rw [List.length_cons] at hlt
          omega

/-! ## The percentiles of a tracker -/

theorem pctTargets_sorted : LatencyTracker.pctTargets.Pairwise (· ≤ ·) := by
  unfold LatencyTracker.pctTargets
  norm_num

theorem pctTargets_pos {q : ℚ} (hq : q ∈ LatencyTracker.pctTargets) : 0 < q ∧ q ≤ 1 := by
  unfold LatencyTracker.pctTargets at hq
  simp only [List.mem_cons, List.not_mem_nil, or_false] at hq
  rcases hq with rfl | rfl | rfl | rfl <;> norm_num

/-- Each target has its order statistic. -/
theorem exists_rank {xs : List UInt64} {n : Nat} (hpos : 0 < n) (hle : n ≤ xs.length) {q : ℚ} (hq : q ∈ LatencyTracker.pctTargets) :
    ∃ x, nthSmallest xs ⌈q * n⌉₊ = some x := by
  obtain ⟨hq0, hq1⟩ := pctTargets_pos hq
  have hn : (0 : ℚ) < n := Nat.cast_pos.mpr hpos
  refine exists_nthSmallest (Nat.ceil_pos.mpr (mul_pos hq0 hn)) (Nat.ceil_le.mpr ?_)
  exact (mul_le_of_le_one_left hn.le hq1).trans (Nat.cast_le.mpr hle)

/-- The order statistic of a target. -/
def rank (xs : List UInt64) (q : ℚ) : UInt64 := (nthSmallest xs ⌈q * xs.length⌉₊).getD 0

theorem nthSmallest_rank {xs : List UInt64} (hpos : 0 < xs.length) {q : ℚ} (hq : q ∈ LatencyTracker.pctTargets) :
    nthSmallest xs ⌈q * xs.length⌉₊ = some (rank xs q) := by
  obtain ⟨x, hx⟩ := exists_rank hpos (Nat.le_refl _) hq
  unfold rank
  rw [hx]
  rfl

/-- The scan of a tracker that holds the samples. -/
theorem scanBuckets_holds {k : LatencyTracker} {xs : List UInt64} (hk : k.Holds xs) (hsmall : ∀ x ∈ xs, x < 10000000)
    (hpos : 0 < xs.length) (hlen : xs.length < 2 ^ 64) :
    LatencyTracker.scanBuckets k.sampleCount k.maxNs 0 (List.ofFn k.buckets) 0 LatencyTracker.pctTargets =
      LatencyTracker.pctTargets.map fun q => bucketToNs (bucketFor (rank xs q)) := by
  have hcount : k.sampleCount.toNat = xs.length := by
    rw [hk.sampleCount, UInt64.toNat_ofNat_of_lt' hlen]
  have hstart : (0 : UInt64) = UInt64.ofNat (before xs 0) := by
    have hzero : before xs 0 = 0 := List.countP_eq_zero.mpr fun x _ => by simp
    rw [hzero]
    rfl
  have hbuckets : ∀ m (hm : m < (List.ofFn k.buckets).length),
      (List.ofFn k.buckets)[m] = UInt64.ofNat (xs.countP fun x => bucketNat x.toNat = 0 + m) := by
    intro m hm
    rw [List.getElem_ofFn, hk.buckets, Nat.zero_add]
    congr 1
    refine List.countP_congr fun x hx => ?_
    rw [decide_eq_true_eq, decide_eq_true_eq]
    exact inBucket_iff (hsmall x hx) _
  have hfound := fun q (hq : q ∈ LatencyTracker.pctTargets) => nthSmallest_rank hpos hq
  rw [hstart, scanBuckets_eq hlen (f := fun q => bucketNat (rank xs q).toNat) _ 0 _ pctTargets_sorted hbuckets]
  · refine List.map_congr_left fun q hq => ?_
    rw [bucketFor_eq (hsmall _ (nthSmallest_mem (hfound q hq)))]
  · rw [hcount]
    exact fun q hq => le_before_iff (pctTargets_pos hq).1 hpos (hfound q hq)
  · exact fun _ _ => Nat.zero_le _
  · intro q _
    rw [List.length_ofFn, Nat.zero_add]
    exact bucketNat_lt _

/-! ## Edges -/

theorem bucketToNs_le {x : UInt64} (h : x < 10000000) : bucketToNs (bucketFor x) ≤ x := by
  rw [UInt64.le_iff_toNat_le, bucketFor_eq h, bucketToNs_toNat (bucketNat_lt _).le]
  exact edgeNat_bucketNat_le _

theorem bucketToNs_mono {x y : UInt64} (hy : y < 10000000) (hxy : x ≤ y) : bucketToNs (bucketFor x) ≤ bucketToNs (bucketFor y) := by
  have hx : x < 10000000 := UInt64.lt_of_le_of_lt hxy hy
  rw [UInt64.le_iff_toNat_le, bucketFor_eq hx, bucketFor_eq hy, bucketToNs_toNat (bucketNat_lt _).le,
    bucketToNs_toNat (bucketNat_lt _).le]
  exact edgeNat_mono (bucketNat_mono (UInt64.le_iff_toNat_le.mp hxy))

/-- Below the last bucket a sample is less than the width of its bucket above the lower edge. -/
theorem sub_bucketToNs_lt {x : UInt64} (h : x < 2624768) :
    x - bucketToNs (bucketFor x) < bucketToNs (bucketFor x + 1) - bucketToNs (bucketFor x) := by
  have hnat : x.toNat < 2624768 := UInt64.lt_iff_toNat_lt.mp h
  have hx : x < 10000000 := UInt64.lt_trans h (by decide)
  have hlo := edgeNat_bucketNat_le x.toNat
  have hhi := lt_edgeNat_bucketNat hnat
  have hnext : ((bucketNat x.toNat : Int) + 1) = ((bucketNat x.toNat + 1 : Nat) : Int) := by push_cast; rfl
  have hedge := bucketToNs_toNat (bucketNat_lt x.toNat).le
  have hedge' := bucketToNs_toNat (bucketNat_lt x.toNat)
  rw [bucketFor_eq hx, hnext, UInt64.lt_iff_toNat_lt, UInt64.toNat_sub_of_le, UInt64.toNat_sub_of_le, hedge]
  · refine Nat.sub_lt_sub_right hlo ?_
    rw [hedge']
    exact hhi
  · rw [UInt64.le_iff_toNat_le, hedge, hedge']
    exact edgeNat_mono (Nat.le_succ _)
  · rw [UInt64.le_iff_toNat_le, hedge]
    exact hlo

theorem reportsPercentile {xs : List UInt64} (hsmall : ∀ x ∈ xs, x < 10000000) (hpos : 0 < xs.length) {q : ℚ}
    (hq : q ∈ LatencyTracker.pctTargets) : ReportsPercentile xs q (bucketToNs (bucketFor (rank xs q))) := by
  have hx := nthSmallest_rank hpos hq
  refine ⟨_, hx, rfl, fun hlast => ⟨?_, sub_bucketToNs_lt hlast⟩⟩
  exact bucketToNs_le (hsmall _ (nthSmallest_mem hx))

/-- The reported percentiles are in the order of their targets. -/
theorem rank_mono {xs : List UInt64} (hsmall : ∀ x ∈ xs, x < 10000000) (hpos : 0 < xs.length) {q r : ℚ}
    (hq : q ∈ LatencyTracker.pctTargets) (hr : r ∈ LatencyTracker.pctTargets) (hqr : q ≤ r) :
    bucketToNs (bucketFor (rank xs q)) ≤ bucketToNs (bucketFor (rank xs r)) := by
  have hy := nthSmallest_rank hpos hr
  refine bucketToNs_mono (hsmall _ (nthSmallest_mem hy)) (nthSmallest_mono (Nat.ceil_mono ?_) (nthSmallest_rank hpos hq) hy)
  exact mul_le_mul_of_nonneg_right hqr (Nat.cast_nonneg _)

/-- What `get_stats` reports of a tracker that holds samples. -/
theorem getStats_holds {k : LatencyTracker} {xs : List UInt64} (hk : k.Holds xs) (hsmall : ∀ x ∈ xs, x < 10000000)
    (hpos : 0 < xs.length) (hlen : xs.length < 2 ^ 64) :
    k.getStats =
      { sampleCount := k.sampleCount
        minNs := k.minNs
        maxNs := k.maxNs
        meanNs := k.totalNs / k.sampleCount
        p50Ns := bucketToNs (bucketFor (rank xs (50 / 100)))
        p95Ns := bucketToNs (bucketFor (rank xs (95 / 100)))
        p99Ns := bucketToNs (bucketFor (rank xs (99 / 100)))
        p999Ns := bucketToNs (bucketFor (rank xs (999 / 1000))) } := by
  have hcount : k.sampleCount ≠ 0 := by
    intro hzero
    have hnat : k.sampleCount.toNat = xs.length := by
      rw [hk.sampleCount, UInt64.toNat_ofNat_of_lt' hlen]
    rw [hzero, UInt64.toNat_zero] at hnat
    omega
  unfold LatencyTracker.getStats
  rw [if_neg hcount, scanBuckets_holds hk hsmall hpos hlen]
  rfl

end PercentilesAux

open PercentilesAux

/-- After any run of calls that leaves at least one sample, and fewer than 2^64 of them, since the last reset, each percentile is the
lower edge of the bucket of its order statistic, and they are in order, with the maximum last. -/
theorem getStats_percentiles (es : List TrackerCall) (hsmall : ∀ ns, .record ns ∈ es → ns < 10000000)
    (hpos : 0 < (sinceReset es).length) (hlen : (sinceReset es).length < 2 ^ 64) :
    ∃ k, Run.exec LatencyTracker.call .fresh es = some k ∧
      ReportsPercentile (sinceReset es) (50 / 100) k.getStats.p50Ns ∧
      ReportsPercentile (sinceReset es) (95 / 100) k.getStats.p95Ns ∧
      ReportsPercentile (sinceReset es) (99 / 100) k.getStats.p99Ns ∧
      ReportsPercentile (sinceReset es) (999 / 1000) k.getStats.p999Ns ∧
      k.getStats.p50Ns ≤ k.getStats.p95Ns ∧ k.getStats.p95Ns ≤ k.getStats.p99Ns ∧ k.getStats.p99Ns ≤ k.getStats.p999Ns ∧
      k.getStats.p999Ns ≤ k.getStats.maxNs := by
  obtain ⟨k, hrun, hk⟩ := holds_calls holds_fresh hsmall
  have hxs := sinceReset_small hsmall
  have hreports := fun q (hq : q ∈ LatencyTracker.pctTargets) => reportsPercentile hxs hpos hq
  have hmono := fun q r (hq : q ∈ LatencyTracker.pctTargets) (hr : r ∈ LatencyTracker.pctTargets) => rank_mono hxs hpos hq hr
  have h50 : (50 / 100 : ℚ) ∈ LatencyTracker.pctTargets := List.mem_cons_self
  have h95 : (95 / 100 : ℚ) ∈ LatencyTracker.pctTargets := List.mem_cons_of_mem _ List.mem_cons_self
  have h99 : (99 / 100 : ℚ) ∈ LatencyTracker.pctTargets := List.mem_cons_of_mem _ (List.mem_cons_of_mem _ List.mem_cons_self)
  have h999 : (999 / 1000 : ℚ) ∈ LatencyTracker.pctTargets :=
    List.mem_cons_of_mem _ (List.mem_cons_of_mem _ (List.mem_cons_of_mem _ List.mem_cons_self))
  refine ⟨k, hrun, ?_⟩
  rw [getStats_holds hk hxs hpos hlen]
  refine ⟨hreports _ h50, hreports _ h95, hreports _ h99, hreports _ h999, hmono _ _ h50 h95 (by norm_num),
    hmono _ _ h95 h99 (by norm_num), hmono _ _ h99 h999 (by norm_num), ?_⟩
  have hmem := nthSmallest_mem (nthSmallest_rank hpos h999)
  exact UInt64.le_trans (bucketToNs_le (hxs _ hmem)) (hk.le_maxNs _ hmem)

/-- Three samples after a reset; the middle one is the median. -/
theorem getStats_percentiles_threeSamples :
    ∃ k, Run.exec LatencyTracker.call .fresh [.record 7, .reset, .record 5000, .record 30, .record 1000] = some k ∧
      ReportsPercentile [5000, 30, 1000] (50 / 100) k.getStats.p50Ns := by
  obtain ⟨k, hrun, hp50, -⟩ := getStats_percentiles [.record 7, .reset, .record 5000, .record 30, .record 1000]
    (by simp) (by decide) (by decide)
  exact ⟨k, hrun, hp50⟩

namespace PercentilesAux

theorem sinceReset_replicate (n : Nat) (ns : UInt64) : sinceReset (List.replicate n (.record ns)) = List.replicate n ns := by
  induction n with
  | zero => rfl
  | succ n ih =>
    unfold sinceReset at ih ⊢
    rw [List.replicate_succ', List.foldl_append, ih, List.replicate_succ']
    rfl

/-- With a multiple of 2^64 samples of 1 ns the count is 0, and `get_stats` reports 0 where all samples are in the bucket of 1. -/
theorem not_reportsPercentile_replicate {n : Nat} (hn : n % 2 ^ 64 = 0) :
    ∃ k, Run.exec LatencyTracker.call .fresh (List.replicate n (.record 1)) = some k ∧
      ¬ ReportsPercentile (sinceReset (List.replicate n (.record 1))) (50 / 100) k.getStats.p50Ns := by
  have hsmall : ∀ ns, TrackerCall.record ns ∈ List.replicate n (TrackerCall.record 1) → ns < 10000000 := fun ns hns => by
    cases List.eq_of_mem_replicate hns
    decide
  obtain ⟨k, hrun, hk⟩ := holds_calls holds_fresh hsmall
  refine ⟨k, hrun, ?_⟩
  have hxs : sinceReset (List.replicate n (.record 1)) = List.replicate n 1 := sinceReset_replicate n 1
  have hcount : k.sampleCount = 0 := by
    have hmod := hk.sampleCount
    rw [← sinceReset, hxs, List.length_replicate] at hmod
    rw [hmod, ← UInt64.toNat_inj, UInt64.toNat_ofNat', hn]
    rfl
  have hstats : k.getStats.p50Ns = 0 := by
    unfold LatencyTracker.getStats
    rw [if_pos hcount]
  rw [hxs, hstats]
  rintro ⟨x, hx, hedge, -⟩
  have hone : x = 1 := List.eq_of_mem_replicate (nthSmallest_mem hx)
  subst hone
  exact absurd hedge (by decide)

end PercentilesAux

/-- 2^64 samples of 1 ns: the count has come back to 0. -/
theorem getStats_wrapped :
    ∃ k, Run.exec LatencyTracker.call .fresh (List.replicate (2 ^ 64) (.record 1)) = some k ∧
      ¬ ReportsPercentile (sinceReset (List.replicate (2 ^ 64) (.record 1))) (50 / 100) k.getStats.p50Ns :=
  not_reportsPercentile_replicate (Nat.mod_self _)

end MarketFeed
