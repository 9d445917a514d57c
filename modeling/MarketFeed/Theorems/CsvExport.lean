import MarketFeed.LatencyTracker
import MarketFeed.Lib.KeySums

/-!
# The exported histogram

The rows of `export_csv` have the ranges of their buckets, which are next to each other. The last bucket takes every sample above its
lower edge, while its row ends at twice that edge, so the file is right about a sample as long as it is below that.
-/

namespace MarketFeed

/-- The rows tell the truth about the samples: their ranges are not empty, disjoint and increasing, their counts add up to the number
of samples, and each sample that a row counts is in its range. -/
structure TellsTruth (rows : List CsvRow) (xs : List UInt64) : Prop where
  nonempty : ∀ r ∈ rows, r.lowerNs < r.upperNs
  increasing : rows.Pairwise fun r s => r.upperNs ≤ s.lowerNs
  counts : (rows.map fun r => r.count.toNat).sum = xs.length
  range : ∀ r ∈ rows, ∀ x ∈ xs, bucketFor x = r.bucketIdx → r.lowerNs ≤ x ∧ x < r.upperNs

namespace CsvExportAux

open LatencyTrackerAux

/-- The upper edge of the row of a bucket. -/
def upperNat (i : Nat) : Nat := if i + 1 < numBuckets then edgeNat (i + 1) else 5249536

/-- What a row says of its bucket. -/
theorem csvRow_eq_some {k : LatencyTracker} {i : Fin numBuckets} {r : CsvRow} (h : k.csvRow i = some r) :
    k.buckets i ≠ 0 ∧ r.bucketIdx = i ∧ r.lowerNs.toNat = edgeNat i ∧ r.upperNs.toNat = upperNat i ∧ r.count = k.buckets i := by
  have hi := i.isLt
  unfold LatencyTracker.csvRow at h
  dsimp only at h
  split at h <;> rename_i hcnt
  · cases h
  · cases h
    refine ⟨hcnt, rfl, bucketToNs_toNat hi.le, ?_, rfl⟩
    unfold upperNat
    by_cases hlast : i.val + 1 < numBuckets
    · dsimp only
      rw [if_pos hlast, if_pos hlast]
      exact bucketToNs_toNat hlast.le
    · have h607 : i.val = 607 := by
        unfold numBuckets at hi hlast
        omega
      dsimp only
      rw [if_neg hlast, if_neg hlast, h607]
      decide

theorem edgeNat_lt_upperNat {i : Nat} (hi : i < numBuckets) : edgeNat i < upperNat i := by
  have hedge := edgeNat_cases i
  have hnext := edgeNat_cases (i + 1)
  unfold numBuckets at hi
  unfold upperNat numBuckets
  split_ifs <;> omega

theorem upperNat_le_edgeNat {i j : Nat} (hij : i < j) (hj : j < numBuckets) : upperNat i ≤ edgeNat j := by
  unfold upperNat
  rw [if_pos (by omega)]
  exact edgeNat_mono hij

theorem upperNat_le {i : Nat} (hi : i < numBuckets) : upperNat i ≤ 5249536 := by
  have hnext := edgeNat_cases (i + 1)
  unfold numBuckets at hi
  unfold upperNat numBuckets
  split_ifs <;> omega

/-- A bucket with samples has a row. -/
theorem csvRow_of_ne_zero {k : LatencyTracker} {i : Fin numBuckets} (h : k.buckets i ≠ 0) : ∃ r, k.csvRow i = some r := by
  unfold LatencyTracker.csvRow
  dsimp only
  rw [if_neg h]
  exact ⟨_, rfl⟩

/-- The bucket of a sample. -/
theorem exists_bucket {x : UInt64} (h : x < 10000000) : ∃ i : Fin numBuckets, bucketFor x = i ∧ InBucket i x :=
  ⟨⟨bucketNat x.toNat, bucketNat_lt _⟩, bucketFor_eq h, (inBucket_iff h _).mpr rfl⟩

theorem ofNat_ne_zero {n : Nat} (hpos : 0 < n) (hlt : n < 2 ^ 64) : UInt64.ofNat n ≠ 0 := by
  intro hzero
  have hnat := congrArg UInt64.toNat hzero
  rw [UInt64.toNat_ofNat_of_lt' hlt, UInt64.toNat_zero] at hnat
  omega

/-- A sample is within its bucket, in the last one if it is below the edge that the row gives. -/
theorem sample_range {x : UInt64} (h : x < 5249536) :
    edgeNat (bucketNat x.toNat) ≤ x.toNat ∧ x.toNat < upperNat (bucketNat x.toNat) := by
  have hlt : x.toNat < 5249536 := UInt64.lt_iff_toNat_lt.mp h
  refine ⟨edgeNat_bucketNat_le _, ?_⟩
  unfold upperNat
  split <;> rename_i hlast
  · exact bucketNat_locates.lt_next _ hlast
  · exact hlt

/-- The ranges of the rows are next to each other or apart. -/
theorem csvRows_increasing (k : LatencyTracker) : k.csvRows.Pairwise fun r s => r.upperNs ≤ s.lowerNs := by
  unfold LatencyTracker.csvRows
  rw [List.pairwise_filterMap]
  refine (List.pairwise_lt_finRange numBuckets).imp ?_
  intro i j hij r hr s hs
  obtain ⟨-, -, -, hupper, -⟩ := csvRow_eq_some hr
  obtain ⟨-, -, hlower, -, -⟩ := csvRow_eq_some hs
  rw [UInt64.le_iff_toNat_le, hupper, hlower]
  exact upperNat_le_edgeNat hij j.isLt

/-- The counts of the rows are those of the buckets. -/
theorem csvRows_counts (k : LatencyTracker) :
    (k.csvRows.map fun r => r.count.toNat).sum = ((List.finRange numBuckets).map fun i => (k.buckets i).toNat).sum := by
  unfold LatencyTracker.csvRows
  induction List.finRange numBuckets with
  | nil => rfl
  | cons i is ih =>
    rw [List.filterMap_cons, List.map_cons, List.sum_cons]
    cases hrow : k.csvRow i with
    | none =>
      have hzero : k.buckets i = 0 := by
        unfold LatencyTracker.csvRow at hrow
        by_contra hne
        simp [hne] at hrow
      dsimp only
      rw [ih, hzero, UInt64.toNat_zero, Nat.zero_add]
    | some r =>
      obtain ⟨-, -, -, -, hcount⟩ := csvRow_eq_some hrow
      dsimp only
      rw [List.map_cons, List.sum_cons, ih, hcount]

/-- Each sample is in one bucket. -/
theorem sum_countP {xs : List UInt64} (hsmall : ∀ x ∈ xs, x < 10000000) :
    ((List.finRange numBuckets).map fun b => xs.countP fun x => InBucket b x).sum = xs.length := by
  induction xs with
  | nil => simp
  | cons x xs ih =>
    have hx := inBucket_iff (hsmall x List.mem_cons_self)
    rw [List.length_cons, ← ih fun y hy => hsmall y (List.mem_cons_of_mem x hy)]
    refine KeySums.sum_of_add (k := ⟨bucketNat x.toNat, bucketNat_lt _⟩) (List.nodup_finRange _) (List.mem_finRange _) ?_ ?_
    · rw [List.countP_cons_of_pos (by rw [decide_eq_true_iff, hx])]
    · intro b _ hb
      rw [List.countP_cons_of_neg]
      rw [decide_eq_true_iff, hx]
      exact fun hb' => hb (Fin.ext hb'.symm)

/-- A sum of remainders is the sum of the numbers when none of them is reduced, and not otherwise. -/
theorem sum_mod_eq_iff {ι : Type} (is : List ι) (f : ι → Nat) (m : Nat) (hm : 0 < m) :
    (is.map fun i => f i % m).sum = (is.map f).sum ↔ ∀ i ∈ is, f i < m := by
  induction is with
  | nil => simp
  | cons i is ih =>
    have hle : ∀ js : List ι, (js.map fun j => f j % m).sum ≤ (js.map f).sum :=
      fun js => List.sum_le_sum (fun j _ => Nat.mod_le _ _)
    have hhead := Nat.mod_le (f i) m
    have hrest := hle is
    have hiff : f i % m = f i ↔ f i < m := Nat.mod_eq_iff_lt (by omega)
    rw [List.map_cons, List.map_cons, List.sum_cons, List.sum_cons, List.forall_mem_cons, ← ih, ← hiff]
    omega

/-- The counts of the rows add up when no bucket has wrapped. -/
theorem csvRows_counts_iff {k : LatencyTracker} {xs : List UInt64} (hk : k.Holds xs) (hxs : ∀ x ∈ xs, x < 10000000) :
    (k.csvRows.map fun r => r.count.toNat).sum = xs.length ↔ ∀ b, (xs.countP fun x => InBucket b x) < 2 ^ 64 := by
  have hbuckets : ((List.finRange numBuckets).map fun b => (k.buckets b).toNat) =
      (List.finRange numBuckets).map fun b => (xs.countP fun x => InBucket b x) % 2 ^ 64 := by
    refine List.map_congr_left (fun b _ => ?_)
    rw [hk.buckets, UInt64.toNat_ofNat']
  rw [csvRows_counts, hbuckets, ← sum_countP hxs, sum_mod_eq_iff _ _ _ (by decide)]
  simp

end CsvExportAux

open CsvExportAux LatencyTrackerAux

/-- After any run of calls with samples that `Parser::process` lets through, the rows that `export_csv` writes tell the truth about the
samples since the last reset exactly when all of these are below 5249536 and no bucket has counted 2^64 of them or more. -/
theorem csvRows_tellsTruth_iff (es : List TrackerCall) (hsmall : ∀ ns, .record ns ∈ es → ns < 10000000) (k : LatencyTracker)
    (h : Run.exec LatencyTracker.call .fresh es = some k) :
    TellsTruth k.csvRows (sinceReset es) ↔
      (∀ x ∈ sinceReset es, x < 5249536) ∧ ∀ b, ((sinceReset es).countP fun x => InBucket b x) < 2 ^ 64 := by
  obtain ⟨k', hrun, hk⟩ := holds_calls holds_fresh hsmall
  rw [h] at hrun
  cases hrun
  have hxs := sinceReset_small hsmall
  change k.Holds (sinceReset es) at hk
  generalize sinceReset es = xs at hk hxs ⊢
  have hcounts := csvRows_counts_iff hk hxs
  constructor
  · intro htruth
    have hlt := hcounts.mp htruth.counts
    refine ⟨fun x hx => ?_, hlt⟩
    obtain ⟨i, hidx, hi⟩ := exists_bucket (hxs x hx)
    have hcount : k.buckets i ≠ 0 := by
      have hpos : 0 < xs.countP fun y => InBucket i y := List.countP_pos_iff.mpr ⟨x, hx, decide_eq_true hi⟩
      rw [hk.buckets]
      exact ofNat_ne_zero hpos (hlt i)
    obtain ⟨r, hr⟩ := csvRow_of_ne_zero hcount
    obtain ⟨-, hbucket, -, hupper, -⟩ := csvRow_eq_some hr
    have hrange := (htruth.range r (List.mem_filterMap.mpr ⟨i, List.mem_finRange i, hr⟩) x hx (by rw [hidx, hbucket])).2
    refine UInt64.lt_of_lt_of_le hrange ?_
    rw [UInt64.le_iff_toNat_le, hupper]
    exact upperNat_le i.isLt
  · rintro ⟨hxlt, hlt⟩
    refine ⟨?_, csvRows_increasing k, hcounts.mpr hlt, ?_⟩
    · intro r hr
      obtain ⟨i, -, hi⟩ := List.mem_filterMap.mp hr
      obtain ⟨-, -, hlower, hupper, -⟩ := csvRow_eq_some hi
      rw [UInt64.lt_iff_toNat_lt, hlower, hupper]
      exact edgeNat_lt_upperNat i.isLt
    · intro r hr x hx hidx
      obtain ⟨i, -, hi⟩ := List.mem_filterMap.mp hr
      obtain ⟨-, hbucket, hlower, hupper, -⟩ := csvRow_eq_some hi
      obtain ⟨hge, hbelow⟩ := sample_range (hxlt x hx)
      rw [bucketFor_eq (hxs x hx), hbucket] at hidx
      have hsame : bucketNat x.toNat = i := by exact_mod_cast hidx
      rw [hsame] at hge hbelow
      rw [UInt64.le_iff_toNat_le, UInt64.lt_iff_toNat_lt, hlower, hupper]
      exact ⟨hge, hbelow⟩

/-- A sample before a reset does not matter; the three after it are in two rows. -/
theorem csvRows_tellsTruth_threeSamples :
    ∃ k, Run.exec LatencyTracker.call .fresh [.record 9000000, .reset, .record 100, .record 70, .record 101] = some k ∧
      k.csvRows = [⟨64, 64, 72, 1⟩, ⟨68, 96, 104, 2⟩] ∧ TellsTruth k.csvRows [100, 70, 101] := by
  have hrun : ∃ k, Run.exec LatencyTracker.call .fresh [.record 9000000, .reset, .record 100, .record 70, .record 101] = some k ∧
      k.csvRows = [⟨64, 64, 72, 1⟩, ⟨68, 96, 104, 2⟩] := by decide +kernel
  have hsmall : ∀ ns, TrackerCall.record ns ∈ [.record 9000000, .reset, .record 100, .record 70, .record 101] → ns < 10000000 := by
    intro ns hns
    simp only [List.mem_cons, TrackerCall.record.injEq, reduceCtorEq, List.not_mem_nil, or_false, false_or] at hns
    rcases hns with rfl | rfl | rfl | rfl <;> decide
  obtain ⟨k, hrun, hrows⟩ := hrun
  have hiff := csvRows_tellsTruth_iff _ hsmall k hrun
  have hbelow : ∀ x ∈ sinceReset [.record 9000000, .reset, .record 100, .record 70, .record 101], x < 5249536 := by
    change ∀ x ∈ [100, 70, 101], x < (5249536 : UInt64)
    intro x hx
    simp only [List.mem_cons, List.not_mem_nil, or_false] at hx
    rcases hx with rfl | rfl | rfl <;> decide
  exact ⟨k, hrun, hrows, hiff.mpr ⟨hbelow, fun b => List.countP_le_length.trans_lt (by decide)⟩⟩

/-- A sample of 9 ms is counted in the row from 2624768 to 5249536. -/
theorem csvRows_overflow :
    ∃ k, Run.exec LatencyTracker.call .fresh [.record 9000000] = some k ∧ k.csvRows = [⟨607, 2624768, 5249536, 1⟩] ∧
      ¬TellsTruth k.csvRows [9000000] := by
  have hrun : ∃ k, Run.exec LatencyTracker.call .fresh [.record 9000000] = some k ∧
      k.csvRows = [⟨607, 2624768, 5249536, 1⟩] := by decide +kernel
  obtain ⟨k, hrun, hrows⟩ := hrun
  refine ⟨k, hrun, hrows, fun htruth => ?_⟩
  rw [hrows] at htruth
  have hrange := htruth.range _ List.mem_cons_self 9000000 List.mem_cons_self (by decide)
  exact absurd hrange.2 (by decide)

end MarketFeed
