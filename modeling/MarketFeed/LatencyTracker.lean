import MarketFeed.Lib.Run
import MarketFeed.Lib.Edges

/-!
# The latency tracker

`LatencyTracker` of `src/common/latency_tracker.cpp`, its calls as a whole: a histogram of 608 buckets in six tiers of growing width,
with the sum, the number, the minimum and the maximum of the samples. The calls between several threads are in `LatencyThreads`.

Percentiles compare the accumulated count with a fraction of the sample count in doubles; here the fractions are rational numbers
and the comparison is exact.
-/

namespace MarketFeed

/-- `NUM_BUCKETS`. -/
def numBuckets : Nat := 608

/-- A tier: its entries in `TIER_START_NS`, `TIER_STEP_NS` and `TIER_FIRST_IDX`. -/
structure Tier where
  startNs : UInt64
  stepNs : UInt64
  firstIdx : Int
  deriving DecidableEq, Repr

/-- The tiers, from the last to the first, as the loops go through them. -/
def tiers : List Tier :=
  [⟨560384, 32768, 544⟩, ⟨70144, 4096, 424⟩, ⟨8704, 512, 304⟩, ⟨1024, 64, 184⟩, ⟨64, 8, 64⟩, ⟨0, 1, 0⟩]

/-- The loop of `bucket_for`. The offset is cast to an `int`. -/
def bucketForIn : List Tier → UInt64 → Int
  | [], _ => 0
  | t :: ts, ns =>
    if ns ≥ t.startNs then
      let offset := Int.bmod ((ns - t.startNs) / t.stepNs).toNat (2 ^ 32)
      let idx := t.firstIdx + offset
      if idx ≥ numBuckets then numBuckets - 1 else idx
    else bucketForIn ts ns

/-- `bucket_for`. -/
def bucketFor (ns : UInt64) : Int := bucketForIn tiers ns

/-- The loop of `bucket_to_ns`. -/
def bucketToNsIn : List Tier → Int → UInt64
  | [], _ => 0
  | t :: ts, idx => if idx ≥ t.firstIdx then t.startNs + UInt64.ofInt (idx - t.firstIdx) * t.stepNs else bucketToNsIn ts idx

/-- `bucket_to_ns`. -/
def bucketToNs (idx : Int) : UInt64 := bucketToNsIn tiers idx

/-- The place of an index in `buckets_`, if it has one. -/
def bucketSlot (idx : Int) : Option (Fin numBuckets) :=
  if h : 0 ≤ idx ∧ idx < numBuckets then some ⟨idx.toNat, (Int.toNat_lt h.1).mpr h.2⟩ else none

/-- `std::numeric_limits<uint64_t>::max()`. -/
def uint64Max : UInt64 := 0xFFFFFFFFFFFFFFFF

/-- `LatencyTracker`. -/
@[ext]
structure LatencyTracker where
  buckets : Fin numBuckets → UInt64
  totalNs : UInt64
  sampleCount : UInt64
  minNs : UInt64
  maxNs : UInt64

/-- `LatencyStats`. -/
structure LatencyStats where
  minNs : UInt64 := 0
  maxNs : UInt64 := 0
  meanNs : UInt64 := 0
  p50Ns : UInt64 := 0
  p95Ns : UInt64 := 0
  p99Ns : UInt64 := 0
  p999Ns : UInt64 := 0
  sampleCount : UInt64 := 0
  deriving DecidableEq, Repr

namespace LatencyTracker

/-- A new tracker, and what `reset` makes of any. -/
def fresh : LatencyTracker := { buckets := fun _ => 0, totalNs := 0, sampleCount := 0, minNs := uint64Max, maxNs := 0 }

/-- `buckets_[b].fetch_add(1)`. -/
def addToBucket (k : LatencyTracker) (b : Fin numBuckets) : LatencyTracker :=
  { k with buckets := Function.update k.buckets b (k.buckets b + 1) }

/-- `record`: undefined behaviour for a sample whose index is not one of `buckets_`. -/
def record (k : LatencyTracker) (ns : UInt64) : Option LatencyTracker :=
  (bucketSlot (bucketFor ns)).map fun b =>
    { k.addToBucket b with
      totalNs := k.totalNs + ns
      sampleCount := k.sampleCount + 1
      minNs := if ns < k.minNs then ns else k.minNs
      maxNs := if ns > k.maxNs then ns else k.maxNs }

/-- `reset`. -/
def reset (_ : LatencyTracker) : LatencyTracker := fresh

/-! ## Percentiles -/

/-- `pct_targets`. -/
def pctTargets : List ℚ := [50 / 100, 95 / 100, 99 / 100, 999 / 1000]

/-- The inner loop at bucket `i`: the results of the targets reached, and the targets that are left. -/
def settle (acc sampleCount : UInt64) (i : Nat) : List ℚ → List UInt64 × List ℚ
  | [] => ([], [])
  | q :: qs =>
    if (acc.toNat : ℚ) ≥ q * (sampleCount.toNat : ℚ) then
      let r := settle acc sampleCount i qs
      (bucketToNs i :: r.1, r.2)
    else ([], q :: qs)

/-- The scan over the buckets from bucket `i` on: the results of the targets that are left. Those never reached get the maximum. -/
def scanBuckets (sampleCount maxNs : UInt64) : Nat → List UInt64 → UInt64 → List ℚ → List UInt64
  | _, [], _, qs => qs.map (fun _ => maxNs)
  | i, c :: counts, acc, qs =>
    if qs = [] then []
    else
      let acc := acc + c
      let r := settle acc sampleCount i qs
      r.1 ++ scanBuckets sampleCount maxNs (i + 1) counts acc r.2

/-- `get_stats`. -/
def getStats (k : LatencyTracker) : LatencyStats :=
  if k.sampleCount = 0 then {}
  else
    let pct := scanBuckets k.sampleCount k.maxNs 0 (List.ofFn k.buckets) 0 pctTargets
    { sampleCount := k.sampleCount
      minNs := k.minNs
      maxNs := k.maxNs
      meanNs := k.totalNs / k.sampleCount
      p50Ns := pct[0]?.getD 0
      p95Ns := pct[1]?.getD 0
      p99Ns := pct[2]?.getD 0
      p999Ns := pct[3]?.getD 0 }

end LatencyTracker

/-! ## The exported histogram -/

/-- A row of the file that `export_csv` writes. -/
structure CsvRow where
  bucketIdx : Nat
  lowerNs : UInt64
  upperNs : UInt64
  count : UInt64
  deriving DecidableEq, Repr

/-- The row as a line of the file. -/
def CsvRow.line (r : CsvRow) : String :=
  toString r.bucketIdx ++ "," ++ toString r.lowerNs ++ "," ++ toString r.upperNs ++ "," ++ toString r.count ++ "\n"

namespace LatencyTracker

/-- The body of the loop of `export_csv`: empty buckets are skipped, and the last bucket has no next one to take its upper edge from. -/
def csvRow (k : LatencyTracker) (i : Fin numBuckets) : Option CsvRow :=
  let cnt := k.buckets i
  if cnt = 0 then none
  else
    let lower := bucketToNs i.val
    let upper := if i.val + 1 < numBuckets then bucketToNs (i.val + 1) else lower * 2
    some { bucketIdx := i, lowerNs := lower, upperNs := upper, count := cnt }

/-- The rows that `export_csv` writes. -/
def csvRows (k : LatencyTracker) : List CsvRow := (List.finRange numBuckets).filterMap k.csvRow

/-- `export_csv`: what is in the file, `none` and false when it could not be opened. -/
def exportCsv (k : LatencyTracker) (opens : Bool) : Option String × Bool :=
  if !opens then (none, false)
  else (some ("bucket_idx,lower_ns,upper_ns,count\n" ++ String.join (k.csvRows.map CsvRow.line)), true)

end LatencyTracker

/-! ## Runs of calls -/

/-- A call of `record` or `reset`. -/
inductive TrackerCall where
  | record (ns : UInt64)
  | reset
  deriving DecidableEq, Repr

/-- A call. -/
def LatencyTracker.call (k : LatencyTracker) : TrackerCall → Option LatencyTracker
  | .record ns => k.record ns
  | .reset => some k.reset

/-- The samples after a call. -/
def TrackerCall.samples (xs : List UInt64) : TrackerCall → List UInt64
  | .record ns => xs ++ [ns]
  | .reset => []

/-- The samples recorded since the last reset. -/
def sinceReset (cs : List TrackerCall) : List UInt64 := cs.foldl TrackerCall.samples []

/-- The samples that a bucket counts. -/
def InBucket (b : Fin numBuckets) (ns : UInt64) : Prop := bucketSlot (bucketFor ns) = some b

instance (b : Fin numBuckets) (ns : UInt64) : Decidable (InBucket b ns) := inferInstanceAs (Decidable (_ = _))

/-- The fields are what they should be of these samples, the counters modulo 2^64. -/
structure LatencyTracker.Holds (k : LatencyTracker) (xs : List UInt64) : Prop where
  buckets : ∀ b, k.buckets b = UInt64.ofNat (xs.countP fun x => InBucket b x)
  totalNs : k.totalNs = UInt64.ofNat (xs.map UInt64.toNat).sum
  sampleCount : k.sampleCount = UInt64.ofNat xs.length
  minNs_le : ∀ x ∈ xs, k.minNs ≤ x
  minNs_mem : k.minNs ∈ xs ∨ xs = [] ∧ k.minNs = uint64Max
  le_maxNs : ∀ x ∈ xs, x ≤ k.maxNs
  maxNs_mem : k.maxNs ∈ xs ∨ xs = [] ∧ k.maxNs = 0

/-! ## The tiers in natural numbers -/

/-- The bucket of a sample below 2^31 buckets behind the start of the last tier. -/
def bucketNat (v : Nat) : Nat :=
  if 560384 ≤ v then min 607 (544 + (v - 560384) / 32768)
  else if 70144 ≤ v then 424 + (v - 70144) / 4096
  else if 8704 ≤ v then 304 + (v - 8704) / 512
  else if 1024 ≤ v then 184 + (v - 1024) / 64
  else if 64 ≤ v then 64 + (v - 64) / 8
  else v

/-- The lower edge of a bucket. -/
def edgeNat (i : Nat) : Nat :=
  if 544 ≤ i then 560384 + (i - 544) * 32768
  else if 424 ≤ i then 70144 + (i - 424) * 4096
  else if 304 ≤ i then 8704 + (i - 304) * 512
  else if 184 ≤ i then 1024 + (i - 184) * 64
  else if 64 ≤ i then 64 + (i - 64) * 8
  else i

namespace LatencyTrackerAux

/-- The offset into a tier, which a sample below 2^31 does not overflow. -/
theorem offset_eq {t : Tier} {ns : UInt64} (h : ns.toNat < 2 ^ 31) (ht : ns ≥ t.startNs) :
    Int.bmod ((ns - t.startNs) / t.stepNs).toNat (2 ^ 32) = ((ns.toNat - t.startNs.toNat) / t.stepNs.toNat : Nat) := by
  have hoff : ((ns - t.startNs) / t.stepNs).toNat = (ns.toNat - t.startNs.toNat) / t.stepNs.toNat := by
    rw [UInt64.toNat_div, UInt64.toNat_sub_of_le _ _ ht]
  have hle := Nat.div_le_self (ns.toNat - t.startNs.toNat) t.stepNs.toNat
  rw [hoff]
  apply Int.bmod_eq_of_le <;> omega

/-- One tier of the loop of `bucket_for`, in natural numbers. -/
theorem bucketForIn_cons {ns : UInt64} (h : ns.toNat < 2 ^ 31) (t : Tier) (ts : List Tier) :
    bucketForIn (t :: ts) ns =
      if t.startNs.toNat ≤ ns.toNat then
        min 607 (t.firstIdx + ((ns.toNat - t.startNs.toNat) / t.stepNs.toNat : Nat))
      else bucketForIn ts ns := by
  conv_lhs => unfold bucketForIn
  by_cases ht : ns ≥ t.startNs
  · have hoff := offset_eq h ht
    dsimp only
    rw [if_pos ht, if_pos (UInt64.le_iff_toNat_le.mp ht), hoff]
    unfold numBuckets
    split_ifs <;> omega
  · rw [if_neg ht, if_neg (fun hle => ht (UInt64.le_iff_toNat_le.mpr hle))]

/-- The samples that `Parser::process` lets through. -/
theorem bucketFor_eq {ns : UInt64} (h : ns < 10000000) : bucketFor ns = bucketNat ns.toNat := by
  have hlt : ns.toNat < 10000000 := UInt64.lt_iff_toNat_lt.mp h
  have hbound : ns.toNat < 2 ^ 31 := by omega
  unfold bucketFor tiers bucketNat
  simp only [bucketForIn_cons hbound, UInt64.reduceToNat]
  split_ifs <;> omega

/-- One tier of the loop of `bucket_to_ns`, in natural numbers. -/
theorem bucketToNsIn_cons {i : Nat} (hi : i ≤ numBuckets) {t : Tier} (ts : List Tier) (hfirst : 0 ≤ t.firstIdx)
    (hstart : t.startNs.toNat < 2 ^ 20) (hstep : t.stepNs.toNat < 2 ^ 20) :
    (bucketToNsIn (t :: ts) i).toNat =
      if t.firstIdx.toNat ≤ i then t.startNs.toNat + (i - t.firstIdx.toNat) * t.stepNs.toNat else (bucketToNsIn ts i).toNat := by
  conv_lhs => unfold bucketToNsIn
  unfold numBuckets at hi
  by_cases hle : t.firstIdx ≤ i
  · have hnat : t.firstIdx.toNat ≤ i := by omega
    have hsub : (i : Int) - t.firstIdx = ((i - t.firstIdx.toNat : Nat) : Int) := by omega
    have hmul : (i - t.firstIdx.toNat) * t.stepNs.toNat ≤ 608 * 2 ^ 20 := Nat.mul_le_mul (by omega) hstep.le
    have hof : (UInt64.ofInt ((i - t.firstIdx.toNat : Nat) : Int)).toNat = i - t.firstIdx.toNat := by
      unfold UInt64.ofInt
      rw [UInt64.toNat_ofNat']
      omega
    rw [if_pos hle, if_pos hnat, hsub, UInt64.toNat_add, UInt64.toNat_mul, hof,
      Nat.mod_eq_of_lt (by omega : (i - t.firstIdx.toNat) * t.stepNs.toNat < 2 ^ 64), Nat.mod_eq_of_lt (by omega)]
  · have hnat : ¬t.firstIdx.toNat ≤ i := by omega
    rw [if_neg hle, if_neg hnat]

theorem bucketToNs_toNat {i : Nat} (h : i ≤ numBuckets) : (bucketToNs i).toNat = edgeNat i := by
  unfold bucketToNs tiers edgeNat
  rw [bucketToNsIn_cons h, bucketToNsIn_cons h, bucketToNsIn_cons h, bucketToNsIn_cons h, bucketToNsIn_cons h, bucketToNsIn_cons h]
  · simp only [UInt64.reduceToNat, Int.reduceToNat]
    -- the first tier begins at the first bucket and has a step of one
    rw [if_pos (Nat.zero_le i), Nat.zero_add, Nat.sub_zero, Nat.mul_one]
  all_goals decide

/-- The tier that a number is in, by where the tiers from the last to the second begin. -/
theorem tier_cases (n a b c d e u v w x y z : Nat) :
    let r := if a ≤ n then u else if b ≤ n then v else if c ≤ n then w else if d ≤ n then x else if e ≤ n then y else z
    (a ≤ n ∧ r = u) ∨ (b ≤ n ∧ n < a ∧ r = v) ∨ (c ≤ n ∧ n < b ∧ r = w) ∨ (d ≤ n ∧ n < c ∧ r = x) ∨ (e ≤ n ∧ n < d ∧ r = y) ∨
      (n < e ∧ r = z) := by
  intro r
  unfold r
  split_ifs with ha hb hc hd he
  · exact .inl ⟨ha, rfl⟩
  · exact .inr (.inl ⟨hb, Nat.lt_of_not_le ha, rfl⟩)
  · exact .inr (.inr (.inl ⟨hc, Nat.lt_of_not_le hb, rfl⟩))
  · exact .inr (.inr (.inr (.inl ⟨hd, Nat.lt_of_not_le hc, rfl⟩)))
  · exact .inr (.inr (.inr (.inr (.inl ⟨he, Nat.lt_of_not_le hd, rfl⟩))))
  · exact .inr (.inr (.inr (.inr (.inr ⟨Nat.lt_of_not_le he, rfl⟩))))

/-- The tier of a sample. -/
theorem bucketNat_cases (v : Nat) :
    (560384 ≤ v ∧ bucketNat v = min 607 (544 + (v - 560384) / 32768)) ∨
    (70144 ≤ v ∧ v < 560384 ∧ bucketNat v = 424 + (v - 70144) / 4096) ∨
    (8704 ≤ v ∧ v < 70144 ∧ bucketNat v = 304 + (v - 8704) / 512) ∨
    (1024 ≤ v ∧ v < 8704 ∧ bucketNat v = 184 + (v - 1024) / 64) ∨
    (64 ≤ v ∧ v < 1024 ∧ bucketNat v = 64 + (v - 64) / 8) ∨ (v < 64 ∧ bucketNat v = v) :=
  tier_cases v 560384 70144 8704 1024 64 _ _ _ _ _ _

/-- The tier of a bucket. -/
theorem edgeNat_cases (i : Nat) :
    (544 ≤ i ∧ edgeNat i = 560384 + (i - 544) * 32768) ∨
    (424 ≤ i ∧ i < 544 ∧ edgeNat i = 70144 + (i - 424) * 4096) ∨
    (304 ≤ i ∧ i < 424 ∧ edgeNat i = 8704 + (i - 304) * 512) ∨
    (184 ≤ i ∧ i < 304 ∧ edgeNat i = 1024 + (i - 184) * 64) ∨
    (64 ≤ i ∧ i < 184 ∧ edgeNat i = 64 + (i - 64) * 8) ∨ (i < 64 ∧ edgeNat i = i) :=
  tier_cases i 544 424 304 184 64 _ _ _ _ _ _

theorem bucketNat_lt (v : Nat) : bucketNat v < numBuckets := by
  have hv := bucketNat_cases v
  unfold numBuckets
  omega

theorem edgeNat_bucketNat_le (v : Nat) : edgeNat (bucketNat v) ≤ v := by
  have hv := bucketNat_cases v
  have hedge := edgeNat_cases (bucketNat v)
  omega

theorem lt_edgeNat_bucketNat {v : Nat} (h : v < 2624768) : v < edgeNat (bucketNat v + 1) := by
  have hv := bucketNat_cases v
  have hedge := edgeNat_cases (bucketNat v + 1)
  omega

/-- The last bucket begins at 2624768. -/
theorem bucketNat_lt_last_iff {v : Nat} : bucketNat v < 607 ↔ v < 2624768 := by
  have hv := bucketNat_cases v
  omega

/-- The tiers fit together: each bucket begins above the one before it, also where the tier changes. -/
theorem edgeNat_strictMono : StrictMono edgeNat := by
  refine strictMono_nat_of_lt_succ (fun i => ?_)
  have hi := edgeNat_cases i
  have hnext := edgeNat_cases (i + 1)
  omega

theorem edgeNat_mono {i j : Nat} (h : i ≤ j) : edgeNat i ≤ edgeNat j := edgeNat_strictMono.monotone h

theorem bucketNat_locates : Edges.Locates edgeNat numBuckets bucketNat where
  lt := bucketNat_lt
  le := edgeNat_bucketNat_le
  lt_next := by
    intro v hv
    unfold numBuckets at hv
    exact lt_edgeNat_bucketNat (bucketNat_lt_last_iff.mp (by omega))

theorem bucketNat_mono {v w : Nat} (h : v ≤ w) : bucketNat v ≤ bucketNat w :=
  bucketNat_locates.mono (edgeNat_strictMono.strictMonoOn _) h

/-- The samples that `Parser::process` lets through have a place in `buckets_`. -/
theorem bucketSlot_eq {ns : UInt64} (h : ns < 10000000) :
    bucketSlot (bucketFor ns) = some ⟨bucketNat ns.toNat, bucketNat_lt _⟩ := by
  have hlt := bucketNat_lt ns.toNat
  unfold bucketSlot
  rw [bucketFor_eq h, dif_pos (by omega)]
  rfl

theorem inBucket_iff {ns : UInt64} (h : ns < 10000000) (b : Fin numBuckets) : InBucket b ns ↔ bucketNat ns.toNat = b := by
  unfold InBucket
  rw [bucketSlot_eq h, Option.some_inj, Fin.ext_iff]

/-! ## What a call does to the samples held -/

theorem holds_fresh : LatencyTracker.fresh.Holds [] where
  buckets := fun _ => rfl
  totalNs := rfl
  sampleCount := rfl
  minNs_le := nofun
  minNs_mem := .inr ⟨rfl, rfl⟩
  le_maxNs := nofun
  maxNs_mem := .inr ⟨rfl, rfl⟩

theorem le_uint64Max (ns : UInt64) : ns ≤ uint64Max := by
  rw [UInt64.le_iff_toNat_le]
  have h : uint64Max.toNat = 2 ^ 64 - 1 := rfl
  have hlt := ns.toNat_lt
  omega

/-- `min_ns_` after a sample. -/
theorem minNs_record (ns : UInt64) {m : UInt64} {xs : List UInt64} (hle : ∀ x ∈ xs, m ≤ x) (hmem : m ∈ xs ∨ xs = [] ∧ m = uint64Max) :
    (∀ x ∈ xs ++ [ns], (if ns < m then ns else m) ≤ x) ∧ (if ns < m then ns else m) ∈ xs ++ [ns] := by
  rw [List.forall_mem_append, List.forall_mem_singleton, List.mem_append, List.mem_singleton]
  split_ifs with hlt
  · exact ⟨⟨fun x hx => UInt64.le_trans (UInt64.le_of_lt hlt) (hle x hx), UInt64.le_refl ns⟩, .inr rfl⟩
  · have hge : m ≤ ns := UInt64.not_lt.mp hlt
    refine ⟨⟨hle, hge⟩, ?_⟩
    rcases hmem with hmem | ⟨-, rfl⟩
    · exact .inl hmem
    · exact .inr (UInt64.le_antisymm hge (le_uint64Max ns))

/-- `max_ns_` after a sample. -/
theorem maxNs_record (ns : UInt64) {m : UInt64} {xs : List UInt64} (hle : ∀ x ∈ xs, x ≤ m) (hmem : m ∈ xs ∨ xs = [] ∧ m = 0) :
    (∀ x ∈ xs ++ [ns], x ≤ if ns > m then ns else m) ∧ (if ns > m then ns else m) ∈ xs ++ [ns] := by
  rw [List.forall_mem_append, List.forall_mem_singleton, List.mem_append, List.mem_singleton]
  split_ifs with hlt
  · exact ⟨⟨fun x hx => UInt64.le_trans (hle x hx) (UInt64.le_of_lt hlt), UInt64.le_refl ns⟩, .inr rfl⟩
  · have hge : ns ≤ m := UInt64.not_lt.mp hlt
    refine ⟨⟨hle, hge⟩, ?_⟩
    rcases hmem with hmem | ⟨-, rfl⟩
    · exact .inl hmem
    · exact .inr (UInt64.le_antisymm UInt64.zero_le hge)

theorem holds_record {k : LatencyTracker} {xs : List UInt64} {ns : UInt64} (hk : k.Holds xs) (h : ns < 10000000) :
    ∃ k', k.record ns = some k' ∧ k'.Holds (xs ++ [ns]) := by
  unfold LatencyTracker.record
  rw [bucketSlot_eq h]
  refine ⟨_, rfl, ?_⟩
  obtain ⟨hminLe, hminMem⟩ := minNs_record ns hk.minNs_le hk.minNs_mem
  obtain ⟨hmaxLe, hmaxMem⟩ := maxNs_record ns hk.le_maxNs hk.maxNs_mem
  refine ⟨fun b => ?_, ?_, ?_, hminLe, .inl hminMem, hmaxLe, .inl hmaxMem⟩
  · simp only [List.countP_append, List.countP_singleton, decide_eq_true_eq, inBucket_iff h]
    dsimp only [LatencyTracker.addToBucket]
    rcases eq_or_ne b ⟨bucketNat ns.toNat, bucketNat_lt _⟩ with rfl | hb
    · rw [Function.update_self, hk.buckets, if_pos rfl, UInt64.ofNat_add]
      rfl
    · rw [Function.update_of_ne hb, hk.buckets, if_neg fun heq => hb (Fin.ext heq.symm), Nat.add_zero]
  · rw [List.map_append, List.sum_append, UInt64.ofNat_add, ← hk.totalNs, List.map_singleton, List.sum_singleton, UInt64.ofNat_toNat]
  · rw [List.length_append, UInt64.ofNat_add, ← hk.sampleCount]
    rfl

theorem holds_call {k : LatencyTracker} {xs : List UInt64} {c : TrackerCall} (hk : k.Holds xs)
    (h : ∀ ns, c = .record ns → ns < 10000000) : ∃ k', k.call c = some k' ∧ k'.Holds (c.samples xs) := by
  cases c with
  | record ns => exact holds_record hk (h ns rfl)
  | reset => exact ⟨_, rfl, holds_fresh⟩

/-- After a run of calls the tracker holds the samples recorded since the last reset. -/
theorem holds_calls {k : LatencyTracker} {xs : List UInt64} (hk : k.Holds xs) {cs : List TrackerCall}
    (h : ∀ ns, .record ns ∈ cs → ns < 10000000) :
    ∃ k', Run.exec LatencyTracker.call k cs = some k' ∧ k'.Holds (cs.foldl TrackerCall.samples xs) := by
  induction cs generalizing k xs with
  | nil => exact ⟨k, rfl, hk⟩
  | cons c cs ih =>
    obtain ⟨k', hk', hholds⟩ := holds_call hk fun ns hc => h ns (hc ▸ List.mem_cons_self)
    obtain ⟨k'', hk'', hholds'⟩ := ih hholds fun ns hns => h ns (List.mem_cons_of_mem c hns)
    exact ⟨k'', Run.exec_cons_eq_some.mpr ⟨k', hk', hk''⟩, hholds'⟩

/-- The samples that the tracker holds are samples recorded. -/
theorem sinceReset_small {es : List TrackerCall} (hsmall : ∀ ns, .record ns ∈ es → ns < 10000000) :
    ∀ x ∈ sinceReset es, x < 10000000 := by
  induction es using List.reverseRecOn with
  | nil => exact nofun
  | append_singleton es e ih =>
    intro x hx
    unfold sinceReset at hx
    rw [List.foldl_append, List.foldl_cons, List.foldl_nil] at hx
    cases e with
    | record ns =>
      rcases List.mem_append.mp hx with hx | hx
      · exact ih (fun ns' hns' => hsmall ns' (List.mem_append_left _ hns')) x hx
      · rw [List.mem_singleton.mp hx]
        exact hsmall ns (List.mem_append_right _ List.mem_cons_self)
    | reset => cases hx

end LatencyTrackerAux

end MarketFeed
