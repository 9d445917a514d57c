import MarketFeed.LatencyTracker

/-!
# The bucket of any sample

`bucket_for` casts the quotient in the last tier to an `int` before it clamps the index, so it is right as long as the quotient, modulo
2^32, is neither negative as an `int` nor so large that the addition overflows.
-/

namespace MarketFeed

/-- `TIER_FIRST_IDX[t] + offset` in the tier that `bucket_for` picks, before the clamp. -/
def bucketSumIn : List Tier → UInt64 → Int
  | [], _ => 0
  | t :: ts, ns =>
    if ns ≥ t.startNs then t.firstIdx + Int.bmod ((ns - t.startNs) / t.stepNs).toNat (2 ^ 32) else bucketSumIn ts ns

def bucketSum (ns : UInt64) : Int := bucketSumIn tiers ns

/-- The values of an `int`. -/
def FitsInt (z : Int) : Prop := -2 ^ 31 ≤ z ∧ z < 2 ^ 31

instance (z : Int) : Decidable (FitsInt z) := inferInstanceAs (Decidable (-2 ^ 31 ≤ z ∧ z < 2 ^ 31))

/-- The number of whole steps from the start of the last tier. -/
def lastTierSteps (ns : UInt64) : Nat := (ns.toNat - 560384) / 32768

namespace BucketRangeAux

open LatencyTrackerAux

/-- `bucket_for` is the clamp of the sum. -/
theorem bucketForIn_clamp (ts : List Tier) (ns : UInt64) :
    bucketForIn ts ns = if bucketSumIn ts ns ≥ numBuckets then (numBuckets - 1 : Int) else bucketSumIn ts ns := by
  induction ts with
  | nil => rfl
  | cons t ts ih =>
    unfold bucketForIn bucketSumIn
    by_cases ht : ns ≥ t.startNs
    · rw [if_pos ht, if_pos ht]
    · rw [if_neg ht, if_neg ht]
      exact ih

theorem bucketFor_clamp (ns : UInt64) :
    bucketFor ns = if bucketSum ns ≥ 608 then 607 else bucketSum ns := bucketForIn_clamp tiers ns

theorem bucketFor_le (ns : UInt64) : bucketFor ns ≤ 607 := by
  rw [bucketFor_clamp]
  split_ifs <;> omega

/-- Below the end of the histogram the tiers are exact. -/
theorem bucketFor_small {ns : UInt64} (h : ns < 2624768) : bucketFor ns = bucketNat ns.toNat ∧ bucketNat ns.toNat < 607 := by
  have hlt : ns.toNat < 2624768 := UInt64.lt_iff_toNat_lt.mp h
  exact ⟨bucketFor_eq (UInt64.lt_trans h (by decide)), bucketNat_lt_last_iff.mpr hlt⟩

theorem bucketSum_small {ns : UInt64} (h : ns < 2624768) : bucketSum ns = bucketFor ns := by
  have hnat := bucketFor_small h
  have hclamp := bucketFor_clamp ns
  split_ifs at hclamp <;> omega

/-- In the last tier the sum is the number of steps, as an `int`, from bucket 544. -/
theorem bucketSum_lastTier {ns : UInt64} (h : 560384 ≤ ns) :
    bucketSum ns = 544 + if lastTierSteps ns % 2 ^ 32 < 2 ^ 31 then (lastTierSteps ns % 2 ^ 32 : Int)
      else lastTierSteps ns % 2 ^ 32 - 2 ^ 32 := by
  have hsteps : ((ns - 560384) / 32768).toNat = lastTierSteps ns := by
    rw [UInt64.toNat_div, UInt64.toNat_sub_of_le _ _ h]
    rfl
  unfold bucketSum tiers bucketSumIn
  dsimp only
  rw [if_pos h, hsteps, Int.bmod_def]
  split_ifs <;> omega

/-- From the last bucket on, the index is 607 exactly when the number of steps is not too large modulo 2^32. -/
theorem bucketFor_last_iff {ns : UInt64} (h : 2624768 ≤ ns) :
    FitsInt (bucketSum ns) ∧ bucketFor ns = 607 ↔
      63 ≤ lastTierSteps ns % 2 ^ 32 ∧ lastTierSteps ns % 2 ^ 32 < 2 ^ 31 - 544 := by
  have hsum := bucketSum_lastTier (UInt64.le_trans (by decide) h)
  rw [bucketFor_clamp]
  unfold FitsInt
  split_ifs at hsum ⊢ <;> omega

theorem record_isSome {ns : UInt64} (h : 0 ≤ bucketFor ns) (k : LatencyTracker) : (k.record ns).isSome := by
  have hle := bucketFor_le ns
  have hslot : 0 ≤ bucketFor ns ∧ bucketFor ns < numBuckets := ⟨h, by unfold numBuckets; omega⟩
  unfold LatencyTracker.record bucketSlot
  rw [Option.isSome_map, dif_pos hslot]
  rfl

end BucketRangeAux

open BucketRangeAux LatencyTrackerAux

/-- For a latency `ns`, the computation of `bucket_for` overflows nowhere, its index has a place in `buckets_`, so that `record` is
defined, and no smaller latency has a larger index, exactly when `ns` is below the last bucket or its number of steps in the last
tier, modulo 2^32, is between 63 and 2^31 - 545. -/
theorem bucketFor_in_range_iff (ns : UInt64) :
    (FitsInt (bucketSum ns) ∧ 0 ≤ bucketFor ns ∧ bucketFor ns < numBuckets ∧ (∀ k : LatencyTracker, (k.record ns).isSome) ∧
        ∀ m ≤ ns, bucketFor m ≤ bucketFor ns) ↔
      ns < 2624768 ∨ 63 ≤ lastTierSteps ns % 2 ^ 32 ∧ lastTierSteps ns % 2 ^ 32 < 2 ^ 31 - 544 := by
  have hle := bucketFor_le ns
  have hbelow : bucketFor ns < numBuckets := by
    unfold numBuckets
    omega
  by_cases hns : ns < 2624768
  · refine iff_of_true ?_ (Or.inl hns)
    obtain ⟨hnat, hlt⟩ := bucketFor_small hns
    have hsum := bucketSum_small hns
    have hpos : 0 ≤ bucketFor ns := by omega
    refine ⟨?_, hpos, hbelow, record_isSome hpos, ?_⟩
    · unfold FitsInt
      omega
    · intro m hm
      rw [hnat, (bucketFor_small (UInt64.lt_of_le_of_lt hm hns)).1]
      exact_mod_cast bucketNat_mono (UInt64.le_iff_toNat_le.mp hm)
  · have hge : 2624768 ≤ ns := UInt64.not_lt.mp hns
    rw [or_iff_right hns, ← bucketFor_last_iff hge]
    constructor
    · rintro ⟨hfits, -, -, -, hmono⟩
      -- the first latency of the last bucket is not above `ns`
      have hlast : bucketFor 2624768 = 607 := by decide
      have hmax := hmono 2624768 hge
      exact ⟨hfits, by omega⟩
    · rintro ⟨hfits, hmax⟩
      have hpos : 0 ≤ bucketFor ns := by omega
      refine ⟨hfits, hpos, hbelow, record_isSome hpos, ?_⟩
      intro m _
      rw [hmax]
      exact bucketFor_le m

/-- At 2^31 steps into the last tier the index is negative, so that `record` writes outside `buckets_` and 64 ns have a larger index;
at 2^31 - 544 steps the addition overflows. -/
theorem bucketFor_negative :
    bucketFor 70368744738048 = -2147483104 ∧ bucketFor 64 = 64 ∧ ¬FitsInt (bucketSum 70368726912256) ∧
      LatencyTracker.fresh.record 70368744738048 = none := by
  have hneg : bucketFor 70368744738048 = -2147483104 := by decide
  refine ⟨hneg, by decide, by decide, ?_⟩
  unfold LatencyTracker.record
  rw [hneg]
  rfl

end MarketFeed
