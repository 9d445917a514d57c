import MarketFeed.Theorems.BucketRange

/-!
# The buckets and their edges

Below 2^45 ns `bucket_for` works without overflow, and there it agrees with `bucketNat`, as `bucket_to_ns` agrees with `edgeNat` on the
indices. The three tables fit together at the tier boundaries (`edgeNat_strictMono`, `bucketNat_locates`), so that the two are adjoint.
-/

namespace MarketFeed

/-- The quotient that `bucket_for` casts to an `int`, in the tier that it picks. -/
def bucketQuotientIn : List Tier → UInt64 → Nat
  | [], _ => 0
  | t :: ts, ns => if ns ≥ t.startNs then ((ns - t.startNs) / t.stepNs).toNat else bucketQuotientIn ts ns

def bucketQuotient (ns : UInt64) : Nat := bucketQuotientIn tiers ns

/-- `bucket_for` computes with values of an `int`: the cast does not change the quotient, and the addition does not overflow. -/
def IntExact (ns : UInt64) : Prop := bucketQuotient ns < 2 ^ 31 ∧ FitsInt (bucketSum ns)

namespace BucketEdgesAux

open BucketRangeAux LatencyTrackerAux

/-- In any tier the quotient is no more than the latency. -/
theorem bucketQuotientIn_le (ts : List Tier) (ns : UInt64) : bucketQuotientIn ts ns ≤ ns.toNat := by
  induction ts with
  | nil => exact Nat.zero_le _
  | cons t ts ih =>
    unfold bucketQuotientIn
    split <;> rename_i ht
    · rw [UInt64.toNat_div, UInt64.toNat_sub_of_le _ _ ht]
      exact (Nat.div_le_self _ _).trans (Nat.sub_le _ _)
    · exact ih

theorem bucketQuotient_lastTier {ns : UInt64} (h : 560384 ≤ ns) : bucketQuotient ns = lastTierSteps ns := by
  unfold bucketQuotient tiers bucketQuotientIn
  dsimp only
  rw [if_pos h, UInt64.toNat_div, UInt64.toNat_sub_of_le _ _ h]
  rfl

/-- The steps into the last tier below 2^45, from the last bucket on. -/
theorem lastTierSteps_bounds {ns : UInt64} (h : ns.toNat < 2 ^ 45) (hge : 2624768 ≤ ns) :
    63 ≤ lastTierSteps ns % 2 ^ 32 ∧ lastTierSteps ns % 2 ^ 32 < 2 ^ 31 - 544 ∧ lastTierSteps ns < 2 ^ 31 := by
  have hnat : 2624768 ≤ ns.toNat := UInt64.le_iff_toNat_le.mp hge
  unfold lastTierSteps
  omega

theorem intExact {ns : UInt64} (h : ns.toNat < 2 ^ 45) : IntExact ns := by
  by_cases hns : ns < 2624768
  · have hlt : ns.toNat < 2624768 := UInt64.lt_iff_toNat_lt.mp hns
    have hle := bucketQuotientIn_le tiers ns
    obtain ⟨hnat, hlast⟩ := bucketFor_small hns
    refine ⟨by unfold bucketQuotient; omega, ?_⟩
    rw [bucketSum_small hns, hnat]
    unfold FitsInt
    omega
  · have hge : 2624768 ≤ ns := UInt64.not_lt.mp hns
    obtain ⟨hlo, hhi, hquot⟩ := lastTierSteps_bounds h hge
    refine ⟨?_, ((bucketFor_last_iff hge).mpr ⟨hlo, hhi⟩).1⟩
    rw [bucketQuotient_lastTier (UInt64.le_trans (by decide) hge)]
    exact hquot

/-- The tiers are exact up to 2^45. -/
theorem bucketFor_eq_bucketNat {ns : UInt64} (h : ns.toNat < 2 ^ 45) : bucketFor ns = bucketNat ns.toNat := by
  by_cases hns : ns < 2624768
  · exact (bucketFor_small hns).1
  · have hge : 2624768 ≤ ns := UInt64.not_lt.mp hns
    obtain ⟨hlo, hhi, -⟩ := lastTierSteps_bounds h hge
    have hlast : bucketNat ns.toNat = 607 := by
      have hlt := bucketNat_lt ns.toNat
      have hnot : ¬bucketNat ns.toNat < 607 := fun hlt => hns (UInt64.lt_iff_toNat_lt.mpr (bucketNat_lt_last_iff.mp hlt))
      unfold numBuckets at hlt
      omega
    rw [((bucketFor_last_iff hge).mpr ⟨hlo, hhi⟩).2, hlast]
    rfl

/-- An index, as a natural number, and its edge. -/
theorem exists_index {i : Int} (h0 : 0 ≤ i) (hi : i ≤ 607) : ∃ k : Nat, i = k ∧ k < numBuckets ∧ (bucketToNs i).toNat = edgeNat k := by
  obtain ⟨k, rfl⟩ := Int.eq_ofNat_of_zero_le h0
  have hk : k < numBuckets := by
    unfold numBuckets
    omega
  exact ⟨k, rfl, hk, bucketToNs_toNat hk.le⟩

theorem edgeNat_lt {k : Nat} (hk : k < numBuckets) : edgeNat k < 2 ^ 45 := by
  have hedge := edgeNat_cases k
  unfold numBuckets at hk
  omega

/-- The bucket of a latency is between its edges. -/
theorem bucketFor_between {ns : UInt64} (h : ns.toNat < 2 ^ 45) :
    bucketToNs (bucketFor ns) ≤ ns ∧ (bucketFor ns < 607 → ns < bucketToNs (bucketFor ns + 1)) := by
  have hlt := bucketNat_lt ns.toNat
  rw [bucketFor_eq_bucketNat h]
  constructor
  · rw [UInt64.le_iff_toNat_le, bucketToNs_toNat hlt.le]
    exact bucketNat_locates.le _
  · intro hlast
    have hnext : bucketNat ns.toNat + 1 < numBuckets := by
      unfold numBuckets
      omega
    have hcast : (bucketNat ns.toNat : Int) + 1 = ((bucketNat ns.toNat + 1 : Nat) : Int) := rfl
    rw [UInt64.lt_iff_toNat_lt, hcast, bucketToNs_toNat hnext.le]
    exact bucketNat_locates.lt_next _ hnext

/-- `bucket_for` and `bucket_to_ns` are adjoint. -/
theorem le_bucketFor_iff {i : Int} (h0 : 0 ≤ i) (hi : i ≤ 607) {ns : UInt64} (h : ns.toNat < 2 ^ 45) :
    i ≤ bucketFor ns ↔ bucketToNs i ≤ ns := by
  obtain ⟨k, rfl, hk, hedge⟩ := exists_index h0 hi
  rw [bucketFor_eq_bucketNat h, UInt64.le_iff_toNat_le, hedge, Int.ofNat_le]
  exact bucketNat_locates.le_index_iff (edgeNat_strictMono.strictMonoOn _) hk _

theorem bucketFor_mono {m ns : UInt64} (hle : m ≤ ns) (h : ns.toNat < 2 ^ 45) : bucketFor m ≤ bucketFor ns := by
  have hnat := UInt64.le_iff_toNat_le.mp hle
  rw [bucketFor_eq_bucketNat h, bucketFor_eq_bucketNat (Nat.lt_of_le_of_lt hnat h), Int.ofNat_le]
  exact bucketNat_mono hnat

theorem bucketToNs_strictMono {i j : Int} (h0 : 0 ≤ i) (hij : i < j) (hj : j ≤ 607) : bucketToNs i < bucketToNs j := by
  obtain ⟨k, rfl, -, hedge⟩ := exists_index h0 (by omega)
  obtain ⟨l, rfl, -, hedge'⟩ := exists_index (by omega : 0 ≤ j) hj
  rw [UInt64.lt_iff_toNat_lt, hedge, hedge']
  exact edgeNat_strictMono (by omega)

theorem bucketFor_bucketToNs {i : Int} (h0 : 0 ≤ i) (hi : i ≤ 607) : bucketFor (bucketToNs i) = i := by
  obtain ⟨k, rfl, hk, hedge⟩ := exists_index h0 hi
  rw [bucketFor_eq_bucketNat (hedge ▸ edgeNat_lt hk), hedge,
    bucketNat_locates.index_edge (edgeNat_strictMono.strictMonoOn _) hk]

end BucketEdgesAux

open BucketEdgesAux LatencyTrackerAux

/-- For every latency below 2^45 ns the arithmetic of `bucket_for` is exact, its index is one of the 608, and the latency is in that
bucket; an index is no larger exactly when its bucket begins no later. `bucket_for` is monotone there, `bucket_to_ns` strictly
increasing on the indices, and `bucket_for` gives the index back. -/
theorem buckets_adjoint :
    (∀ ns : UInt64, ns.toNat < 2 ^ 45 → IntExact ns ∧ 0 ≤ bucketFor ns ∧ bucketFor ns < numBuckets ∧
        bucketToNs (bucketFor ns) ≤ ns ∧ (bucketFor ns < 607 → ns < bucketToNs (bucketFor ns + 1))) ∧
      (∀ (i : Int) (ns : UInt64), 0 ≤ i → i ≤ 607 → ns.toNat < 2 ^ 45 → (i ≤ bucketFor ns ↔ bucketToNs i ≤ ns)) ∧
      (∀ m ns : UInt64, m ≤ ns → ns.toNat < 2 ^ 45 → bucketFor m ≤ bucketFor ns) ∧
      (∀ i j : Int, 0 ≤ i → i < j → j ≤ 607 → bucketToNs i < bucketToNs j) ∧
      ∀ i : Int, 0 ≤ i → i ≤ 607 → bucketFor (bucketToNs i) = i := by
  refine ⟨?_, fun i ns h0 hi h => le_bucketFor_iff h0 hi h, fun m ns hle h => bucketFor_mono hle h,
    fun i j h0 hij hj => bucketToNs_strictMono h0 hij hj, fun i h0 hi => bucketFor_bucketToNs h0 hi⟩
  intro ns h
  obtain ⟨hlo, hhi⟩ := bucketFor_between h
  have hlt := bucketNat_lt ns.toNat
  refine ⟨intExact h, ?_, ?_, hlo, hhi⟩
  · rw [bucketFor_eq_bucketNat h]
    omega
  · rw [bucketFor_eq_bucketNat h]
    omega

/-- On both sides of the boundary at 8704 ns, and where the last bucket begins. -/
theorem buckets_adjoint_edges :
    (8703 : UInt64) < bucketToNs (bucketFor 8703 + 1) ∧ bucketToNs (bucketFor 8704) ≤ 8704 ∧ bucketFor 8703 ≤ bucketFor 8704 ∧
      bucketToNs 303 < bucketToNs 304 ∧ bucketFor (bucketToNs 304) = 304 ∧ bucketFor (bucketToNs 607) = 607 := by
  obtain ⟨hbetween, -, hmono, hstrict, hinverse⟩ := buckets_adjoint
  have hbelow := hbetween 8703 (by decide)
  have habove := hbetween 8704 (by decide)
  exact ⟨hbelow.2.2.2.2 (by decide), habove.2.2.2.1, hmono 8703 8704 (by decide) (by decide),
    hstrict 303 304 (by decide) (by decide) (by decide), hinverse 304 (by decide) (by decide), hinverse 607 (by decide) (by decide)⟩

end MarketFeed
