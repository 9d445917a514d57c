import MarketFeed.LatencyThreads

/-!
# Reading the statistics while threads record

`get_stats` is called by the visualizer while the parse thread records. Each of its loads is a step between the steps of the threads:
the count, the minimum, the maximum, the sum, then the buckets one after the other. What it computes from what it has loaded belongs to
its last load.
-/

namespace MarketFeed

/-- Where the reader is in `get_stats`, with what it has filled in and the counts it has loaded. -/
inductive StatsPc where
  | idle
  | loadMin (stats : LatencyStats)
  | loadMax (stats : LatencyStats)
  | loadTotal (stats : LatencyStats)
  | loadBuckets (stats : LatencyStats) (counts : List UInt64)
  deriving DecidableEq, Repr

/-- What a call of `get_stats` has returned; and for the record, the samples counted in the buckets when the call began. -/
structure StatsReturned where
  began : List UInt64
  stats : LatencyStats
  deriving DecidableEq, Repr

/-- The percentiles filled in from the counts. -/
def LatencyStats.withPercentiles (s : LatencyStats) (counts : List UInt64) : LatencyStats :=
  let pct := LatencyTracker.scanBuckets s.sampleCount s.maxNs 0 counts 0 LatencyTracker.pctTargets
  { s with
    p50Ns := pct[0]?.getD 0
    p95Ns := pct[1]?.getD 0
    p99Ns := pct[2]?.getD 0
    p999Ns := pct[3]?.getD 0 }

/-- The tracker with its threads, the reader, and what its calls have returned; for the record, the samples counted when the call in
progress began. -/
structure StatsSys (n : Nat) where
  threads : TrackerSys n
  reader : StatsPc
  began : List UInt64
  returned : List StatsReturned

/-- A step of the threads, or the next load of the reader. -/
inductive StatsEvent (n : Nat) where
  | thread (e : TrackerEvent n)
  | load
  deriving DecidableEq, Repr

/-- The samples that the calls of `record` have counted so far. -/
def TrackerSys.counted {n : Nat} (s : TrackerSys n) : List UInt64 := s.recorded.map (·.2)

namespace StatsSys

variable {n : Nat}

def init (n : Nat) : StatsSys n := { threads := .init n, reader := .idle, began := [], returned := [] }

/-- The call returns. -/
def returns (s : StatsSys n) (stats : LatencyStats) : StatsSys n :=
  { s with reader := .idle, returned := s.returned ++ [{ began := s.began, stats := stats }] }

/-- The next load of `get_stats`. -/
def loadStep (s : StatsSys n) : StatsSys n :=
  let k := s.threads.tracker
  match s.reader with
  | .idle =>
    let s := { s with began := s.threads.counted }
    if k.sampleCount = 0 then s.returns {} else { s with reader := .loadMin { sampleCount := k.sampleCount } }
  | .loadMin stats => { s with reader := .loadMax { stats with minNs := k.minNs } }
  | .loadMax stats => { s with reader := .loadTotal { stats with maxNs := k.maxNs } }
  | .loadTotal stats => { s with reader := .loadBuckets { stats with meanNs := k.totalNs / stats.sampleCount } [] }
  | .loadBuckets stats counts =>
    if h : counts.length < numBuckets then
      let counts := counts ++ [k.buckets ⟨counts.length, h⟩]
      if counts.length = numBuckets then s.returns (stats.withPercentiles counts) else { s with reader := .loadBuckets stats counts }
    else s.returns (stats.withPercentiles counts)

/-- A step. -/
def step (s : StatsSys n) : StatsEvent n → Option (StatsSys n)
  | .thread e => (s.threads.step e).map fun threads => { s with threads := threads }
  | .load => some s.loadStep

end StatsSys

namespace StatsThreadsAux

variable {n : Nat}

/-- The load of a bucket. -/
theorem loadStep_bucket (s : StatsSys n) (stats : LatencyStats) {counts : List UInt64} (hlt : counts.length < numBuckets) :
    StatsSys.loadStep { s with reader := .loadBuckets stats counts } =
      if counts.length + 1 = numBuckets then
        s.returns (stats.withPercentiles (counts ++ [s.threads.tracker.buckets ⟨counts.length, hlt⟩]))
      else { s with reader := .loadBuckets stats (counts ++ [s.threads.tracker.buckets ⟨counts.length, hlt⟩]) } := by
  unfold StatsSys.loadStep
  simp only [dif_pos hlt, List.length_append, List.length_singleton]
  rfl

/-- The loads of the buckets that are left, with no step of a thread in between. -/
theorem exec_loadBuckets (s : StatsSys n) (stats : LatencyStats) (d : Nat) :
    ∀ counts : List UInt64, counts.length + (d + 1) = numBuckets →
      Run.exec StatsSys.step { s with reader := .loadBuckets stats counts } (List.replicate (d + 1) .load) =
        some (s.returns (stats.withPercentiles (counts ++ (List.ofFn s.threads.tracker.buckets).drop counts.length))) := by
  have hlen : (List.ofFn s.threads.tracker.buckets).length = numBuckets := List.length_ofFn
  have hdrop : ∀ m (hm : m < numBuckets), (List.ofFn s.threads.tracker.buckets).drop m =
      s.threads.tracker.buckets ⟨m, hm⟩ :: (List.ofFn s.threads.tracker.buckets).drop (m + 1) := by
    intro m hm
    rw [List.drop_eq_getElem_cons (hm.trans_eq hlen.symm), List.getElem_ofFn]
  induction d with
  | zero =>
    intro counts hcounts
    refine Run.exec_cons_eq_some.mpr ⟨_, rfl, ?_⟩
    rw [loadStep_bucket s stats (by omega), if_pos hcounts, hdrop _ (by omega), List.drop_of_length_le (by omega)]
    rfl
  | succ d ih =>
    intro counts hcounts
    refine Run.exec_cons_eq_some.mpr ⟨_, rfl, ?_⟩
    rw [loadStep_bucket s stats (by omega), if_neg (by omega), hdrop _ (by omega)]
    have hrest := ih (counts ++ [s.threads.tracker.buckets ⟨counts.length, by omega⟩])
      (by rw [List.length_append, List.length_singleton]; omega)
    rw [List.length_append, List.length_singleton, List.append_assoc, List.singleton_append] at hrest
    exact hrest

/-- The loads in front of those of the buckets. -/
theorem exec_loadFields (s : StatsSys n) (hs : s.reader = .idle) (hcount : s.threads.tracker.sampleCount ≠ 0) :
    Run.exec StatsSys.step s (List.replicate 4 .load) = some { s with
      began := s.threads.counted
      reader := .loadBuckets
        { sampleCount := s.threads.tracker.sampleCount
          minNs := s.threads.tracker.minNs
          maxNs := s.threads.tracker.maxNs
          meanNs := s.threads.tracker.totalNs / s.threads.tracker.sampleCount } [] } := by
  have hfirst : s.loadStep =
      { s with began := s.threads.counted, reader := .loadMin { sampleCount := s.threads.tracker.sampleCount } } := by
    unfold StatsSys.loadStep
    rw [hs]
    exact if_neg hcount
  refine Run.exec_cons_eq_some.mpr ⟨_, rfl, ?_⟩
  rw [hfirst]
  refine Run.exec_cons_eq_some.mpr ⟨_, rfl, ?_⟩
  refine Run.exec_cons_eq_some.mpr ⟨_, rfl, ?_⟩
  exact Run.exec_cons_eq_some.mpr ⟨_, rfl, rfl⟩

end StatsThreadsAux

open StatsThreadsAux

/-- The loads of `get_stats`, one after the other, are the call. -/
theorem exec_getStats {n : Nat} {s : StatsSys n} (hs : s.reader = .idle) :
    ∃ m, Run.exec StatsSys.step s (List.replicate m .load) =
      some (StatsSys.returns { s with began := s.threads.counted } s.threads.tracker.getStats) := by
  by_cases hzero : s.threads.tracker.sampleCount = 0
  · refine ⟨1, Run.exec_cons_eq_some.mpr ⟨_, rfl, ?_⟩⟩
    unfold StatsSys.loadStep LatencyTracker.getStats
    rw [hs, if_pos hzero]
    exact congrArg some (if_pos hzero)
  · refine ⟨4 + numBuckets, ?_⟩
    have hfields := exec_loadFields s hs hzero
    have hbuckets := exec_loadBuckets { s with began := s.threads.counted }
      { sampleCount := s.threads.tracker.sampleCount
        minNs := s.threads.tracker.minNs
        maxNs := s.threads.tracker.maxNs
        meanNs := s.threads.tracker.totalNs / s.threads.tracker.sampleCount } 607 [] (by simp [numBuckets])
    have hstats : s.threads.tracker.getStats = LatencyStats.withPercentiles
        { sampleCount := s.threads.tracker.sampleCount
          minNs := s.threads.tracker.minNs
          maxNs := s.threads.tracker.maxNs
          meanNs := s.threads.tracker.totalNs / s.threads.tracker.sampleCount } (List.ofFn s.threads.tracker.buckets) := by
      unfold LatencyTracker.getStats
      rw [if_neg hzero]
      rfl
    rw [List.length_nil, List.drop_zero, List.nil_append] at hbuckets
    rw [List.replicate_add, Run.exec_append hfields, hstats]
    exact hbuckets

end MarketFeed
