import MarketFeed.StatsThreads
import MarketFeed.Theorems.ConcurrentRecord
import MarketFeed.Theorems.Percentiles

/-!
# The statistics that are read while threads record

`get_stats` loads the sample count before the buckets, and `record` adds to the bucket before it adds to the count. So the counts loaded
are those of a set of samples: all that had been counted when the call began, and some that came while it loaded; and there are no fewer
of them than the count says. The percentiles are those ranks in that set, which is enough for them to be found, and in order.
-/

namespace MarketFeed

open LatencyTrackerAux PercentilesAux ConcurrentRecordAux TrackerInvAux Rank

/-- The value of a percentile is the lower edge of the bucket of that rank among the samples seen, for the number of samples given. -/
def ReportsRank (seen : List UInt64) (n : Nat) (q : ℚ) (v : UInt64) : Prop :=
  ∃ x, nthSmallest seen ⌈q * n⌉₊ = some x ∧ v = bucketToNs (bucketFor x)

namespace ConcurrentStatsAux

variable {n : Nat}

/-! ## What is loaded -/

/-- Elements with a property can be added to a part of a list that has none of them. -/
theorem subperm_append_filter {xs ys : List UInt64} (p : UInt64 → Bool) (h : List.Subperm xs ys) (hxs : ∀ x ∈ xs, ¬p x) :
    List.Subperm (xs ++ ys.filter p) ys := by
  have hkept : xs.filter (fun x => !p x) = xs := List.filter_eq_self.mpr fun x hx => by simpa using hxs x hx
  have hrest : List.Subperm xs (ys.filter fun x => !p x) := by
    have hfilter := h.filter fun x => !p x
    rwa [hkept] at hfilter
  have hboth : List.Subperm (ys.filter p ++ xs) (ys.filter p ++ ys.filter fun x => !p x) := (List.subperm_append_left _).mpr hrest
  exact (List.perm_append_comm.subperm.trans hboth).trans (List.filter_append_perm p ys).subperm

/-- The counts loaded so far are those of the samples counted when the call began, and of some that have been counted since, which are in
the buckets loaded. -/
structure Loaded (began counted counts later : List UInt64) : Prop where
  since : ∃ rest, counted = began ++ rest ∧ List.Subperm later rest
  loaded : ∀ x ∈ later, bucketNat x.toNat < counts.length
  counts : ∀ m (hm : m < counts.length), counts[m] = UInt64.ofNat ((began ++ later).countP fun x => bucketNat x.toNat = m)

theorem Loaded.begin {began counted : List UInt64} (h : began <+: counted) : Loaded began counted [] [] := by
  obtain ⟨rest, hrest⟩ := h
  exact ⟨⟨rest, hrest.symm, List.nil_subperm⟩, nofun, nofun⟩

/-- More samples are counted. -/
theorem Loaded.grow {began counted counted' counts later : List UInt64} (h : Loaded began counted counts later)
    (hgrow : counted <+: counted') : Loaded began counted' counts later := by
  obtain ⟨rest, rfl, hsub⟩ := h.since
  obtain ⟨new, rfl⟩ := hgrow
  refine ⟨⟨rest ++ new, List.append_assoc _ _ _, hsub.trans (List.sublist_append_left rest new).subperm⟩, h.loaded, h.counts⟩

/-- The next bucket is loaded: it holds what has been counted by now. -/
theorem Loaded.load {began counted counts later : List UInt64} (h : Loaded began counted counts later) :
    ∃ later', Loaded began counted
      (counts ++ [UInt64.ofNat (counted.countP fun x => bucketNat x.toNat = counts.length)]) later' := by
  obtain ⟨rest, rfl, hsub⟩ := h.since
  generalize hp : (fun x : UInt64 => decide (bucketNat x.toNat = counts.length)) = p
  have hnone : ∀ x ∈ later, ¬p x := by
    intro x hx
    have hlt := h.loaded x hx
    rw [← hp, decide_eq_true_eq]
    omega
  refine ⟨later ++ rest.filter p, ⟨rest, rfl, subperm_append_filter p hsub hnone⟩, fun x hx => ?_, fun m hm => ?_⟩
  · rw [List.length_append, List.length_singleton]
    rcases List.mem_append.mp hx with hx | hx
    · exact Nat.lt_succ_of_lt (h.loaded x hx)
    · have hx := (List.mem_filter.mp hx).2
      rw [← hp, decide_eq_true_eq] at hx
      omega
  · rw [List.length_append, List.length_singleton] at hm
    rw [← List.append_assoc, @List.countP_append _ _ (began ++ later), List.countP_filter]
    by_cases hlast : m = counts.length
    · subst hlast
      have hzero : later.countP p = 0 := List.countP_eq_zero.mpr hnone
      have hboth : ∀ x ∈ rest, (decide (bucketNat x.toNat = counts.length) && p x) = p x := by
        intro x _
        rw [← hp, Bool.and_self]
      rw [List.getElem_concat_length rfl, hp, List.countP_append, List.countP_append, hzero]
      rw [← hp] at hboth ⊢
      simp
    · have hlt : m < counts.length := by omega
      have hzero : rest.countP (fun x => decide (bucketNat x.toNat = m) && p x) = 0 := by
        refine List.countP_eq_zero.mpr fun x _ hx => ?_
        rw [← hp, Bool.and_eq_true, decide_eq_true_eq, decide_eq_true_eq] at hx
        exact hlast (hx.1.symm.trans hx.2)
      rw [List.getElem_append_left hlt, h.counts m hlt, hzero, Nat.add_zero]

/-! ## The threads -/

/-- The threads of a run without a reset. -/
structure ThreadsOk (s : TrackerSys n) : Prop where
  inv : TrackerInv s
  noReset : NoReset s
  small : ∀ x ∈ s.counted, x < 10000000

/-- A step of a thread counts at most one more sample. -/
theorem counted_step {s s' : TrackerSys n} {e : TrackerEvent n} (hs : s.step e = some s') :
    s'.counted = s.counted ++ TrackerSys.samplesOf [e] := recorded_exec (Run.exec_cons_eq_some.mpr ⟨s', hs, rfl⟩)

/-- The events of a run: no reset, and only samples that `Parser::process` lets through. -/
def Admitted : TrackerEvent n → Prop
  | .record _ ns => ns < 10000000
  | .access _ _ => True
  | .reset => False

theorem ThreadsOk.step {s s' : TrackerSys n} {e : TrackerEvent n} (h : ThreadsOk s) (he : Admitted e) (hs : s.step e = some s') :
    ThreadsOk s' := by
  have hne : e ≠ .reset := by
    rintro rfl
    exact he
  refine ⟨h.inv.step (h.noReset.oneSide e) hs, h.noReset.step hne hs, fun x hx => ?_⟩
  rw [counted_step hs] at hx
  rcases List.mem_append.mp hx with hx | hx
  · exact h.small x hx
  · cases e with
    | record i ns =>
      rw [List.mem_singleton.mp hx]
      exact he
    | access i spurious => cases hx
    | reset => cases hx

theorem samplesAt_cleared {s : TrackerSys n} (h : NoReset s) (f : TrackerField) : s.samplesAt (s.cleared f) = s.counted := by
  rw [h.cleared, ← h.resets]
  exact h.samplesAt

/-- A bucket holds the samples counted, also of calls in progress. -/
theorem buckets_eq {s : TrackerSys n} (h : ThreadsOk s) (b : Fin numBuckets) :
    s.tracker.buckets b = UInt64.ofNat (s.counted.countP fun x => bucketNat x.toNat = b) := by
  obtain ⟨m, hm, hsum⟩ := (h.inv.counters (.bucket b)).value
  have howed : ∀ r, owed s (.bucket b) r = 0 := by
    intro r
    refine Finset.sum_eq_zero fun i _ => ?_
    have hnone : pending (s.pcs i) (.counter (.bucket b)) = none := by
      rcases s.pcs i with - | - | - | ⟨- | -⟩ | ⟨- | -⟩ <;> rfl
    unfold debt
    rw [hnone]
    exact ite_self 0
  rw [howed, Nat.add_zero, made_bucket, samplesAt_cleared h.noReset] at hsum
  have hbuckets : s.tracker.buckets b = UInt64.ofNat m := hm
  rw [hbuckets, hsum]
  congr 1
  refine List.countP_congr fun x hx => ?_
  rw [decide_eq_true_eq, decide_eq_true_eq]
  exact inBucket_iff (h.small x hx) b

/-- The sample count is behind the buckets. -/
theorem sampleCount_le {s : TrackerSys n} (h : ThreadsOk s) : s.tracker.sampleCount.toNat ≤ s.counted.length := by
  obtain ⟨m, hm, hsum⟩ := (h.inv.counters .count).value
  rw [made_count, samplesAt_cleared h.noReset] at hsum
  have hcount : s.tracker.sampleCount = UInt64.ofNat m := hm
  rw [hcount, UInt64.toNat_ofNat']
  exact (Nat.mod_le _ _).trans (by omega)

/-! ## The reader -/

/-- The count is that of the samples counted when the call began, or less. -/
def CountOk (began : List UInt64) (stats : LatencyStats) : Prop := stats.sampleCount ≠ 0 ∧ stats.sampleCount.toNat ≤ began.length

/-- What the reader holds at each point. -/
def ReaderOk (began counted : List UInt64) : StatsPc → Prop
  | .idle => True
  | .loadMin stats | .loadMax stats | .loadTotal stats => CountOk began stats
  | .loadBuckets stats counts => CountOk began stats ∧ counts.length < numBuckets ∧ ∃ later, Loaded began counted counts later

/-- What a call has returned. -/
def ReturnedOk (counted : List UInt64) (r : StatsReturned) : Prop :=
  r.stats.sampleCount ≠ 0 → ∃ stats counts later, r.stats = stats.withPercentiles counts ∧ CountOk r.began stats ∧
    counts.length = numBuckets ∧ Loaded r.began counted counts later

/-- The invariant. -/
structure StatsOk (s : StatsSys n) : Prop where
  threads : ThreadsOk s.threads
  began : s.began <+: s.threads.counted
  reader : ReaderOk s.began s.threads.counted s.reader
  returned : ∀ r ∈ s.returned, ReturnedOk s.threads.counted r

theorem StatsOk.thread {s : StatsSys n} {threads : TrackerSys n} {e : TrackerEvent n} (h : StatsOk s) (he : Admitted e)
    (hs : s.threads.step e = some threads) : StatsOk { s with threads := threads } := by
  have hgrow : s.threads.counted <+: threads.counted := ⟨_, (counted_step hs).symm⟩
  refine ⟨h.threads.step he hs, h.began.trans hgrow, ?_, fun r hr hcount => ?_⟩
  · have hreader := h.reader
    dsimp only
    cases hp : s.reader with
    | loadBuckets stats counts =>
      rw [hp] at hreader
      obtain ⟨hcount, hlen, later, hloaded⟩ := hreader
      exact ⟨hcount, hlen, later, hloaded.grow hgrow⟩
    | _ =>
      rw [hp] at hreader
      exact hreader
  · obtain ⟨stats, counts, later, heq, hcount, hlen, hloaded⟩ := h.returned r hr hcount
    exact ⟨stats, counts, later, heq, hcount, hlen, hloaded.grow hgrow⟩

/-- A call returns. -/
theorem StatsOk.returns {s : StatsSys n} {stats : LatencyStats} (hthreads : ThreadsOk s.threads) (hbegan : s.began <+: s.threads.counted)
    (hreturned : ∀ r ∈ s.returned, ReturnedOk s.threads.counted r)
    (hnew : ReturnedOk s.threads.counted { began := s.began, stats := stats }) : StatsOk (s.returns stats) := by
  refine ⟨hthreads, hbegan, trivial, fun r hr => ?_⟩
  rcases List.mem_append.mp hr with hr | hr
  · exact hreturned r hr
  · rw [List.mem_singleton.mp hr]
    exact hnew

theorem StatsOk.load {s : StatsSys n} (h : StatsOk s) : StatsOk s.loadStep := by
  have hreader := h.reader
  unfold StatsSys.loadStep
  cases hp : s.reader with
  | idle =>
    dsimp only
    split
    · exact .returns h.threads List.prefix_rfl h.returned fun hne => absurd rfl hne
    · rename_i hne
      exact ⟨h.threads, List.prefix_rfl, ⟨hne, sampleCount_le h.threads⟩, h.returned⟩
  | loadMin stats =>
    rw [hp] at hreader
    exact ⟨h.threads, h.began, hreader, h.returned⟩
  | loadMax stats =>
    rw [hp] at hreader
    exact ⟨h.threads, h.began, hreader, h.returned⟩
  | loadTotal stats =>
    rw [hp] at hreader
    exact ⟨h.threads, h.began, ⟨hreader, by decide, [], .begin h.began⟩, h.returned⟩
  | loadBuckets stats counts =>
    rw [hp] at hreader
    obtain ⟨hcount, hlen, later, hloaded⟩ := hreader
    obtain ⟨later', hloaded'⟩ := hloaded.load
    dsimp only
    rw [dif_pos hlen, buckets_eq h.threads]
    split
    · rename_i hall
      exact .returns h.threads h.began h.returned fun _ => ⟨stats, _, later', rfl, hcount, hall, hloaded'⟩
    · rename_i hmore
      refine ⟨h.threads, h.began, ⟨hcount, ?_, later', hloaded'⟩, h.returned⟩
      rw [List.length_append, List.length_singleton] at hmore ⊢
      omega

theorem StatsOk.init (n : Nat) : StatsOk (StatsSys.init n) where
  threads := ⟨TrackerInv.init n, ⟨rfl, rfl, fun _ => rfl, nofun⟩, nofun⟩
  began := List.prefix_rfl
  reader := trivial
  returned := nofun

/-- The steps of a run. -/
def AdmittedStep : StatsEvent n → Prop
  | .thread e => Admitted e
  | .load => True

theorem StatsOk.step {s s' : StatsSys n} {e : StatsEvent n} (h : StatsOk s) (he : AdmittedStep e) (hs : s.step e = some s') :
    StatsOk s' := by
  cases e with
  | thread e =>
    obtain ⟨threads, hthreads, rfl⟩ := Option.map_eq_some_iff.mp hs
    exact h.thread he hthreads
  | load =>
    cases hs
    exact h.load

/-! ## The percentiles -/

/-- What the scan finds in counts that are those of some samples, at least as many as the count says. -/
theorem scanBuckets_seen {seen counts : List UInt64} {count : UInt64} (maxNs : UInt64) (hlen : seen.length < 2 ^ 64)
    (hcounts : ∀ m (hm : m < counts.length), counts[m] = UInt64.ofNat (seen.countP fun x => bucketNat x.toNat = m))
    (hall : counts.length = numBuckets) (hpos : 0 < count.toNat) (hle : count.toNat ≤ seen.length) :
    ∃ rank : ℚ → UInt64, (∀ q ∈ LatencyTracker.pctTargets, nthSmallest seen ⌈q * count.toNat⌉₊ = some (rank q)) ∧
      LatencyTracker.scanBuckets count maxNs 0 counts 0 LatencyTracker.pctTargets =
        LatencyTracker.pctTargets.map fun q => bucketToNs (bucketNat (rank q).toNat) := by
  have hexists : ∃ rank : ℚ → UInt64, ∀ q ∈ LatencyTracker.pctTargets, nthSmallest seen ⌈q * count.toNat⌉₊ = some (rank q) := by
    refine ⟨fun q => (nthSmallest seen ⌈q * count.toNat⌉₊).getD 0, fun q hq => ?_⟩
    obtain ⟨x, hx⟩ := exists_rank hpos hle hq
    dsimp only
    rw [hx]
    rfl
  obtain ⟨rank, hrank⟩ := hexists
  refine ⟨rank, hrank, ?_⟩
  have hstart : (0 : UInt64) = UInt64.ofNat (before seen 0) := by
    have hzero : before seen 0 = 0 := List.countP_eq_zero.mpr fun x _ => by simp
    rw [hzero]
    rfl
  rw [hstart]
  refine scanBuckets_eq hlen counts 0 _ pctTargets_sorted (fun m hm => ?_) (fun q hq => ?_) (fun _ _ => Nat.zero_le _) fun q _ => ?_
  · rw [hcounts m hm, Nat.zero_add]
  · exact le_before_iff (pctTargets_pos hq).1 hpos (hrank q hq)
  · rw [hall, Nat.zero_add]
    exact bucketNat_lt _

end ConcurrentStatsAux

open ConcurrentStatsAux

/-- In every run in which threads record, fewer than `2 ^ 64` samples and without a reset, and one thread calls `get_stats` again and again:
a call that finds a sample reports, for each percentile of the count it has loaded, the bucket of that rank among some of the samples,
namely all that were in the buckets when the call began and some that came later; the count is at most the number of the former. So the
percentiles are found, and they are in order. -/
theorem getStats_concurrent (n : Nat) (es : List (StatsEvent n)) (s : StatsSys n)
    (h : Run.exec StatsSys.step (.init n) es = some s) (hreset : .thread .reset ∉ es)
    (hsmall : ∀ i ns, .thread (.record i ns) ∈ es → ns < 10000000) (hlen : s.threads.counted.length < 2 ^ 64)
    (r : StatsReturned) (hr : r ∈ s.returned) (hcount : r.stats.sampleCount ≠ 0) :
    ∃ seen, List.Subperm r.began seen ∧ List.Subperm seen s.threads.counted ∧ r.stats.sampleCount.toNat ≤ r.began.length ∧
      ReportsRank seen r.stats.sampleCount.toNat (50 / 100) r.stats.p50Ns ∧
      ReportsRank seen r.stats.sampleCount.toNat (95 / 100) r.stats.p95Ns ∧
      ReportsRank seen r.stats.sampleCount.toNat (99 / 100) r.stats.p99Ns ∧
      ReportsRank seen r.stats.sampleCount.toNat (999 / 1000) r.stats.p999Ns ∧
      r.stats.p50Ns ≤ r.stats.p95Ns ∧ r.stats.p95Ns ≤ r.stats.p99Ns ∧ r.stats.p99Ns ≤ r.stats.p999Ns := by
  have hadmitted : ∀ e ∈ es, AdmittedStep e := by
    intro e he
    cases e with
    | thread e =>
      cases e with
      | record i ns => exact hsmall i ns he
      | access i spurious => trivial
      | reset => exact hreset he
    | load => trivial
  have hkeep : ∀ (s : StatsSys n) e s', StatsOk s → AdmittedStep e → s.step e = some s' → StatsOk s' := fun _ _ _ hi he hs => hi.step he hs
  have hok : StatsOk s := Run.exec_invariant_along hkeep (StatsOk.init n) (Run.along_of_forall hadmitted _) h
  obtain ⟨stats, counts, later, hstats, hcountOk, hall, hloaded⟩ := hok.returned r hr hcount
  obtain ⟨rest, hrest, hsub⟩ := hloaded.since
  have hseen : List.Subperm (r.began ++ later) s.threads.counted := by
    rw [hrest]
    exact (List.subperm_append_left r.began).mpr hsub
  have hbegan : List.Subperm r.began (r.began ++ later) := (List.sublist_append_left _ _).subperm
  have hsmallSeen : ∀ x ∈ r.began ++ later, x < 10000000 := fun x hx => hok.threads.small x (hseen.subset hx)
  have hpos : 0 < stats.sampleCount.toNat := by
    rw [Nat.pos_iff_ne_zero]
    exact fun hzero => hcountOk.1 (UInt64.toNat_inj.mp hzero)
  obtain ⟨rank, hrank, hscan⟩ := scanBuckets_seen stats.maxNs
    (hseen.length_le.trans_lt hlen) hloaded.counts hall hpos (hcountOk.2.trans hbegan.length_le)
  have hsame : r.stats.sampleCount = stats.sampleCount := by rw [hstats]; rfl
  have hreports : ∀ q ∈ LatencyTracker.pctTargets,
      ReportsRank (r.began ++ later) r.stats.sampleCount.toNat q (bucketToNs (bucketNat (rank q).toNat)) := by
    intro q hq
    rw [hsame]
    exact ⟨rank q, hrank q hq, by rw [bucketFor_eq (hsmallSeen _ (nthSmallest_mem (hrank q hq)))]⟩
  have hmono : ∀ q ∈ LatencyTracker.pctTargets, ∀ q' ∈ LatencyTracker.pctTargets, q ≤ q' →
      bucketToNs (bucketNat (rank q).toNat) ≤ bucketToNs (bucketNat (rank q').toNat) := by
    intro q hq q' hq' hle
    have hx := hsmallSeen _ (nthSmallest_mem (hrank q hq))
    have hy := hsmallSeen _ (nthSmallest_mem (hrank q' hq'))
    rw [← bucketFor_eq hx, ← bucketFor_eq hy]
    refine bucketToNs_mono hy (nthSmallest_mono (Nat.ceil_mono ?_) (hrank q hq) (hrank q' hq'))
    exact mul_le_mul_of_nonneg_right hle (Nat.cast_nonneg _)
  have h50 : (50 / 100 : ℚ) ∈ LatencyTracker.pctTargets := List.mem_cons_self
  have h95 : (95 / 100 : ℚ) ∈ LatencyTracker.pctTargets := List.mem_cons_of_mem _ List.mem_cons_self
  have h99 : (99 / 100 : ℚ) ∈ LatencyTracker.pctTargets := List.mem_cons_of_mem _ (List.mem_cons_of_mem _ List.mem_cons_self)
  have h999 : (999 / 1000 : ℚ) ∈ LatencyTracker.pctTargets :=
    List.mem_cons_of_mem _ (List.mem_cons_of_mem _ (List.mem_cons_of_mem _ List.mem_cons_self))
  have hvalues : r.stats.p50Ns = bucketToNs (bucketNat (rank (50 / 100)).toNat) ∧
      r.stats.p95Ns = bucketToNs (bucketNat (rank (95 / 100)).toNat) ∧
      r.stats.p99Ns = bucketToNs (bucketNat (rank (99 / 100)).toNat) ∧
      r.stats.p999Ns = bucketToNs (bucketNat (rank (999 / 1000)).toNat) := by
    rw [hstats, LatencyStats.withPercentiles, hscan]
    exact ⟨rfl, rfl, rfl, rfl⟩
  obtain ⟨hp50, hp95, hp99, hp999⟩ := hvalues
  refine ⟨r.began ++ later, hbegan, hseen, hsame ▸ hcountOk.2, ?_⟩
  rw [hp50, hp95, hp99, hp999]
  exact ⟨hreports _ h50, hreports _ h95, hreports _ h99, hreports _ h999, hmono _ h50 _ h95 (by norm_num),
    hmono _ h95 _ h99 (by norm_num), hmono _ h99 _ h999 (by norm_num)⟩

namespace ConcurrentStatsAux

/-- A sample of 900 ns is recorded up to the count; the call begins, and while it loads the buckets a sample of 30 ns comes in, whose bucket
it has loaded already. -/
def begunRun : List (StatsEvent 3) :=
  [.thread (.record 0 900), .thread (.access 0 false), .thread (.access 0 false)] ++ List.replicate 72 .load ++ [.thread (.record 1 30)]

/-- The call goes on to its end. -/
def overlappingRun : List (StatsEvent 3) := begunRun ++ List.replicate 540 .load

/-- What the call has loaded by then: the count, but not the minimum and the maximum of the sample. -/
def begunStats : LatencyStats := { sampleCount := 1, minNs := 18446744073709551615, maxNs := 0, meanNs := 900 }

end ConcurrentStatsAux

/-- The run `overlappingRun` meets the hypotheses of `getStats_concurrent`. -/
theorem getStats_concurrent_overlappingRun :
    ∃ s r seen, Run.exec StatsSys.step (.init 3) overlappingRun = some s ∧ r ∈ s.returned ∧ r.began = [900] ∧
      List.Subperm r.began seen ∧ List.Subperm seen s.threads.counted ∧
      ReportsRank seen r.stats.sampleCount.toNat (50 / 100) r.stats.p50Ns ∧ r.stats.p50Ns ≤ r.stats.p95Ns := by
  have hfirst : ∃ s, Run.exec StatsSys.step (.init 3) begunRun = some s ∧ s.threads.counted = [900, 30] ∧ s.began = [900] ∧
      s.reader = .loadBuckets begunStats (List.replicate 68 0) := by decide +kernel
  obtain ⟨s, hfirst, hcounted, hbegan, hreader⟩ := hfirst
  have hrest := StatsThreadsAux.exec_loadBuckets s begunStats 539
    (List.replicate 68 0) (by rw [List.length_replicate]; rfl)
  have hsame : { s with reader := .loadBuckets begunStats (List.replicate 68 0) } = s := by rw [← hreader]
  rw [hsame] at hrest
  generalize hstats : LatencyStats.withPercentiles _ _ = stats at hrest
  have hcount : stats.sampleCount ≠ 0 := by
    have hone : stats.sampleCount = begunStats.sampleCount := by rw [← hstats]; rfl
    rw [hone]
    decide
  have hrun : Run.exec StatsSys.step (.init 3) overlappingRun = some (s.returns stats) :=
    (Run.exec_append hfirst).trans hrest
  have hmem : ⟨[900], stats⟩ ∈ (s.returns stats).returned := by
    unfold StatsSys.returns
    rw [hbegan]
    exact List.mem_append_right _ (List.mem_singleton.mpr rfl)
  have hreset : .thread .reset ∉ overlappingRun := by
    intro he
    simp only [overlappingRun, begunRun, List.mem_append, List.mem_cons, List.not_mem_nil, or_false, List.mem_replicate,
      reduceCtorEq, and_false, StatsEvent.thread.injEq] at he
  have hsmall : ∀ i ns, .thread (.record i ns) ∈ overlappingRun → ns < 10000000 := by
    intro i ns he
    simp only [overlappingRun, begunRun, List.mem_append, List.mem_cons, List.not_mem_nil, or_false, List.mem_replicate,
      reduceCtorEq, and_false, StatsEvent.thread.injEq, TrackerEvent.record.injEq] at he
    rcases he with ⟨-, rfl⟩ | ⟨-, rfl⟩ <;> decide
  have hlen : (s.returns stats).threads.counted.length < 2 ^ 64 := by
    have hthreads : (s.returns stats).threads = s.threads := rfl
    rw [hthreads, hcounted]
    decide
  obtain ⟨seen, hsub, hsub', -, h50, -, -, -, hle, -⟩ := getStats_concurrent 3 overlappingRun (s.returns stats) hrun hreset hsmall
    hlen ⟨[900], stats⟩ hmem hcount
  exact ⟨s.returns stats, ⟨[900], stats⟩, seen, hrun, hmem, rfl, hsub, hsub', h50, hle⟩

end MarketFeed
