import MarketFeed.LatencyTracker

/-!
# The latency tracker between threads

Any number of threads call `record`, and one thread calls `reset`. Each atomic access is a step. What a thread computes without the
tracker belongs to the access before it or behind it: a call of `record` starts with the addition to a bucket, and a load is taken
together with the comparison of the value loaded.
-/

namespace MarketFeed

/-! ## Fields -/

/-- A field that `record` adds to. -/
inductive TrackerCounter where
  | bucket (b : Fin numBuckets)
  | total
  | count
  deriving DecidableEq, Repr

/-- A field that `record` exchanges in a loop: `min_ns_` or `max_ns_`. -/
inductive Extreme where
  | min
  | max
  deriving DecidableEq, Repr

/-- An atomic of the tracker. -/
inductive TrackerField where
  | counter (c : TrackerCounter)
  | extreme (e : Extreme)
  deriving DecidableEq, Repr

/-- The condition of the loop: the sample is to replace the value loaded. -/
def Extreme.Beats : Extreme → UInt64 → UInt64 → Prop
  | .min, ns, cur => ns < cur
  | .max, ns, cur => ns > cur

instance : ∀ (e : Extreme) (ns cur : UInt64), Decidable (e.Beats ns cur)
  | .min, ns, cur => inferInstanceAs (Decidable (ns < cur))
  | .max, ns, cur => inferInstanceAs (Decidable (ns > cur))

/-- The number of the stores of `reset`. -/
def numStores : Nat := 612

/-- The field that a store of `reset` clears. -/
def TrackerField.ofStore (n : Nat) : TrackerField :=
  if h : n < numBuckets then .counter (.bucket ⟨n, h⟩)
  else if n = 608 then .counter .total
  else if n = 609 then .counter .count
  else if n = 610 then .extreme .min
  else .extreme .max

/-- The store of `reset` that clears a field. -/
def TrackerField.store : TrackerField → Nat
  | .counter (.bucket b) => b
  | .counter .total => 608
  | .counter .count => 609
  | .extreme .min => 610
  | .extreme .max => 611

namespace LatencyTracker

/-- The value of a counter. -/
def counter (k : LatencyTracker) : TrackerCounter → UInt64
  | .bucket b => k.buckets b
  | .total => k.totalNs
  | .count => k.sampleCount

/-- The value of `min_ns_` or `max_ns_`. -/
def extreme (k : LatencyTracker) : Extreme → UInt64
  | .min => k.minNs
  | .max => k.maxNs

/-- A store to `min_ns_` or `max_ns_`. -/
def setExtreme (k : LatencyTracker) : Extreme → UInt64 → LatencyTracker
  | .min, v => { k with minNs := v }
  | .max, v => { k with maxNs := v }

/-- A store of `reset`. -/
def clear (k : LatencyTracker) : TrackerField → LatencyTracker
  | .counter (.bucket b) => { k with buckets := Function.update k.buckets b 0 }
  | .counter .total => { k with totalNs := 0 }
  | .counter .count => { k with sampleCount := 0 }
  | .extreme .min => { k with minNs := uint64Max }
  | .extreme .max => { k with maxNs := 0 }

end LatencyTracker

/-! ## Threads -/

/-- Where a thread is in `record`: before an addition, before the first load of a loop, or before an exchange with the value it
expects. -/
inductive RecordPc where
  | idle
  | addTotal (ns : UInt64)
  | addCount (ns : UInt64)
  | load (e : Extreme) (ns : UInt64)
  | exchange (e : Extreme) (ns cur : UInt64)
  deriving DecidableEq, Repr

/-- Behind the loop. -/
def RecordPc.afterLoop : Extreme → UInt64 → RecordPc
  | .min, ns => .load .max ns
  | .max, _ => .idle

/-- The condition of the loop, on the value loaded. -/
def RecordPc.compare (e : Extreme) (ns cur : UInt64) : RecordPc := if e.Beats ns cur then .exchange e ns cur else .afterLoop e ns

/-- The tracker, the threads that record, and the number of stores that a `reset` in progress has made, 0 when there is none. On the
side: how many resets are over, for each thread the number of resets that had cleared its bucket when its call counted the sample, and
with that number all the samples counted. -/
structure TrackerSys (n : Nat) where
  tracker : LatencyTracker
  pcs : Fin n → RecordPc
  stores : Nat
  resets : Nat
  callResets : Fin n → Nat
  recorded : List (Nat × UInt64)

/-- A step: the start of a call of `record`, an access of a thread (an exchange may fail for no reason), or a store of `reset`. -/
inductive TrackerEvent (n : Nat) where
  | record (i : Fin n) (ns : UInt64)
  | access (i : Fin n) (spurious : Bool)
  | reset
  deriving DecidableEq, Repr

namespace TrackerSys

variable {n : Nat}

/-- Before the threads start. -/
def init (n : Nat) : TrackerSys n :=
  { tracker := .fresh, pcs := fun _ => .idle, stores := 0, resets := 0, callResets := fun _ => 0, recorded := [] }

/-- How many resets have cleared a field. -/
def cleared (s : TrackerSys n) (f : TrackerField) : Nat := s.resets + if f.store < s.stores then 1 else 0

/-- A thread goes on, with what its access has made of the tracker. -/
def advance (s : TrackerSys n) (i : Fin n) (k : LatencyTracker) (pc : RecordPc) : TrackerSys n :=
  { s with tracker := k, pcs := Function.update s.pcs i pc }

/-- The start of `record`, up to the addition to a bucket. -/
def recordStep (s : TrackerSys n) (i : Fin n) (ns : UInt64) : Option (TrackerSys n) :=
  if s.pcs i = .idle then
    (bucketSlot (bucketFor ns)).map fun b =>
      let r := s.cleared (.counter (.bucket b))
      { s.advance i (s.tracker.addToBucket b) (.addTotal ns) with
        callResets := Function.update s.callResets i r
        recorded := s.recorded ++ [(r, ns)] }
  else none

/-- The next access of a thread in `record`. -/
def accessStep (s : TrackerSys n) (i : Fin n) (spurious : Bool) : Option (TrackerSys n) :=
  match s.pcs i with
  | .idle => none
  | .addTotal ns => some (s.advance i { s.tracker with totalNs := s.tracker.totalNs + ns } (.addCount ns))
  | .addCount ns => some (s.advance i { s.tracker with sampleCount := s.tracker.sampleCount + 1 } (.load .min ns))
  | .load e ns => some (s.advance i s.tracker (.compare e ns (s.tracker.extreme e)))
  | .exchange e ns cur =>
    if s.tracker.extreme e = cur ∧ spurious = false then some (s.advance i (s.tracker.setExtreme e ns) (.afterLoop e ns))
    else some (s.advance i s.tracker (.compare e ns (s.tracker.extreme e)))

/-- The next store of `reset`. -/
def resetStep (s : TrackerSys n) : TrackerSys n :=
  let s := { s with tracker := s.tracker.clear (.ofStore s.stores), stores := s.stores + 1 }
  if s.stores = numStores then { s with stores := 0, resets := s.resets + 1 } else s

/-- A step. -/
def step (s : TrackerSys n) : TrackerEvent n → Option (TrackerSys n)
  | .record i ns => s.recordStep i ns
  | .access i spurious => s.accessStep i spurious
  | .reset => some s.resetStep

/-- No `record` and no `reset` is in progress. -/
def Quiescent (s : TrackerSys n) : Prop := s.stores = 0 ∧ ∀ i, s.pcs i = .idle

/-- The samples counted when so many resets had cleared their bucket. -/
def samplesAt (s : TrackerSys n) (r : Nat) : List UInt64 := (s.recorded.filter (·.1 = r)).map (·.2)

/-- The samples of the calls of `record` in a run. -/
def samplesOf (es : List (TrackerEvent n)) : List UInt64 :=
  es.filterMap fun
    | .record _ ns => some ns
    | _ => none

end TrackerSys

/-! ## The steps of a call -/

namespace LatencyThreadsAux

variable {n : Nat}

/-- A thread gets from one state to the other with no step of another thread between its own. -/
def Accesses (i : Fin n) (s t : TrackerSys n) : Prop := ∃ m, Run.exec TrackerSys.step s (List.replicate m (.access i false)) = some t

/-- One access, -/
theorem Accesses.single {i : Fin n} {s t : TrackerSys n} (h : s.accessStep i false = some t) : Accesses i s t :=
  ⟨1, Run.exec_cons_eq_some.mpr ⟨t, h, rfl⟩⟩

/-- and some accesses after others. -/
theorem Accesses.trans {i : Fin n} {s t u : TrackerSys n} (hst : Accesses i s t) (htu : Accesses i t u) : Accesses i s u := by
  obtain ⟨m, hm⟩ := hst
  obtain ⟨m', hm'⟩ := htu
  refine ⟨m + m', ?_⟩
  rw [List.replicate_add, Run.exec_append hm, hm']

@[simp] theorem advance_advance (s : TrackerSys n) (i : Fin n) (k k' : LatencyTracker) (pc pc' : RecordPc) :
    (s.advance i k pc).advance i k' pc' = s.advance i k' pc' := by
  unfold TrackerSys.advance
  dsimp only
  rw [Function.update_idem]

@[simp] theorem advance_pcs_self (s : TrackerSys n) (i : Fin n) (k : LatencyTracker) (pc : RecordPc) :
    (s.advance i k pc).pcs i = pc := Function.update_self ..

@[simp] theorem advance_pcs_of_ne (s : TrackerSys n) {i j : Fin n} (h : j ≠ i) (k : LatencyTracker) (pc : RecordPc) :
    (s.advance i k pc).pcs j = s.pcs j := Function.update_of_ne h ..

/-- The access that adds the sample to the total. -/
theorem accessStep_addTotal (s : TrackerSys n) (i : Fin n) (k : LatencyTracker) (ns : UInt64) (spurious : Bool) :
    (s.advance i k (.addTotal ns)).accessStep i spurious = some (s.advance i { k with totalNs := k.totalNs + ns } (.addCount ns)) := by
  unfold TrackerSys.accessStep
  rw [advance_pcs_self]
  dsimp only
  rw [advance_advance]
  rfl

/-- The access that counts it. -/
theorem accessStep_addCount (s : TrackerSys n) (i : Fin n) (k : LatencyTracker) (ns : UInt64) (spurious : Bool) :
    (s.advance i k (.addCount ns)).accessStep i spurious =
      some (s.advance i { k with sampleCount := k.sampleCount + 1 } (.load .min ns)) := by
  unfold TrackerSys.accessStep
  rw [advance_pcs_self]
  dsimp only
  rw [advance_advance]
  rfl

/-- The value that a loop leaves. -/
def settled (e : Extreme) (ns cur : UInt64) : UInt64 := if e.Beats ns cur then ns else cur

/-- A loop of which nothing else sees the steps. -/
theorem accesses_loop (s : TrackerSys n) (i : Fin n) (k : LatencyTracker) (e : Extreme) (ns : UInt64) :
    Accesses i (s.advance i k (.load e ns)) (s.advance i (k.setExtreme e (settled e ns (k.extreme e))) (.afterLoop e ns)) := by
  have hload : (s.advance i k (.load e ns)).accessStep i false = some (s.advance i k (.compare e ns (k.extreme e))) := by
    unfold TrackerSys.accessStep
    rw [advance_pcs_self]
    dsimp only
    rw [advance_advance]
    rfl
  unfold settled
  unfold RecordPc.compare at hload
  split_ifs at hload ⊢ with hbeats
  · refine (Accesses.single hload).trans (Accesses.single ?_)
    unfold TrackerSys.accessStep
    rw [advance_pcs_self]
    dsimp only
    rw [advance_advance]
    exact if_pos ⟨rfl, rfl⟩
  · have hsame : k.setExtreme e (k.extreme e) = k := by cases e <;> rfl
    rw [hsame]
    exact Accesses.single hload

end LatencyThreadsAux

open LatencyThreadsAux

/-- The steps of `record`, one after the other, are the call. -/
theorem exec_record {n : Nat} {s : TrackerSys n} {i : Fin n} (hi : s.pcs i = .idle) {ns : UInt64} {k : LatencyTracker}
    (hk : s.tracker.record ns = some k) :
    ∃ m t, Run.exec TrackerSys.step s (.record i ns :: List.replicate m (.access i false)) = some t ∧ t.tracker = k ∧
      t.pcs = s.pcs := by
  obtain ⟨b, hb, rfl⟩ := Option.map_eq_some_iff.mp hk
  generalize hu : ({ s with
    callResets := Function.update s.callResets i (s.cleared (.counter (.bucket b)))
    recorded := s.recorded ++ [(s.cleared (.counter (.bucket b)), ns)] } : TrackerSys n) = u
  have hstart : s.step (.record i ns) = some (u.advance i (s.tracker.addToBucket b) (.addTotal ns)) := by
    simp only [TrackerSys.step, TrackerSys.recordStep, if_pos hi, hb, Option.map_some, ← hu]
    rfl
  obtain ⟨m, hm⟩ := (Accesses.single (accessStep_addTotal u i _ ns false)).trans <|
    (Accesses.single (accessStep_addCount u i _ ns false)).trans <| (accesses_loop u i _ .min ns).trans (accesses_loop u i _ .max ns)
  refine ⟨m, _, Run.exec_cons_eq_some.mpr ⟨_, hstart, hm⟩, rfl, ?_⟩
  subst hu
  exact Function.update_eq_self_iff.mpr hi.symm

namespace LatencyThreadsAux

/-- After the first stores of `reset`. -/
def clearedTo (k : LatencyTracker) (m : Nat) : LatencyTracker where
  buckets := fun b => if b < m then 0 else k.buckets b
  totalNs := if 608 < m then 0 else k.totalNs
  sampleCount := if 609 < m then 0 else k.sampleCount
  minNs := if 610 < m then uint64Max else k.minNs
  maxNs := if 611 < m then 0 else k.maxNs

/-- When all has been stored, the tracker is as new. -/
theorem clearedTo_numStores (k : LatencyTracker) : clearedTo k numStores = .fresh :=
  LatencyTracker.ext (funext fun b => if_pos (b.isLt.trans (by decide))) rfl rfl rfl rfl

/-- Behind the last bucket nothing changes in the buckets any more. -/
theorem clearedTo_buckets_succ (k : LatencyTracker) {m : Nat} (hm : numBuckets ≤ m) :
    (clearedTo k m).buckets = (clearedTo k (m + 1)).buckets := by
  funext b
  have hb := b.isLt
  exact if_congr (by omega) rfl rfl

/-- The stores of `reset`, one after the other. -/
theorem clear_clearedTo (k : LatencyTracker) {m : Nat} (hm : m < numStores) :
    (clearedTo k m).clear (.ofStore m) = clearedTo k (m + 1) := by
  unfold numStores at hm
  by_cases hbucket : m < numBuckets
  · unfold TrackerField.ofStore
    rw [dif_pos hbucket]
    unfold numBuckets at hbucket
    refine LatencyTracker.ext (funext fun b => ?_) ?_ ?_ ?_ ?_
    · unfold LatencyTracker.clear
      dsimp only
      rcases eq_or_ne b ⟨m, hbucket⟩ with rfl | hb
      · rw [Function.update_self]
        exact (if_pos (Nat.lt_succ_self m)).symm
      · have hne : (b : Nat) ≠ m := fun heq => hb (Fin.ext heq)
        rw [Function.update_of_ne hb]
        exact if_congr (by omega) rfl rfl
    all_goals exact if_congr (by omega) rfl rfl
  · have hbuckets := clearedTo_buckets_succ k (Nat.not_lt.mp hbucket)
    have hlast : m = 608 ∨ m = 609 ∨ m = 610 ∨ m = 611 := by
      unfold numBuckets at hbucket
      omega
    rcases hlast with rfl | rfl | rfl | rfl
    all_goals exact LatencyTracker.ext hbuckets rfl rfl rfl rfl

/-- A `reset` that has made some of its stores makes the others. -/
theorem exec_clearedTo (s : TrackerSys n) (k : LatencyTracker) (d : Nat) :
    ∀ m, m + (d + 1) = numStores → Run.exec TrackerSys.step { s with tracker := clearedTo k m, stores := m }
      (List.replicate (d + 1) .reset) = some { s with tracker := .fresh, stores := 0, resets := s.resets + 1 } := by
  induction d with
  | zero =>
    intro m hm
    refine Run.exec_cons_eq_some.mpr ⟨_, rfl, ?_⟩
    unfold TrackerSys.resetStep
    dsimp only
    rw [if_pos hm, clear_clearedTo k (by omega), hm, clearedTo_numStores]
    rfl
  | succ d ih =>
    intro m hm
    refine Run.exec_cons_eq_some.mpr ⟨_, rfl, ?_⟩
    unfold TrackerSys.resetStep
    dsimp only
    rw [if_neg (by omega), clear_clearedTo k (by omega)]
    exact ih (m + 1) (by omega)

end LatencyThreadsAux

/-- The steps of `reset`, one after the other, are the call. -/
theorem exec_reset {n : Nat} {s : TrackerSys n} (hs : s.stores = 0) :
    Run.exec TrackerSys.step s (List.replicate numStores .reset) =
      some { s with tracker := s.tracker.reset, resets := s.resets + 1 } := by
  have hall := exec_clearedTo s s.tracker 611 0 rfl
  obtain ⟨tracker, pcs, stores, resets, callResets, recorded⟩ := s
  cases hs
  exact hall

end MarketFeed
