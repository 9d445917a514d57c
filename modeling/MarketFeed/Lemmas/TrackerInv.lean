import MarketFeed.LatencyThreads

/-!
# What the tracker holds while threads are in `record` and `reset`

A call of `record` belongs to the number of resets that had cleared its bucket when it counted its sample. A counter holds the samples
of the calls that belong to its own number of resets, less those whose threads still have to add to it. So long as each call makes its
other additions to fields cleared just as often, this is kept by every step, also by those of a `reset` in progress.
-/

namespace MarketFeed

/-! ## The condition on the steps -/

namespace TrackerSys

variable {n : Nat}

/-- The field that a thread is done with by its next access. -/
def finishes (s : TrackerSys n) (i : Fin n) (spurious : Bool) : Option TrackerField :=
  match s.pcs i with
  | .idle => none
  | .addTotal _ => some (.counter .total)
  | .addCount _ => some (.counter .count)
  | .load e ns => if e.Beats ns (s.tracker.extreme e) then none else some (.extreme e)
  | .exchange e ns cur =>
    if (s.tracker.extreme e = cur ∧ spurious = false) ∨ ¬ e.Beats ns (s.tracker.extreme e) then some (.extreme e) else none

/-- As many resets have cleared the field as had cleared the bucket of the call; the minimum and the maximum may be behind more. -/
def SameSide (s : TrackerSys n) (i : Fin n) : TrackerField → Prop
  | .counter c => s.callResets i = s.cleared (.counter c)
  | .extreme e => s.callResets i ≤ s.cleared (.extreme e)

instance (s : TrackerSys n) (i : Fin n) : ∀ f, Decidable (s.SameSide i f)
  | .counter _ => inferInstanceAs (Decidable (_ = _))
  | .extreme _ => inferInstanceAs (Decidable (_ ≤ _))

/-- No call of `record` is on one side of a reset with its bucket and on the other with what it does to another field: it adds to
fields that have been cleared as often, and is not done with the minimum or the maximum before a reset that its bucket is behind. -/
def OneSide (s : TrackerSys n) : TrackerEvent n → Prop
  | .access i spurious => ∀ f ∈ s.finishes i spurious, s.SameSide i f
  | _ => True

instance (s : TrackerSys n) : ∀ e, Decidable (s.OneSide e)
  | .record _ _ => isTrue trivial
  | .access i spurious => Option.decidableForallMem (s.finishes i spurious)
  | .reset => isTrue trivial

end TrackerSys

namespace TrackerInvAux

open LatencyThreadsAux

variable {n : Nat}

/-! ## Counters -/

/-- What a sample adds to a counter. -/
def weight : TrackerCounter → UInt64 → Nat
  | .bucket b, ns => if InBucket b ns then 1 else 0
  | .total, ns => ns.toNat
  | .count, _ => 1

/-- The sample with which a thread still has to update a field. -/
def pending : RecordPc → TrackerField → Option UInt64
  | .addTotal _, .counter (.bucket _) => none
  | .addTotal ns, _ => some ns
  | .addCount _, .counter (.bucket _) => none
  | .addCount _, .counter .total => none
  | .addCount ns, _ => some ns
  | .load .min ns, .extreme _ => some ns
  | .load .max ns, .extreme .max => some ns
  | .exchange .min ns _, .extreme _ => some ns
  | .exchange .max ns _, .extreme .max => some ns
  | _, _ => none

/-- What a thread still has to add to a counter for the calls that belong to a number of resets. -/
def debt (s : TrackerSys n) (c : TrackerCounter) (r : Nat) (i : Fin n) : Nat :=
  if s.callResets i = r then (pending (s.pcs i) (.counter c)).elim 0 (weight c) else 0

/-- What all threads still have to add. -/
def owed (s : TrackerSys n) (c : TrackerCounter) (r : Nat) : Nat := ∑ i, debt s c r i

/-- What the samples counted add up to. -/
def made (s : TrackerSys n) (c : TrackerCounter) (r : Nat) : Nat := ((s.samplesAt r).map (weight c)).sum

/-- A counter holds what the calls that belong to its number of resets have added so far, and nobody has added anything for a reset
that has not cleared it yet. -/
structure CounterOk (s : TrackerSys n) (c : TrackerCounter) : Prop where
  value : ∃ m, s.tracker.counter c = UInt64.ofNat m ∧
    m + owed s c (s.cleared (.counter c)) = made s c (s.cleared (.counter c))
  later : ∀ r, s.cleared (.counter c) < r → owed s c r = made s c r

/-- A sample that counts is no better than the minimum or maximum, or its thread still has to compare it. -/
def ExtremeOk (s : TrackerSys n) (e : Extreme) : Prop :=
  ∀ p ∈ s.recorded, s.cleared (.extreme e) ≤ p.1 →
    (p.1 = s.cleared (.extreme e) ∧ ¬ e.Beats p.2 (s.tracker.extreme e)) ∨
      ∃ i, s.callResets i = p.1 ∧ pending (s.pcs i) (.extreme e) = some p.2

/-- The invariant. -/
structure TrackerInv (s : TrackerSys n) : Prop where
  counters : ∀ c, CounterOk s c
  extremes : ∀ e, ExtremeOk s e
  exchange : ∀ i e ns cur, s.pcs i = .exchange e ns cur → e.Beats ns cur
  stores : s.stores < numStores

/-- A new tracker: nothing has been counted and nobody owes anything. -/
theorem TrackerInv.init (n : Nat) : TrackerInv (TrackerSys.init n) where
  counters := fun c => by
    have howed : ∀ r, owed (TrackerSys.init n) c r = 0 := fun r => by
      unfold owed debt
      exact Finset.sum_eq_zero fun i _ => ite_self 0
    refine ⟨⟨0, ?_, ?_⟩, fun r _ => howed r⟩
    · cases c <;> rfl
    · rw [howed]
      rfl
  extremes := fun _ => nofun
  exchange := fun _ _ _ _ => nofun
  stores := (by decide : 0 < numStores)

/-! ## An access -/

/-- Of two sums that differ in one place. -/
theorem sum_add_of_eq_off {g g' : Fin n → Nat} (i : Fin n) (h : ∀ j, j ≠ i → g' j = g j) : ∑ j, g' j + g i = ∑ j, g j + g' i := by
  have hrest : ∑ j ∈ Finset.univ.erase i, g' j = ∑ j ∈ Finset.univ.erase i, g j :=
    Finset.sum_congr rfl fun j hj => h j (Finset.ne_of_mem_erase hj)
  rw [← Finset.add_sum_erase _ g' (Finset.mem_univ i), ← Finset.add_sum_erase _ g (Finset.mem_univ i), hrest]
  omega

/-- A thread's step leaves what the others owe. -/
theorem debt_advance_of_ne (s : TrackerSys n) {i j : Fin n} (hj : j ≠ i) (k : LatencyTracker) (pc : RecordPc) (c : TrackerCounter)
    (r : Nat) : debt (s.advance i k pc) c r j = debt s c r j := by
  unfold debt
  rw [advance_pcs_of_ne _ hj]
  rfl

/-- What is owed changes by what the thread owes before and after its step. -/
theorem owed_advance (s : TrackerSys n) (i : Fin n) (k : LatencyTracker) (pc : RecordPc) (c : TrackerCounter) (r : Nat) :
    owed (s.advance i k pc) c r + debt s c r i = owed s c r + debt (s.advance i k pc) c r i :=
  sum_add_of_eq_off i fun _ hj => debt_advance_of_ne s hj k pc c r

/-- After its step the thread owes what its new place says. -/
theorem debt_advance (s : TrackerSys n) (i : Fin n) (k : LatencyTracker) (pc : RecordPc) (c : TrackerCounter) (r : Nat) :
    debt (s.advance i k pc) c r i = if s.callResets i = r then (pending pc (.counter c)).elim 0 (weight c) else 0 := by
  unfold debt
  rw [advance_pcs_self]
  rfl

/-- An access that has nothing to do with the counter. -/
theorem CounterOk.advance_other {s : TrackerSys n} {c : TrackerCounter} (h : CounterOk s c) {i : Fin n} {k : LatencyTracker}
    {pc : RecordPc} (hpc : pending pc (.counter c) = pending (s.pcs i) (.counter c)) (hk : k.counter c = s.tracker.counter c) :
    CounterOk (s.advance i k pc) c := by
  have howed : ∀ r, owed (s.advance i k pc) c r = owed s c r := fun r => by
    have hsum := owed_advance s i k pc c r
    have hdebt : debt (s.advance i k pc) c r i = debt s c r i := by
      rw [debt_advance, hpc]
      rfl
    omega
  obtain ⟨m, hm, hsum⟩ := h.value
  refine ⟨⟨m, hk.trans hm, ?_⟩, fun r hr => (howed r).trans (h.later r hr)⟩
  rw [howed]
  exact hsum

/-- The addition to the counter, by a call that belongs to as many resets as have cleared it. -/
theorem CounterOk.advance_add {s : TrackerSys n} {c : TrackerCounter} (h : CounterOk s c) {i : Fin n} {k : LatencyTracker}
    {pc : RecordPc} {ns : UInt64} (hbefore : pending (s.pcs i) (.counter c) = some ns) (hafter : pending pc (.counter c) = none)
    (hk : k.counter c = s.tracker.counter c + UInt64.ofNat (weight c ns)) (hside : s.callResets i = s.cleared (.counter c)) :
    CounterOk (s.advance i k pc) c := by
  have hdebt : ∀ r, debt s c r i = if s.callResets i = r then weight c ns else 0 := fun r => by
    unfold debt
    rw [hbefore]
    rfl
  have hpaid : ∀ r, debt (s.advance i k pc) c r i = 0 := fun r => by
    rw [debt_advance, hafter]
    exact ite_self 0
  obtain ⟨m, hm, hsum⟩ := h.value
  refine ⟨⟨m + weight c ns, ?_, ?_⟩, ?_⟩
  · rw [UInt64.ofNat_add, ← hm]
    exact hk
  · have hadv := owed_advance s i k pc c (s.cleared (.counter c))
    rw [hdebt, hpaid, if_pos hside] at hadv
    change m + weight c ns + owed (s.advance i k pc) c (s.cleared (.counter c)) = made s c (s.cleared (.counter c))
    omega
  · intro r hr
    change s.cleared (.counter c) < r at hr
    have hadv := owed_advance s i k pc c r
    rw [hdebt, hpaid, if_neg (by omega)] at hadv
    exact hadv.trans (h.later r hr)

/-! ## Minimum and maximum -/

/-- No value beats itself. -/
theorem beats_irrefl (e : Extreme) (a : UInt64) : ¬ e.Beats a a := by
  cases e <;> exact UInt64.lt_irrefl a

/-- What does not beat a value does not beat a better one either. -/
theorem not_beats_of_beats {e : Extreme} {a b v : UInt64} (hb : e.Beats b v) (ha : ¬ e.Beats a v) : ¬ e.Beats a b := by
  cases e with
  | min => exact fun hab => ha (UInt64.lt_trans hab hb)
  | max => exact fun hab => ha (UInt64.lt_trans hb hab)

/-- An access after which the value is at least as good as before, and whose thread, if it is done with the value, has a sample that
does not beat it, or one that does not count any more. -/
theorem ExtremeOk.advance {s : TrackerSys n} {e : Extreme} (h : ExtremeOk s e) {i : Fin n} {k : LatencyTracker} {pc : RecordPc}
    (hk : ∀ x, ¬ e.Beats x (s.tracker.extreme e) → ¬ e.Beats x (k.extreme e))
    (hpc : ∀ x, pending (s.pcs i) (.extreme e) = some x → pending pc (.extreme e) = some x ∨
      s.callResets i ≤ s.cleared (.extreme e) ∧ ¬ e.Beats x (k.extreme e)) :
    ExtremeOk (s.advance i k pc) e := by
  intro p hp hle
  rcases h p hp hle with ⟨hr, hbeats⟩ | ⟨j, hj, hpend⟩
  · exact .inl ⟨hr, hk _ hbeats⟩
  · rcases eq_or_ne j i with rfl | hne
    · rcases hpc _ hpend with hstill | ⟨hside, hdone⟩
      · refine .inr ⟨j, hj, ?_⟩
        rw [advance_pcs_self]
        exact hstill
      · exact .inl ⟨Nat.le_antisymm (hj ▸ hside) hle, hdone⟩
    · refine .inr ⟨j, hj, ?_⟩
      rw [advance_pcs_of_ne _ hne]
      exact hpend

/-- An access that has nothing to do with the minimum or maximum. -/
theorem ExtremeOk.advance_other {s : TrackerSys n} {e : Extreme} (h : ExtremeOk s e) {i : Fin n} {k : LatencyTracker} {pc : RecordPc}
    (hk : k.extreme e = s.tracker.extreme e) (hpc : pending pc (.extreme e) = pending (s.pcs i) (.extreme e)) :
    ExtremeOk (s.advance i k pc) e :=
  h.advance (fun _ hx => hk ▸ hx) fun _ hx => .inl (hpc.trans hx)

/-- The field that is written has the value written. -/
theorem extreme_setExtreme (k : LatencyTracker) (e : Extreme) (v : UInt64) : (k.setExtreme e v).extreme e = v := by
  cases e <;> rfl

/-- The other one keeps its value. -/
theorem extreme_setExtreme_of_ne (k : LatencyTracker) {e e' : Extreme} (h : e' ≠ e) (v : UInt64) :
    (k.setExtreme e v).extreme e' = k.extreme e' := by
  cases e <;> cases e' <;> first | rfl | exact absurd rfl h

/-- The counters keep theirs. -/
theorem counter_setExtreme (k : LatencyTracker) (e : Extreme) (v : UInt64) (c : TrackerCounter) :
    (k.setExtreme e v).counter c = k.counter c := by
  cases e <;> cases c <;> rfl

/-! ## What a thread in a loop has pending -/

/-- A thread in the loop of `e`. -/
def InLoop (e : Extreme) (ns : UInt64) (pc : RecordPc) : Prop := pc = .load e ns ∨ ∃ cur, pc = .exchange e ns cur

/-- A sample that beats the value just loaded goes on to the exchange. -/
theorem InLoop.compare {e : Extreme} {ns cur : UInt64} (h : e.Beats ns cur) : InLoop e ns (.compare e ns cur) := by
  unfold RecordPc.compare
  rw [if_pos h]
  exact .inr ⟨cur, rfl⟩

/-- In the loop of a field the sample is still to be stored there. -/
theorem InLoop.pending_self {e : Extreme} {ns : UInt64} {pc : RecordPc} (h : InLoop e ns pc) : pending pc (.extreme e) = some ns := by
  rcases h with rfl | ⟨cur, rfl⟩ <;> cases e <;> rfl

/-- In the loops nothing is owed to a counter any more. -/
theorem InLoop.pending_counter {e : Extreme} {ns : UInt64} {pc : RecordPc} (h : InLoop e ns pc) (c : TrackerCounter) :
    pending pc (.counter c) = none := by
  rcases h with rfl | ⟨cur, rfl⟩ <;> cases e <;> rfl

/-- Inside the loop and behind it the same is pending for the other value. -/
theorem InLoop.pending_other {e e' : Extreme} {ns : UInt64} {pc pc' : RecordPc} (h : InLoop e ns pc)
    (h' : InLoop e ns pc' ∨ pc' = .afterLoop e ns) (hne : e' ≠ e) : pending pc' (.extreme e') = pending pc (.extreme e') := by
  rcases h with rfl | ⟨cur, rfl⟩ <;> rcases h' with (rfl | ⟨cur', rfl⟩) | rfl <;> cases e <;> cases e' <;>
    first | rfl | exact absurd rfl hne

/-- Nor is it behind them. -/
theorem pending_afterLoop_counter (e : Extreme) (ns : UInt64) (c : TrackerCounter) :
    pending (.afterLoop e ns) (.counter c) = none := by
  cases e <;> rfl

/-- A step inside the loop of `e` or out of it. -/
theorem TrackerInv.advance_loop {s : TrackerSys n} (h : TrackerInv s) {i : Fin n} {e : Extreme} {ns : UInt64} {pc : RecordPc}
    {k : LatencyTracker} (hloop : InLoop e ns (s.pcs i)) (hpc : InLoop e ns pc ∨ pc = .afterLoop e ns)
    (hcounter : ∀ c, k.counter c = s.tracker.counter c) (hother : ∀ e', e' ≠ e → k.extreme e' = s.tracker.extreme e')
    (hk : ∀ x, ¬ e.Beats x (s.tracker.extreme e) → ¬ e.Beats x (k.extreme e))
    (hdone : InLoop e ns pc ∨ s.callResets i ≤ s.cleared (.extreme e) ∧ ¬ e.Beats ns (k.extreme e))
    (hexchange : ∀ e' ns' cur, pc = .exchange e' ns' cur → e'.Beats ns' cur) : TrackerInv (s.advance i k pc) where
  counters := fun c => by
    refine (h.counters c).advance_other ?_ (hcounter c)
    rw [hloop.pending_counter]
    rcases hpc with hpc | rfl
    · exact hpc.pending_counter c
    · exact pending_afterLoop_counter e ns c
  extremes := fun e' => by
    rcases eq_or_ne e' e with rfl | hne
    · refine (h.extremes e').advance hk fun x hx => ?_
      rw [hloop.pending_self] at hx
      cases hx
      rcases hdone with hin | hdone
      · exact .inl hin.pending_self
      · exact .inr hdone
    · exact (h.extremes e').advance_other (hother e' hne) (hloop.pending_other hpc hne)
  exchange := fun j e' ns' cur hj => by
    rcases eq_or_ne j i with rfl | hne
    · rw [advance_pcs_self] at hj
      exact hexchange e' ns' cur hj
    · rw [advance_pcs_of_ne _ hne] at hj
      exact h.exchange j e' ns' cur hj
  stores := h.stores

/-- The comparison with a value just loaded. -/
theorem TrackerInv.compare {s : TrackerSys n} (h : TrackerInv s) {i : Fin n} {e : Extreme} {ns : UInt64}
    (hloop : InLoop e ns (s.pcs i)) (hside : ¬ e.Beats ns (s.tracker.extreme e) → s.callResets i ≤ s.cleared (.extreme e)) :
    TrackerInv (s.advance i s.tracker (.compare e ns (s.tracker.extreme e))) := by
  by_cases hbeats : e.Beats ns (s.tracker.extreme e)
  · have hin := InLoop.compare hbeats
    refine h.advance_loop hloop (.inl hin) (fun _ => rfl) (fun _ _ => rfl) (fun _ hx => hx) (.inl hin) ?_
    intro e' ns' cur hpc
    unfold RecordPc.compare at hpc
    rw [if_pos hbeats] at hpc
    cases hpc
    exact hbeats
  · have hpc : RecordPc.compare e ns (s.tracker.extreme e) = .afterLoop e ns := if_neg hbeats
    rw [hpc]
    refine h.advance_loop hloop (.inr rfl) (fun _ => rfl) (fun _ _ => rfl) (fun _ hx => hx) (.inr ⟨hside hbeats, hbeats⟩) ?_
    intro e' ns' cur hpc'
    cases e <;> cases hpc'

/-- The exchange of the value for a better sample. -/
theorem TrackerInv.exchanged {s : TrackerSys n} (h : TrackerInv s) {i : Fin n} {e : Extreme} {ns : UInt64}
    (hloop : InLoop e ns (s.pcs i)) (hbeats : e.Beats ns (s.tracker.extreme e))
    (hside : s.callResets i ≤ s.cleared (.extreme e)) :
    TrackerInv (s.advance i (s.tracker.setExtreme e ns) (.afterLoop e ns)) := by
  refine h.advance_loop hloop (.inr rfl) (counter_setExtreme _ _ _) (fun e' hne => extreme_setExtreme_of_ne _ hne _) ?_ (.inr ?_) ?_
  · intro x hx
    rw [extreme_setExtreme]
    exact not_beats_of_beats hbeats hx
  · rw [extreme_setExtreme]
    exact ⟨hside, beats_irrefl e ns⟩
  · intro e' ns' cur hpc
    cases e <;> cases hpc

/-! ## The access of a thread -/

/-- The addition to a counter. -/
theorem TrackerInv.advance_add {s : TrackerSys n} (h : TrackerInv s) {i : Fin n} {c : TrackerCounter} {ns : UInt64} {pc : RecordPc}
    {k : LatencyTracker} (hbefore : pending (s.pcs i) (.counter c) = some ns) (hafter : pending pc (.counter c) = none)
    (hpc : ∀ f, f ≠ .counter c → pending pc f = pending (s.pcs i) f)
    (hk : k.counter c = s.tracker.counter c + UInt64.ofNat (weight c ns))
    (hother : ∀ c', c' ≠ c → k.counter c' = s.tracker.counter c') (hextreme : ∀ e, k.extreme e = s.tracker.extreme e)
    (hside : s.callResets i = s.cleared (.counter c)) (hexchange : ∀ e ns' cur, pc ≠ .exchange e ns' cur) :
    TrackerInv (s.advance i k pc) where
  counters := fun c' => by
    rcases eq_or_ne c' c with rfl | hne
    · exact (h.counters c').advance_add hbefore hafter hk hside
    · exact (h.counters c').advance_other (hpc _ fun heq => hne (TrackerField.counter.inj heq)) (hother c' hne)
  extremes := fun e => (h.extremes e).advance_other (hextreme e) (hpc _ nofun)
  exchange := fun j e ns' cur hj => by
    rcases eq_or_ne j i with rfl | hne
    · rw [advance_pcs_self] at hj
      exact absurd hj (hexchange e ns' cur)
    · rw [advance_pcs_of_ne _ hne] at hj
      exact h.exchange j e ns' cur hj
  stores := h.stores

/-- An access keeps the invariant, if the field that it finishes is on the same side of every reset as the bucket of the call. -/
theorem TrackerInv.accessStep {s s' : TrackerSys n} (h : TrackerInv s) {i : Fin n} {spurious : Bool}
    (hside : s.OneSide (.access i spurious)) (hs : s.accessStep i spurious = some s') : TrackerInv s' := by
  unfold TrackerSys.accessStep at hs
  have hside : ∀ f, s.finishes i spurious = some f → s.SameSide i f := fun f hf => hside f hf
  unfold TrackerSys.finishes at hside
  cases hpc : s.pcs i with
  | idle =>
    rw [hpc] at hs
    cases hs
  | addTotal ns =>
    rw [hpc] at hs hside
    cases hs
    have hbefore : pending (s.pcs i) (.counter .total) = some ns := hpc ▸ rfl
    refine h.advance_add hbefore rfl ?_ ?_ ?_ (fun e => ?_) (hside _ rfl) nofun
    · rintro ((b | - | -) | e) hne
      · rw [hpc]; rfl
      · exact absurd rfl hne
      · rw [hpc]; rfl
      · rw [hpc]; rfl
    · change s.tracker.totalNs + ns = s.tracker.totalNs + UInt64.ofNat ns.toNat
      rw [UInt64.ofNat_toNat]
    · rintro (b | - | -) hne <;> first | rfl | exact absurd rfl hne
    · cases e <;> rfl
  | addCount ns =>
    rw [hpc] at hs hside
    cases hs
    have hbefore : pending (s.pcs i) (.counter .count) = some ns := hpc ▸ rfl
    refine h.advance_add hbefore rfl ?_ rfl ?_ (fun e => ?_) (hside _ rfl) nofun
    · rintro ((b | - | -) | e) hne
      · rw [hpc]; rfl
      · rw [hpc]; rfl
      · exact absurd rfl hne
      · rw [hpc]; rfl
    · rintro (b | - | -) hne <;> first | rfl | exact absurd rfl hne
    · cases e <;> rfl
  | load e ns =>
    rw [hpc] at hs hside
    cases hs
    exact h.compare (hpc ▸ .inl rfl) fun hbeats => hside _ (if_neg hbeats)
  | exchange e ns cur =>
    rw [hpc] at hs hside
    have hloop : InLoop e ns (s.pcs i) := hpc ▸ .inr ⟨cur, rfl⟩
    dsimp only at hs hside
    split at hs <;> rename_i hswap
    · cases hs
      exact h.exchanged hloop (hswap.1 ▸ h.exchange i e ns cur hpc) (hside _ (if_pos (.inl hswap)))
    · cases hs
      exact h.compare hloop fun hbeats => hside _ (if_pos (.inr hbeats))

/-! ## The start of a call -/

/-- The state after the addition to a bucket. -/
def started (s : TrackerSys n) (i : Fin n) (b : Fin numBuckets) (ns : UInt64) : TrackerSys n :=
  { s.advance i (s.tracker.addToBucket b) (.addTotal ns) with
    callResets := Function.update s.callResets i (s.cleared (.counter (.bucket b)))
    recorded := s.recorded ++ [(s.cleared (.counter (.bucket b)), ns)] }

/-- The first addition clears nothing. -/
theorem started_cleared (s : TrackerSys n) (i : Fin n) (b : Fin numBuckets) (ns : UInt64) (f : TrackerField) :
    (started s i b ns).cleared f = s.cleared f := rfl

/-- The thread goes on with `total_ns_`. -/
theorem started_pcs_self (s : TrackerSys n) (i : Fin n) (b : Fin numBuckets) (ns : UInt64) :
    (started s i b ns).pcs i = .addTotal ns := advance_pcs_self s i (s.tracker.addToBucket b) _

/-- The other threads stay where they are. -/
theorem started_pcs_of_ne (s : TrackerSys n) {i j : Fin n} (h : j ≠ i) (b : Fin numBuckets) (ns : UInt64) :
    (started s i b ns).pcs j = s.pcs j := advance_pcs_of_ne s h (s.tracker.addToBucket b) _

/-- The call belongs to the resets that have cleared its bucket so far. -/
theorem started_callResets_self (s : TrackerSys n) (i : Fin n) (b : Fin numBuckets) (ns : UInt64) :
    (started s i b ns).callResets i = s.cleared (.counter (.bucket b)) := Function.update_self ..

/-- The other calls belong where they did. -/
theorem started_callResets_of_ne (s : TrackerSys n) {i j : Fin n} (h : j ≠ i) (b : Fin numBuckets) (ns : UInt64) :
    (started s i b ns).callResets j = s.callResets j := Function.update_of_ne h ..

/-- The sample is one more for that number of resets. -/
theorem samplesAt_started (s : TrackerSys n) (i : Fin n) (b : Fin numBuckets) (ns : UInt64) (r : Nat) :
    (started s i b ns).samplesAt r = s.samplesAt r ++ if s.cleared (.counter (.bucket b)) = r then [ns] else [] := by
  unfold started TrackerSys.samplesAt
  dsimp only
  rw [List.filter_append, List.map_append, List.filter_singleton]
  split_ifs <;> simp_all

/-- It adds its weight to what the samples of that number of resets make. -/
theorem made_started (s : TrackerSys n) (i : Fin n) (b : Fin numBuckets) (ns : UInt64) (c : TrackerCounter) (r : Nat) :
    made (started s i b ns) c r = made s c r + if s.cleared (.counter (.bucket b)) = r then weight c ns else 0 := by
  unfold made
  rw [samplesAt_started, List.map_append, List.sum_append]
  split_ifs <;> simp

/-- The thread owes its weight to the counters that come later. -/
theorem owed_started {s : TrackerSys n} {i : Fin n} (hi : s.pcs i = .idle) (b : Fin numBuckets) (ns : UInt64) (c : TrackerCounter)
    (r : Nat) : owed (started s i b ns) c r =
      owed s c r + if s.cleared (.counter (.bucket b)) = r then (pending (.addTotal ns) (.counter c)).elim 0 (weight c) else 0 := by
  have hidle : debt s c r i = 0 := by
    unfold debt
    rw [hi]
    exact ite_self 0
  have hself : debt (started s i b ns) c r i =
      if s.cleared (.counter (.bucket b)) = r then (pending (.addTotal ns) (.counter c)).elim 0 (weight c) else 0 := by
    unfold debt
    rw [started_pcs_self, started_callResets_self]
  have hsum : owed (started s i b ns) c r + debt s c r i = owed s c r + debt (started s i b ns) c r i := by
    refine sum_add_of_eq_off i fun j hj => ?_
    unfold debt
    rw [started_pcs_of_ne _ hj, started_callResets_of_ne _ hj]
  rw [hidle, hself] at hsum
  exact hsum

/-- A counter to which the call owes nothing afterwards has what the sample adds to it. -/
theorem counter_addToBucket (k : LatencyTracker) (b : Fin numBuckets) {ns : UInt64} (hb : InBucket b ns) {c : TrackerCounter}
    (hc : pending (.addTotal ns) (.counter c) = none) : (k.addToBucket b).counter c = k.counter c + UInt64.ofNat (weight c ns) := by
  cases c with
  | bucket b' =>
    unfold LatencyTracker.addToBucket LatencyTracker.counter weight
    dsimp only
    rcases eq_or_ne b' b with rfl | hne
    · rw [Function.update_self, if_pos hb]
      rfl
    · have hnot : ¬ InBucket b' ns := fun hb' => hne (Option.some.inj (hb'.symm.trans hb))
      rw [Function.update_of_ne hne, if_neg hnot]
      exact (UInt64.add_zero _).symm
  | total => cases hc
  | count => cases hc

/-- The first addition of a call keeps what is known of a counter: what the sample adds to it is there, or owed from now on. -/
theorem CounterOk.started {s : TrackerSys n} {c : TrackerCounter} (h : CounterOk s c) {i : Fin n} (hi : s.pcs i = .idle)
    {b : Fin numBuckets} {ns : UInt64} (hb : InBucket b ns) : CounterOk (started s i b ns) c := by
  obtain ⟨m, hm, hsum⟩ := h.value
  cases hpend : pending (.addTotal ns) (.counter c) with
  | some x =>
    -- the thread still owes what the sample adds
    have hx : x = ns ∧ (s.tracker.addToBucket b).counter c = s.tracker.counter c := by
      cases c <;> cases hpend <;> exact ⟨rfl, rfl⟩
    obtain ⟨rfl, hsame⟩ := hx
    refine ⟨⟨m, hsame.trans hm, ?_⟩, fun r hr => ?_⟩
    · rw [owed_started hi, made_started, hpend]
      exact (Nat.add_assoc _ _ _).symm.trans (congrArg (· + _) hsum)
    · rw [owed_started hi, made_started, hpend]
      exact congrArg (· + _) (h.later r hr)
  | none =>
    have howed : ∀ r, owed (TrackerInvAux.started s i b ns) c r = owed s c r := fun r => by
      rw [owed_started hi, hpend]
      exact (congrArg _ (ite_self 0)).trans (Nat.add_zero _)
    have hadd := counter_addToBucket s.tracker b hb hpend
    by_cases hc : c = .bucket b
    · subst hc
      refine ⟨⟨m + weight (.bucket b) ns, ?_, ?_⟩, fun r hr => ?_⟩
      · rw [UInt64.ofNat_add, ← hm]
        exact hadd
      · rw [howed, made_started, started_cleared, if_pos rfl]
        omega
      · rw [started_cleared] at hr
        rw [howed, made_started, if_neg hr.ne]
        exact h.later r hr
    · have hzero : weight c ns = 0 := by
        cases c with
        | bucket b' => exact if_neg fun hb' => hc (congrArg _ (Option.some.inj (hb'.symm.trans hb)))
        | total => cases hpend
        | count => cases hpend
      have hmade : ∀ r, made (TrackerInvAux.started s i b ns) c r = made s c r := fun r => by
        rw [made_started, hzero]
        exact (congrArg _ (ite_self 0)).trans (Nat.add_zero _)
      rw [hzero] at hadd
      refine ⟨⟨m, ?_, ?_⟩, fun r hr => ?_⟩
      · exact hadd.trans ((UInt64.add_zero _).trans hm)
      · rw [howed, hmade]
        exact hsum
      · rw [howed, hmade]
        exact h.later r hr

/-- It keeps what is known of the minimum and the maximum: the thread still has to compare its sample. -/
theorem ExtremeOk.started {s : TrackerSys n} {e : Extreme} (h : ExtremeOk s e) {i : Fin n} (hi : s.pcs i = .idle)
    (b : Fin numBuckets) (ns : UInt64) : ExtremeOk (started s i b ns) e := by
  intro p hp hle
  rcases List.mem_append.mp hp with hp | hp
  · rcases h p hp hle with ⟨hr, hbeats⟩ | ⟨j, hj, hpend⟩
    · refine .inl ⟨hr, ?_⟩
      cases e <;> exact hbeats
    · have hne : j ≠ i := by
        rintro rfl
        rw [hi] at hpend
        cases hpend
      refine .inr ⟨j, ?_, ?_⟩
      · rw [started_callResets_of_ne s hne]
        exact hj
      · rw [started_pcs_of_ne s hne]
        exact hpend
  · rw [List.mem_singleton.mp hp]
    refine .inr ⟨i, started_callResets_self s i b ns, ?_⟩
    rw [started_pcs_self]
    rfl

/-- The call of `record` keeps the invariant. -/
theorem TrackerInv.recordStep {s s' : TrackerSys n} (h : TrackerInv s) {i : Fin n} {ns : UInt64}
    (hs : s.recordStep i ns = some s') : TrackerInv s' := by
  unfold TrackerSys.recordStep at hs
  split at hs
  · rename_i hi
    obtain ⟨b, hb, rfl⟩ := Option.map_eq_some_iff.mp hs
    refine ⟨fun c => (h.counters c).started hi hb, fun e => (h.extremes e).started hi b ns, ?_, h.stores⟩
    intro j e ns' cur hj
    rcases eq_or_ne j i with rfl | hne
    · cases (started_pcs_self s j b ns).symm.trans hj
    · exact h.exchange j e ns' cur ((started_pcs_of_ne s hne b ns).symm.trans hj)
  · cases hs

/-! ## A store of `reset` -/

/-- Each field has its place among the stores of `reset`. -/
theorem store_lt (f : TrackerField) : f.store < numStores := by
  rcases f with (b | - | -) | - | -
  · exact b.isLt.trans (by decide)
  all_goals decide

/-- The field at a place is stored at that place. -/
theorem store_ofStore {m : Nat} (hm : m < numStores) : (TrackerField.ofStore m).store = m := by
  unfold numStores at hm
  unfold TrackerField.ofStore
  split_ifs with hbucket h608 h609 h610
  · rfl
  · exact h608.symm
  · exact h609.symm
  · exact h610.symm
  · unfold numBuckets at hbucket
    change 611 = m
    omega

/-- And each place belongs to one field. -/
theorem ofStore_store (f : TrackerField) : TrackerField.ofStore f.store = f := by
  rcases f with (b | - | -) | - | -
  · exact dif_pos b.isLt
  all_goals rfl

/-- A store of `reset` counts on, and starts again behind the last. -/
theorem resetStep_stores (s : TrackerSys n) : s.resetStep.stores = if s.stores + 1 = numStores then 0 else s.stores + 1 := by
  unfold TrackerSys.resetStep
  dsimp only
  split <;> rfl

/-- The last store completes a reset. -/
theorem resetStep_resets (s : TrackerSys n) :
    s.resetStep.resets = if s.stores + 1 = numStores then s.resets + 1 else s.resets := by
  unfold TrackerSys.resetStep
  dsimp only
  split <;> rfl

/-- A store of `reset` clears one field once more. -/
theorem cleared_resetStep {s : TrackerSys n} (hs : s.stores < numStores) (f : TrackerField) :
    s.resetStep.cleared f = s.cleared f + if f = .ofStore s.stores then 1 else 0 := by
  have hf := store_lt f
  have hiff : f = .ofStore s.stores ↔ f.store = s.stores := by
    constructor
    · rintro rfl
      exact store_ofStore hs
    · intro heq
      rw [← heq, ofStore_store]
  unfold TrackerSys.cleared
  rw [resetStep_stores, resetStep_resets]
  simp only [hiff]
  split_ifs <;> omega

/-- A store makes its counter 0 and leaves the others. -/
theorem counter_clear (k : LatencyTracker) (f : TrackerField) (c : TrackerCounter) :
    (k.clear f).counter c = if .counter c = f then 0 else k.counter c := by
  rcases f with (b | - | -) | - | - <;> cases c <;> try rfl
  rename_i b'
  unfold LatencyTracker.clear LatencyTracker.counter
  dsimp only
  rcases eq_or_ne b' b with rfl | hne
  · rw [Function.update_self, if_pos rfl]
  · rw [Function.update_of_ne hne, if_neg]
    rintro heq
    cases heq
    exact hne rfl

/-- A store to another field leaves the minimum or the maximum. -/
theorem extreme_clear_of_ne (k : LatencyTracker) {f : TrackerField} {e : Extreme} (h : .extreme e ≠ f) :
    (k.clear f).extreme e = k.extreme e := by
  rcases f with (b | - | -) | - | - <;> cases e <;> first | rfl | exact absurd rfl h

/-- What a store of `reset` does to the tracker. -/
theorem resetStep_tracker (s : TrackerSys n) : s.resetStep.tracker = s.tracker.clear (.ofStore s.stores) := by
  unfold TrackerSys.resetStep
  dsimp only
  split <;> rfl

/-- It leaves the threads where they are, -/
theorem resetStep_pcs (s : TrackerSys n) : s.resetStep.pcs = s.pcs := by
  unfold TrackerSys.resetStep
  dsimp only
  split <;> rfl

/-- their calls where they belong, -/
theorem resetStep_callResets (s : TrackerSys n) : s.resetStep.callResets = s.callResets := by
  unfold TrackerSys.resetStep
  dsimp only
  split <;> rfl

/-- and the samples counted. -/
theorem resetStep_recorded (s : TrackerSys n) : s.resetStep.recorded = s.recorded := by
  unfold TrackerSys.resetStep
  dsimp only
  split <;> rfl

/-- So nobody owes more or less, -/
theorem owed_resetStep (s : TrackerSys n) (c : TrackerCounter) (r : Nat) : owed s.resetStep c r = owed s c r := by
  unfold owed debt
  rw [resetStep_pcs, resetStep_callResets]

/-- and the samples make what they did. -/
theorem made_resetStep (s : TrackerSys n) (c : TrackerCounter) (r : Nat) : made s.resetStep c r = made s c r := by
  unfold made TrackerSys.samplesAt
  rw [resetStep_recorded]

/-- A store of `reset` keeps the invariant: the counter it clears starts at 0, and what the calls behind the reset have made is all still
owed. -/
theorem TrackerInv.resetStep {s : TrackerSys n} (h : TrackerInv s) : TrackerInv s.resetStep where
  counters := fun c => by
    obtain ⟨m, hm, hsum⟩ := (h.counters c).value
    have hlater := (h.counters c).later
    have hcleared := cleared_resetStep h.stores (.counter c)
    by_cases hc : .counter c = TrackerField.ofStore s.stores
    · rw [if_pos hc] at hcleared
      refine ⟨⟨0, ?_, ?_⟩, fun r hr => ?_⟩
      · rw [resetStep_tracker, counter_clear, if_pos hc]
        rfl
      · rw [owed_resetStep, made_resetStep, Nat.zero_add]
        exact hlater _ (by omega)
      · rw [owed_resetStep, made_resetStep]
        exact hlater _ (by omega)
    · rw [if_neg hc, Nat.add_zero] at hcleared
      refine ⟨⟨m, ?_, ?_⟩, fun r hr => ?_⟩
      · rw [resetStep_tracker, counter_clear, if_neg hc]
        exact hm
      · rw [owed_resetStep, made_resetStep, hcleared]
        exact hsum
      · rw [owed_resetStep, made_resetStep]
        exact hlater _ (by omega)
  extremes := fun e => by
    intro p hp hle
    have hcleared := cleared_resetStep h.stores (.extreme e)
    rw [resetStep_recorded] at hp
    rw [resetStep_tracker, resetStep_pcs, resetStep_callResets]
    by_cases he : .extreme e = TrackerField.ofStore s.stores
    · rw [if_pos he] at hcleared
      rcases h.extremes e p hp (by omega) with ⟨hr, -⟩ | hpend
      · omega
      · exact .inr hpend
    · rw [if_neg he, Nat.add_zero] at hcleared
      rw [extreme_clear_of_ne _ he]
      rw [hcleared] at hle ⊢
      exact h.extremes e p hp hle
  exchange := fun i e ns cur hi => by
    rw [resetStep_pcs] at hi
    exact h.exchange i e ns cur hi
  stores := by
    have hs := h.stores
    rw [resetStep_stores]
    split_ifs <;> omega

/-- Every step keeps the invariant, so long as no call of `record` is on both sides of a reset. -/
theorem TrackerInv.step {s s' : TrackerSys n} (h : TrackerInv s) {e : TrackerEvent n} (hside : s.OneSide e) (hs : s.step e = some s') :
    TrackerInv s' := by
  cases e with
  | record i ns => exact h.recordStep hs
  | access i spurious => exact h.accessStep hside hs
  | reset =>
    cases hs
    exact h.resetStep

/-! ## When nobody is in a call -/

/-- Every field is as often cleared as there were resets. -/
theorem cleared_of_quiescent {s : TrackerSys n} (hs : s.stores = 0) (f : TrackerField) : s.cleared f = s.resets := by
  unfold TrackerSys.cleared
  rw [hs]
  rfl

/-- When no thread is in a call, nothing is owed. -/
theorem owed_of_idle {s : TrackerSys n} (hs : ∀ i, s.pcs i = .idle) (c : TrackerCounter) (r : Nat) : owed s c r = 0 := by
  unfold owed debt
  refine Finset.sum_eq_zero fun i _ => ?_
  rw [hs i]
  exact ite_self 0

/-- The counters hold the samples of the calls behind all resets. -/
theorem TrackerInv.counter_eq {s : TrackerSys n} (h : TrackerInv s) (hq : s.Quiescent) (c : TrackerCounter) :
    s.tracker.counter c = UInt64.ofNat (made s c s.resets) := by
  obtain ⟨m, hm, hsum⟩ := (h.counters c).value
  rw [cleared_of_quiescent hq.1, owed_of_idle hq.2, Nat.add_zero] at hsum
  rw [hm, hsum]

/-- None of these samples beats the minimum or the maximum. -/
theorem TrackerInv.not_beats {s : TrackerSys n} (h : TrackerInv s) (hq : s.Quiescent) (e : Extreme) :
    ∀ x ∈ s.samplesAt s.resets, ¬ e.Beats x (s.tracker.extreme e) := by
  intro x hx
  obtain ⟨p, hp, rfl⟩ := List.mem_map.mp hx
  obtain ⟨hp, hr⟩ := List.mem_filter.mp hp
  have hr : p.1 = s.resets := of_decide_eq_true hr
  rcases h.extremes e p hp (by rw [cleared_of_quiescent hq.1, hr]) with ⟨-, hbeats⟩ | ⟨i, -, hpend⟩
  · exact hbeats
  · rw [hq.2 i] at hpend
    cases hpend

/-! ## What the samples add up to -/

/-- What the samples make in a bucket is the number of those that belong there. -/
theorem made_bucket (s : TrackerSys n) (b : Fin numBuckets) (r : Nat) :
    made s (.bucket b) r = (s.samplesAt r).countP fun x => InBucket b x := by
  unfold made
  induction s.samplesAt r with
  | nil => rfl
  | cons x xs ih =>
    simp only [List.map_cons, List.sum_cons, ih, List.countP_cons, weight, decide_eq_true_eq]
    exact Nat.add_comm _ _

/-- What they make in `sample_count_` is how many they are. -/
theorem made_count (s : TrackerSys n) (r : Nat) : made s .count r = (s.samplesAt r).length := by
  unfold made weight
  rw [List.map_const', List.sum_replicate, smul_eq_mul, Nat.mul_one]

/-! ## The samples counted -/

/-- An access changes the tracker and the place of its thread. -/
theorem accessStep_eq_advance {s s' : TrackerSys n} {i : Fin n} {spurious : Bool} (hs : s.accessStep i spurious = some s') :
    ∃ k pc, s' = s.advance i k pc := by
  unfold TrackerSys.accessStep at hs
  split at hs
  · cases hs
  · exact ⟨_, _, (Option.some.inj hs).symm⟩
  · exact ⟨_, _, (Option.some.inj hs).symm⟩
  · exact ⟨_, _, (Option.some.inj hs).symm⟩
  · split at hs
    · exact ⟨_, _, (Option.some.inj hs).symm⟩
    · exact ⟨_, _, (Option.some.inj hs).symm⟩

/-- The samples counted are those of the calls, also after resets. -/
theorem recorded_exec {es : List (TrackerEvent n)} {s t : TrackerSys n} (h : Run.exec TrackerSys.step s es = some t) :
    t.recorded.map (·.2) = s.recorded.map (·.2) ++ TrackerSys.samplesOf es := by
  induction es generalizing s with
  | nil =>
    cases h
    exact (List.append_nil _).symm
  | cons e es ih =>
    obtain ⟨s', hs', h'⟩ := Run.exec_cons_eq_some.mp h
    rw [ih h']
    cases e with
    | record i ns =>
      simp only [TrackerSys.step, TrackerSys.recordStep] at hs'
      split at hs'
      · obtain ⟨b, -, rfl⟩ := Option.map_eq_some_iff.mp hs'
        dsimp only [TrackerSys.samplesOf]
        rw [List.map_append, List.append_assoc]
        rfl
      · cases hs'
    | access i spurious =>
      obtain ⟨k, pc, rfl⟩ := accessStep_eq_advance hs'
      rfl
    | reset =>
      cases hs'
      rw [resetStep_recorded]
      rfl

end TrackerInvAux

end MarketFeed
