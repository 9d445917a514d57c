import MarketFeed.CheckedLoop

/-!
# When the arithmetic of the tick loop is defined

A remainder by the number of symbols needs a symbol, and `main` lets 0 through. The division by the rate is safe, and the time of a
batch is a second at most: a second at a rate of one tick per second, less at any other. So only there can a `tv_nsec` be 10^9, when no
time has passed on the clock.
-/

namespace MarketFeed

open ExchangeSimulatorAux

variable {c : TickConfig}

/-- The arithmetic so far is defined: no division or remainder by zero, each tick for a symbol of the generator and with one message,
a time for the batch that fits, and each `tv_nsec` below 10^9. -/
def ArithmeticOk : Except ArithmeticFault (CheckedLoop c) → Prop
  | .error _ => False
  | .ok s => (∀ t ∈ s.ticks, t.1.toUInt32 < c.numSymbols ∧ t.2 = 1) ∧ c.nsPerTick.toNat * c.batchSize.toNat < 2 ^ 64 ∧
      ∀ tv ∈ s.sleeps, tv ≤ 999999999

/-- A tick needs a symbol, and a batch at one tick per second needs some time. -/
def ArithmeticStep : Except ArithmeticFault (CheckedLoop c) → CheckedEvent → Prop
  | .ok _, .tick _ _ _ => c.numSymbols ≠ 0
  | .ok s, .endBatch _ _ batchEnd => ¬(c.tickRate ≤ 1 ∧ batchEnd = s.batchStart)
  | _, _ => True

namespace TickArithmeticAux

/-! ## The time of a batch -/

/-- The rate is never 0, so the divisions by it are defined. -/
theorem rate_pos (c : TickConfig) : c.rate ≠ 0 := by
  unfold TickConfig.rate
  split
  · decide
  · assumption

/-- The time per tick times the size of a batch, in natural numbers. -/
theorem batch_time_le {r : Nat} (hr : 2 ≤ r) : 1000000000 / r * max 1 (r / 100) ≤ 999999999 := by
  have hmul := Nat.div_mul_le_self 1000000000 r
  by_cases hsmall : r / 100 ≤ 1
  · have hhalf : 1000000000 / r ≤ 1000000000 / 2 := Nat.div_le_div_left hr (by decide)
    rw [max_eq_left hsmall, Nat.mul_one]
    omega
  · have hbatch : 1000000000 / r * (r / 100) * 100 ≤ 1000000000 / r * r := by
      rw [Nat.mul_assoc]
      exact Nat.mul_le_mul_left _ (Nat.div_mul_le_self r 100)
    rw [max_eq_right (by omega)]
    omega

/-- The time of a tick, as a number. -/
theorem nsPerTick_toNat (c : TickConfig) : c.nsPerTick.toNat = 1000000000 / c.rate.toNat := by
  unfold TickConfig.nsPerTick
  rw [UInt64.toNat_div, UInt32.toNat_toUInt64]
  rfl

/-- The size of a batch, as a number. -/
theorem batchSize_toNat (c : TickConfig) : c.batchSize.toNat = max 1 (c.rate.toNat / 100) := by
  have hdiv : (c.rate / 100).toNat = c.rate.toNat / 100 := UInt32.toNat_div ..
  have hone : (1 : UInt32).toNat = 1 := rfl
  have hmax : c.batchSize = if 1 ≤ c.rate / 100 then c.rate / 100 else 1 := rfl
  rw [← hdiv, hmax]
  split <;> rename_i h
  · have hnat := UInt32.le_iff_toNat_le.mp h
    omega
  · have hnat : ¬(1 : UInt32).toNat ≤ (c.rate / 100).toNat := fun hle => h (UInt32.le_iff_toNat_le.mpr hle)
    omega

/-- The time of a batch is a second at one tick per second, and less otherwise. -/
theorem batch_time (c : TickConfig) :
    c.nsPerTick.toNat * c.batchSize.toNat = 1000000000 ∧ c.tickRate ≤ 1 ∨
      c.nsPerTick.toNat * c.batchSize.toNat ≤ 999999999 ∧ ¬c.tickRate ≤ 1 := by
  have hone : (1 : UInt32).toNat = 1 := rfl
  rw [nsPerTick_toNat, batchSize_toNat]
  by_cases hle : c.tickRate ≤ 1
  · have hrate : c.rate.toNat = 1 := by
      have hnat := UInt32.le_iff_toNat_le.mp hle
      unfold TickConfig.rate
      split <;> rename_i hzero
      · rfl
      · have hpos : c.tickRate.toNat ≠ 0 := fun h => hzero (UInt32.toNat_inj.mp h)
        omega
    left
    rw [hrate]
    exact ⟨by decide, hle⟩
  · have hrate : 2 ≤ c.rate.toNat := by
      have hnat : ¬c.tickRate.toNat ≤ 1 := fun h => hle (UInt32.le_iff_toNat_le.mpr h)
      have hne : c.tickRate ≠ 0 := by
        intro hzero
        rw [hzero] at hle
        exact hle (by decide)
      unfold TickConfig.rate
      rw [if_neg hne]
      omega
    right
    exact ⟨batch_time_le hrate, hle⟩

/-- The product of the two does not wrap, -/
theorem expected_fits (c : TickConfig) : c.nsPerTick.toNat * c.batchSize.toNat < 2 ^ 64 := by
  rcases batch_time c with ⟨h, -⟩ | ⟨h, -⟩ <;> omega

/-- so the time of a batch is what it should be. -/
theorem expected_toNat (c : TickConfig) : c.expected.toNat = c.nsPerTick.toNat * c.batchSize.toNat := by
  unfold TickConfig.expected
  rw [UInt64.toNat_mul, UInt32.toNat_toUInt64, Nat.mod_eq_of_lt (expected_fits c)]

/-- The `tv_nsec` of a sleep is in range unless the whole second of a batch is left. -/
theorem limit_iff {s : CheckedLoop c} {batchEnd : UInt64} (hclock : ¬batchEnd < s.batchStart)
    (h : ∀ tv ∈ s.sleeps, tv ≤ 999999999) :
    (∀ tv ∈ (s.limit batchEnd).sleeps, tv ≤ 999999999) ↔ ¬(c.tickRate ≤ 1 ∧ batchEnd = s.batchStart) := by
  have hle : s.batchStart ≤ batchEnd := UInt64.not_lt.mp hclock
  have helapsed : (batchEnd - s.batchStart).toNat = batchEnd.toNat - s.batchStart.toNat := UInt64.toNat_sub_of_le _ _ hle
  have hstart := UInt64.le_iff_toNat_le.mp hle
  have hexpected := expected_toNat c
  have hsame : batchEnd = s.batchStart ↔ batchEnd.toNat - s.batchStart.toNat = 0 := by
    rw [← UInt64.toNat_inj]
    omega
  rw [hsame]
  unfold CheckedLoop.limit
  dsimp only
  by_cases hlt : batchEnd - s.batchStart < c.expected
  · have hltNat := UInt64.lt_iff_toNat_lt.mp hlt
    have hsleep : (c.expected - (batchEnd - s.batchStart)).toNat =
        c.nsPerTick.toNat * c.batchSize.toNat - (batchEnd.toNat - s.batchStart.toNat) := by
      rw [UInt64.toNat_sub_of_le _ _ (UInt64.le_of_lt hlt), hexpected, helapsed]
    rw [if_pos hlt]
    dsimp only
    rw [List.forall_mem_append, List.forall_mem_singleton, and_iff_right h, UInt64.le_iff_toNat_le, hsleep]
    have hmax : (999999999 : UInt64).toNat = 999999999 := rfl
    rw [hmax]
    rcases batch_time c with ⟨htime, hrate⟩ | ⟨htime, hrate⟩
    · rw [htime, and_iff_right hrate]
      omega
    · exact iff_of_true (by omega) (fun hboth => hrate hboth.1)
  · -- the batch took as long as it should, which is not no time
    rw [if_neg hlt]
    refine iff_of_true h ?_
    rintro ⟨hrate, hzero⟩
    refine hlt (UInt64.lt_iff_toNat_lt.mpr ?_)
    rcases batch_time c with ⟨htime, -⟩ | ⟨-, hrate'⟩
    · omega
    · exact absurd hrate hrate'

/-! ## Steps -/

/-- A tick of the loop emits one message, for a symbol of the generator. -/
theorem tick_emits {s : CheckedLoop c} (hpos : c.numSymbols ≠ 0) {fault : Bool} {draw : Draw} {nowNs : UInt64}
    {l : TickLoop c.symbols} (hs : s.loop.step (.tick fault draw nowNs) = some l) :
    (s.loop.symbolIdx % c.numSymbols).toUInt16.toUInt32 < c.numSymbols ∧ l.emitted.length - s.loop.emitted.length = 1 := by
  have hval : c.symbols.val = c.numSymbols := by
    unfold TickConfig.symbols
    rw [dif_neg hpos]
  have hlt := symbol_lt c.symbols s.loop.symbolIdx
  have hone : ∀ seq, ∃ m, generateTick c.symbols (s.loop.symbolIdx % c.symbols.val).toUInt16 seq nowNs draw = some m := by
    intro seq
    unfold generateTick
    rw [dif_pos hlt]
    cases draw with
    | quote payload => exact ⟨_, rfl⟩
    | trade payload => exact ⟨_, rfl⟩
  refine ⟨hval ▸ hlt, ?_⟩
  simp only [TickLoop.step] at hs
  split at hs
  · split at hs
    · cases hs
      unfold TickLoop.tick
      dsimp only
      obtain ⟨m, hm⟩ := hone (if (fault && decide (s.loop.seq % 100 = 99)) = true then s.loop.seq + 2 else s.loop.seq)
      rw [hm]
      simp
    · cases hs
  · cases hs

/-- A step keeps the arithmetic in order exactly when it has the symbol, or the time, that it divides by. -/
theorem arithmetic_step {s s' : Except ArithmeticFault (CheckedLoop c)} {e : CheckedEvent} (h : ArithmeticOk s)
    (hs : CheckedLoop.step s e = some s') : ArithmeticOk s' ↔ ArithmeticStep s e := by
  cases s with
  | error fault => exact h.elim
  | ok s =>
    obtain ⟨hticks, hexpected, hsleeps⟩ := h
    cases e with
    | stop =>
      cases hs
      exact iff_of_true ⟨hticks, hexpected, hsleeps⟩ trivial
    | batch batchStart =>
      simp only [CheckedLoop.step] at hs
      obtain ⟨l, -, rfl⟩ := Option.map_eq_some_iff.mp hs
      rw [if_neg (rate_pos c)]
      exact iff_of_true ⟨hticks, hexpected, hsleeps⟩ trivial
    | tick fault draw nowNs =>
      simp only [CheckedLoop.step] at hs
      obtain ⟨l, hl, rfl⟩ := Option.map_eq_some_iff.mp hs
      by_cases hzero : c.numSymbols = 0
      · rw [if_pos hzero]
        exact iff_of_false not_false (fun hpos => hpos hzero)
      · rw [if_neg hzero]
        refine iff_of_true ⟨?_, hexpected, hsleeps⟩ hzero
        rw [List.forall_mem_append, List.forall_mem_singleton]
        exact ⟨hticks, tick_emits hzero hl⟩
    | endBatch now nowNs batchEnd =>
      simp only [CheckedLoop.step] at hs
      split at hs <;> rename_i hclock
      · cases hs
      · obtain ⟨l, -, rfl⟩ := Option.map_eq_some_iff.mp hs
        have hticks' : ({ s with loop := l }.limit batchEnd).ticks = s.ticks := by
          unfold CheckedLoop.limit
          dsimp only
          split
          · rfl
          · rfl
        have hlimit := limit_iff (s := { s with loop := l }) hclock hsleeps
        unfold ArithmeticOk
        dsimp only
        rw [hticks', hlimit, and_iff_right hticks, and_iff_right hexpected]
        rfl

end TickArithmeticAux

open TickArithmeticAux

/-- For every configuration that `main` passes on and every run of the loop: the arithmetic is defined in every state exactly when
there is a symbol at each tick, and at a rate of 0 or 1 the clock has moved by the end of each batch. -/
theorem tick_arithmetic_iff (c : TickConfig) (es : List CheckedEvent) (t : Except ArithmeticFault (CheckedLoop c))
    (h : Run.exec CheckedLoop.step (.ok (.init c)) es = some t) :
    (∀ n u, Run.exec CheckedLoop.step (.ok (.init c)) (es.take n) = some u → ArithmeticOk u) ↔
      Run.Along CheckedLoop.step ArithmeticStep (.ok (.init c)) es :=
  Run.forall_take_iff_along (fun _ _ _ hs hstep => arithmetic_step hs hstep) ⟨nofun, expected_fits c, nofun⟩ h

namespace TickArithmeticAux

instance : ∀ (s : Except ArithmeticFault (CheckedLoop c)) (e : CheckedEvent), Decidable (ArithmeticStep s e)
  | .ok _, .tick _ _ _ => inferInstanceAs (Decidable (c.numSymbols ≠ 0))
  | .ok s, .endBatch _ _ batchEnd => inferInstanceAs (Decidable ¬(c.tickRate ≤ 1 ∧ batchEnd = s.batchStart))
  | .ok _, .stop => isTrue trivial
  | .ok _, .batch _ => isTrue trivial
  | .error _, _ => isTrue trivial

/-- A batch of one tick that takes no time. -/
def instantBatch : List CheckedEvent :=
  [.batch 5, .tick true (.trade ⟨100, 1⟩) 7, .endBatch 5 8 5]

end TickArithmeticAux

/-- At ten ticks per second and three symbols the batch that takes no time is slept for, a tenth of a second. -/
theorem tick_arithmetic_iff_instantBatch :
    ∃ t, Run.exec CheckedLoop.step (.ok (.init (mainConfig [.s 3, .r 10]))) instantBatch = some t ∧ ArithmeticOk t := by
  have hrun : ∃ t, Run.exec CheckedLoop.step (.ok (.init (mainConfig [.s 3, .r 10]))) instantBatch = some t ∧ True := by
    decide +kernel
  have halong : Run.Along CheckedLoop.step ArithmeticStep (.ok (.init (mainConfig [.s 3, .r 10]))) instantBatch := by
    decide +kernel
  obtain ⟨t, hrun, -⟩ := hrun
  exact ⟨t, hrun, (tick_arithmetic_iff _ instantBatch t hrun).mpr halong 3 t hrun⟩

/-- Without symbols the first tick takes a remainder by zero; at one tick per second a batch that takes no time is slept for with a
`tv_nsec` of 10^9. -/
theorem tick_arithmetic_undefined :
    Run.exec CheckedLoop.step (.ok (.init (mainConfig [.s 0]))) (instantBatch.take 2) = some (.error .remainderByZero) ∧
      ∃ s, Run.exec CheckedLoop.step (.ok (.init (mainConfig [.r 1]))) instantBatch = some (.ok s) ∧ s.sleeps = [1000000000] ∧
        ¬ArithmeticOk (.ok s) := by
  have hrun : ∃ s, Run.exec CheckedLoop.step (.ok (.init (mainConfig [.r 1]))) instantBatch = some (.ok s) ∧
      s.sleeps = [1000000000] := ⟨_, rfl, rfl⟩
  obtain ⟨s, hrun, hsleeps⟩ := hrun
  refine ⟨rfl, s, hrun, hsleeps, ?_⟩
  rintro ⟨-, -, hrange⟩
  rw [hsleeps, List.forall_mem_singleton] at hrange
  exact absurd hrange (by decide)

end MarketFeed
