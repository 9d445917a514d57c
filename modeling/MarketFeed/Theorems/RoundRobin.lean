import MarketFeed.ExchangeSimulator
import MarketFeed.Lib.Cyclic

/-!
# Turns and heartbeats

`tick_loop` gives the symbols their turns by a 32-bit counter that wraps, and sends a heartbeat behind a batch when the last one is a
second ago. Over every run, whatever the rates, the faults and the prices: each symbol gets a tick within any two rounds, and all get as
many up to one and one for each wrap (`round_robin`); the heartbeats are no more than one a second, and one is never late by more than a
batch (`heartbeats_spaced`).
-/

namespace MarketFeed

open Cyclic

variable {n : NumSymbols}

/-- The symbol of a tick, none for a heartbeat. -/
def Msg.tickSymbol : Msg → Option UInt16
  | .trade sym _ _ _ => some sym.val
  | .quote sym _ _ _ => some sym.val
  | .heartbeat .. => none

/-- The symbols that the ticks so far were for. -/
def TickLoop.turns (l : TickLoop n) : List UInt16 := l.emitted.filterMap fun e => e.msg.tickSymbol

/-- How many heartbeats there have been. -/
def TickLoop.heartbeats (l : TickLoop n) : Nat := l.emitted.countP fun e => e.msg.tickSymbol.isNone

/-- The monotonic clock reads no less than when the last heartbeat was sent. -/
def TickLoop.ClockGoesOn (l : TickLoop n) : TickEvent → Prop
  | .endBatch now _ => l.lastHeartbeatNs ≤ now
  | _ => True

namespace RoundRobinAux

/-! ## Turns -/

/-- The symbol whose turn it is. -/
def turn (n : NumSymbols) (k : Nat) : UInt16 := UInt16.ofNat (slot (2 ^ 32) n.val.toNat k)

/-- The symbol of a tick is that of its turn, wrap-around included. -/
theorem turn_eq (n : NumSymbols) (k : Nat) : (UInt32.ofNat k % n.val).toUInt16 = turn n k := by
  apply UInt16.toNat_inj.mp
  simp [turn, slot]

/-- The turns so far are the first ones, and the counters tell how many. -/
structure InTurn (l : TickLoop n) : Prop where
  turns : l.turns = (List.range l.turns.length).map (turn n)
  symbolIdx : l.symbolIdx = UInt32.ofNat l.turns.length
  ticksGenerated : l.ticksGenerated = UInt64.ofNat l.turns.length

/-- At the start no symbol has had a turn. -/
theorem InTurn.init (n : NumSymbols) : InTurn (TickLoop.init n) := ⟨rfl, rfl, rfl⟩

/-- One more turn. -/
theorem turns_tick (l : TickLoop n) (fault : Bool) (draw : Draw) (nowNs : UInt64) :
    (l.tick fault draw nowNs).turns = l.turns ++ [(l.symbolIdx % n.val).toUInt16] := by
  have hlt := ExchangeSimulatorAux.symbol_lt n l.symbolIdx
  simp only [TickLoop.turns, TickLoop.tick, generateTick, dif_pos hlt, List.filterMap_append]
  cases draw <;> simp [Msg.tickSymbol]

/-- A tick is the next turn. -/
theorem InTurn.tick {l : TickLoop n} (h : InTurn l) (fault : Bool) (draw : Draw) (nowNs : UInt64) : InTurn (l.tick fault draw nowNs) := by
  have hturns := turns_tick l fault draw nowNs
  have hlen : (l.tick fault draw nowNs).turns.length = l.turns.length + 1 := by rw [hturns, List.length_append]; rfl
  refine ⟨?_, ?_, ?_⟩
  · rw [hlen, List.range_succ, List.map_append, ← h.turns, hturns, h.symbolIdx, turn_eq]
    rfl
  · rw [hlen, UInt32.ofNat_add, ← h.symbolIdx]
    rfl
  · rw [hlen, UInt64.ofNat_add, ← h.ticksGenerated]
    rfl

/-- A heartbeat is no turn. -/
theorem turns_heartbeat (l : TickLoop n) (now nowNs : UInt64) : (l.heartbeat now nowNs).turns = l.turns := by
  unfold TickLoop.heartbeat
  split
  · simp [TickLoop.turns, Msg.tickSymbol]
  · rfl

/-- So the turns go on behind it. -/
theorem InTurn.heartbeat {l : TickLoop n} (h : InTurn l) (now nowNs : UInt64) : InTurn (l.heartbeat now nowNs) := by
  have hturns := turns_heartbeat l now nowNs
  refine ⟨by rw [hturns]; exact h.turns, ?_, ?_⟩
  · rw [hturns, ← h.symbolIdx]
    unfold TickLoop.heartbeat
    split <;> rfl
  · rw [hturns, ← h.ticksGenerated]
    unfold TickLoop.heartbeat
    split <;> rfl

/-- Every step keeps the turns. -/
theorem InTurn.step {l l' : TickLoop n} {e : TickEvent} (h : InTurn l) (hs : l.step e = some l') : InTurn l' := by
  cases e with
  | stop =>
    cases hs
    exact ⟨h.turns, h.symbolIdx, h.ticksGenerated⟩
  | batch rate =>
    simp only [TickLoop.step] at hs
    split at hs
    · obtain ⟨-, hs⟩ := Option.ite_none_right_eq_some.mp hs
      cases hs
      exact ⟨h.turns, h.symbolIdx, h.ticksGenerated⟩
    · cases hs
  | tick fault draw nowNs =>
    simp only [TickLoop.step] at hs
    split at hs
    · obtain ⟨-, hs⟩ := Option.ite_none_right_eq_some.mp hs
      cases hs
      have htick := h.tick fault draw nowNs
      exact ⟨htick.turns, htick.symbolIdx, htick.ticksGenerated⟩
    · cases hs
  | endBatch now nowNs =>
    simp only [TickLoop.step] at hs
    split at hs
    · obtain ⟨-, hs⟩ := Option.ite_none_left_eq_some.mp hs
      cases hs
      have hbeat := h.heartbeat now nowNs
      exact ⟨hbeat.turns, hbeat.symbolIdx, hbeat.ticksGenerated⟩
    · cases hs

/-- There are no more symbols than the counter has values. -/
theorem toNat_le_wrap (n : NumSymbols) : n.val.toNat ≤ 2 ^ 32 := Nat.le_of_lt n.val.toNat_lt

/-- A symbol's turns are those of its slot. -/
theorem turn_eq_iff {a : UInt16} (k : Nat) : turn n k = a ↔ slot (2 ^ 32) n.val.toNat k = a.toNat := by
  have hpos := UInt32.lt_iff_toNat_lt.mp n.pos
  have hslot : slot (2 ^ 32) n.val.toNat k < n.val.toNat := Nat.mod_lt _ hpos
  have hle := UInt32.le_iff_toNat_le.mp n.le
  have h500 : maxSymbols.toUInt32.toNat = 500 := by decide
  have hback : (turn n k).toNat = slot (2 ^ 32) n.val.toNat k := UInt16.toNat_ofNat_of_lt' (by rw [UInt16.size]; omega)
  rw [← hback]
  exact UInt16.toNat_inj.symm

/-- How often a symbol has had its turn. -/
theorem count_turns (n : NumSymbols) (a : UInt16) (m : Nat) :
    ((List.range m).map (turn n)).count a = Nat.count (fun k => slot (2 ^ 32) n.val.toNat k = a.toNat) m := by
  rw [List.count, List.countP_map, Nat.count]
  apply List.countP_congr
  intro k _
  simp [turn_eq_iff]

end RoundRobinAux

open RoundRobinAux

/-- In every run of the tick loop: each symbol has a tick among any two rounds of consecutive ticks but one tick, also where the counter
wraps; any two symbols have had as many ticks, up to one and one more for each wrap; and `ticks_generated_` counts the ticks. -/
theorem round_robin (n : NumSymbols) (es : List TickEvent) (l : TickLoop n)
    (h : Run.exec TickLoop.step (TickLoop.init n) es = some l) :
    (∀ a : UInt16, a.toUInt32 < n.val → ∀ i, i + (2 * n.val.toNat - 1) ≤ l.turns.length →
        ∃ j, i ≤ j ∧ j < i + (2 * n.val.toNat - 1) ∧ l.turns[j]? = some a) ∧
      (∀ a b : UInt16, a.toUInt32 < n.val → b.toUInt32 < n.val →
        l.turns.count a ≤ l.turns.count b + l.turns.length / 2 ^ 32 + 1) ∧
      l.ticksGenerated = UInt64.ofNat l.turns.length := by
  have hturn : InTurn l := Run.exec_invariant (fun s e s' hI hs => InTurn.step hI hs) (InTurn.init n) h
  have hnat : ∀ a : UInt16, a.toUInt32 < n.val → a.toNat < n.val.toNat := by
    intro a ha
    rwa [UInt32.lt_iff_toNat_lt, UInt16.toNat_toUInt32] at ha
  refine ⟨?_, ?_, hturn.ticksGenerated⟩
  · intro a ha i hi
    obtain ⟨j, hij, hj, hslot⟩ := exists_turn (hnat a ha) (toNat_le_wrap n) i
    refine ⟨j, hij, hj, ?_⟩
    rw [hturn.turns, List.getElem?_map, List.getElem?_range (by omega), Option.map_some, (turn_eq_iff j).mpr hslot]
  · intro a b ha hb
    have hle := count_slot_le (hnat a ha) (hnat b hb) (Nat.two_pow_pos 32) l.turns.length
    rw [hturn.turns, count_turns, count_turns, List.length_map, List.length_range]
    exact hle

namespace RoundRobinAux

/-- Three symbols. -/
def threeSymbols : NumSymbols := ⟨3, by decide, by decide⟩

/-- A batch of six ticks, trades and quotes, with fault injection on at some, at a rate of 600 a second. -/
def sixTicks : List TickEvent :=
  [.batch 600, .tick true (.trade ⟨1, 2⟩) 5, .tick false (.quote ⟨1, 2, 3, 4⟩) 6, .tick true (.trade ⟨7, 8⟩) 7,
    .tick false (.trade ⟨1, 2⟩) 8, .tick false (.quote ⟨1, 2, 3, 4⟩) 9, .tick false (.trade ⟨7, 8⟩) 10]

end RoundRobinAux

/-- The run `sixTicks` meets the hypothesis of `round_robin`. -/
theorem round_robin_sixTicks :
    ∃ l, Run.exec TickLoop.step (TickLoop.init threeSymbols) sixTicks = some l ∧ l.turns.length = 6 ∧
      (∀ a : UInt16, a.toUInt32 < 3 → ∀ i, i + 5 ≤ l.turns.length → ∃ j, i ≤ j ∧ j < i + 5 ∧ l.turns[j]? = some a) ∧
      (∀ a b : UInt16, a.toUInt32 < 3 → b.toUInt32 < 3 → l.turns.count a ≤ l.turns.count b + l.turns.length / 2 ^ 32 + 1) ∧
      l.ticksGenerated = UInt64.ofNat l.turns.length :=
  ⟨_, rfl, rfl, round_robin threeSymbols sixTicks _ rfl⟩

/-! ## Heartbeats -/

namespace RoundRobinAux

/-- Each heartbeat is a second behind the last one. -/
def Spaced (l : TickLoop n) : Prop := l.heartbeats * 1000000000 ≤ l.lastHeartbeatNs.toNat

/-- A tick is no heartbeat. -/
theorem heartbeats_tick (l : TickLoop n) (fault : Bool) (draw : Draw) (nowNs : UInt64) :
    (l.tick fault draw nowNs).heartbeats = l.heartbeats := by
  have hlt := ExchangeSimulatorAux.symbol_lt n l.symbolIdx
  simp only [TickLoop.heartbeats, TickLoop.tick, generateTick, dif_pos hlt, List.countP_append]
  cases draw <;> simp [Msg.tickSymbol]

/-- The end of a batch keeps the heartbeats a second apart, and the last less than a second behind the clock. -/
theorem Spaced.heartbeat {l : TickLoop n} (h : Spaced l) {now : UInt64} (hclock : l.lastHeartbeatNs ≤ now) (nowNs : UInt64) :
    Spaced (l.heartbeat now nowNs) ∧ l.lastHeartbeatNs ≤ (l.heartbeat now nowNs).lastHeartbeatNs ∧
      (l.heartbeat now nowNs).lastHeartbeatNs ≤ now ∧ now - (l.heartbeat now nowNs).lastHeartbeatNs < 1000000000 := by
  unfold TickLoop.heartbeat
  split
  · rename_i hdue
    refine ⟨?_, hclock, UInt64.le_refl _, by simp⟩
    have hsub := UInt64.toNat_sub_of_le _ _ hclock
    have hsecond : (1000000000 : UInt64).toNat = 1000000000 := by decide
    rw [ge_iff_le, UInt64.le_iff_toNat_le, hsub, hsecond] at hdue
    have hcount : List.countP (fun e : Emitted => e.msg.tickSymbol.isNone) (l.emitted ++ [⟨false, .heartbeat 0 l.seq nowNs⟩]) =
        l.heartbeats + 1 := by
      rw [List.countP_append]
      rfl
    unfold Spaced at h ⊢
    rw [TickLoop.heartbeats, hcount, Nat.succ_mul]
    calc l.heartbeats * 1000000000 + 1000000000 ≤ l.lastHeartbeatNs.toNat + (now.toNat - l.lastHeartbeatNs.toNat) :=
          Nat.add_le_add h hdue
      _ = now.toNat := Nat.add_sub_of_le (UInt64.le_iff_toNat_le.mp hclock)
  · rename_i hdue
    exact ⟨h, UInt64.le_refl _, hclock, UInt64.not_le.mp hdue⟩

/-- Every step keeps the heartbeats apart. -/
theorem Spaced.step {l l' : TickLoop n} {e : TickEvent} (h : Spaced l) (hclock : l.ClockGoesOn e) (hs : l.step e = some l') :
    Spaced l' := by
  cases e with
  | stop =>
    cases hs
    exact h
  | batch rate =>
    simp only [TickLoop.step] at hs
    split at hs
    · obtain ⟨-, hs⟩ := Option.ite_none_right_eq_some.mp hs
      cases hs
      exact h
    · cases hs
  | tick fault draw nowNs =>
    simp only [TickLoop.step] at hs
    split at hs
    · obtain ⟨-, hs⟩ := Option.ite_none_right_eq_some.mp hs
      cases hs
      have hcount := heartbeats_tick l fault draw nowNs
      unfold Spaced at h ⊢
      rw [← hcount] at h
      exact h
    · cases hs
  | endBatch now nowNs =>
    simp only [TickLoop.step] at hs
    split at hs
    · obtain ⟨-, hs⟩ := Option.ite_none_left_eq_some.mp hs
      cases hs
      exact (h.heartbeat hclock nowNs).1
    · cases hs

end RoundRobinAux

/-- In every run of the tick loop in which the monotonic clock does not go back behind the last heartbeat, at the end of each batch: there
have been at most as many heartbeats as seconds on the clock, and the last is less than a second ago. -/
theorem heartbeats_spaced (n : NumSymbols) (es : List TickEvent) (l l' : TickLoop n) (now nowNs : UInt64)
    (h : Run.exec TickLoop.step (TickLoop.init n) es = some l)
    (hclock : Run.Along TickLoop.step TickLoop.ClockGoesOn (TickLoop.init n) es) (hnow : l.lastHeartbeatNs ≤ now)
    (hs : l.step (.endBatch now nowNs) = some l') :
    l'.heartbeats * 1000000000 ≤ l'.lastHeartbeatNs.toNat ∧ l'.lastHeartbeatNs ≤ now ∧ now - l'.lastHeartbeatNs < 1000000000 := by
  have hspaced : Spaced l :=
    Run.exec_invariant_along (fun s e s' hI hok hs => Spaced.step hI hok hs) (Nat.le_of_eq (Nat.zero_mul _)) hclock h
  simp only [TickLoop.step] at hs
  split at hs
  · obtain ⟨-, hs⟩ := Option.ite_none_left_eq_some.mp hs
    cases hs
    obtain ⟨hspaced', -, hle, hlt⟩ := hspaced.heartbeat hnow nowNs
    exact ⟨hspaced', hle, hlt⟩
  · cases hs

/-- The run `sixTicks`, and the end of the batch two seconds after the start of the clock, meet the hypotheses of `heartbeats_spaced`. -/
theorem heartbeats_spaced_sixTicks :
    ∃ l l', Run.exec TickLoop.step (TickLoop.init threeSymbols) sixTicks = some l ∧ l.step (.endBatch 2000000000 11) = some l' ∧
      l'.heartbeats = 1 ∧ l'.heartbeats * 1000000000 ≤ l'.lastHeartbeatNs.toNat ∧ l'.lastHeartbeatNs ≤ 2000000000 ∧
      2000000000 - l'.lastHeartbeatNs < 1000000000 :=
  ⟨_, _, rfl, rfl, rfl, heartbeats_spaced threeSymbols sixTicks _ _ 2000000000 11 rfl
    ⟨trivial, trivial, trivial, trivial, trivial, trivial, trivial, trivial⟩ (by decide) rfl⟩

end MarketFeed
