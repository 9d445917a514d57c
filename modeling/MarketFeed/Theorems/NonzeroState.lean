import MarketFeed.Lemmas.StateUpdate

/-!
# The generator is never in the zero state

The values of `splitmix` at two different counters are not both zero, since its mixing takes only zero to zero. So no seed sets up the
zero state, and no update leads to it from another state. In the zero state the loop of `box_muller` would not end.
-/

namespace MarketFeed

namespace Xoshiro256pp

/-! ## Seeding -/

theorem eq_zero_of_xorShift {z : UInt64} {k : Nat} (hpos : 0 < k) (hk : k < 64) (h : xorShift z (UInt64.ofNat k) = 0) : z = 0 :=
  Lanes.eq_zero_of_eq_shiftRight hpos hk (UInt64.xor_eq_zero_iff.mp h)

/-- Every step of the mixing takes only zero to zero. -/
theorem eq_zero_of_mix {x : UInt64} (h : mix x = 0) : x = 0 := by
  have h31 := eq_zero_of_xorShift (k := 31) (by decide) (by decide) h
  have h27 := Lanes.eq_zero_of_mul 0x319642b2d24d8ec3 (by decide) h31
  have hz := eq_zero_of_xorShift (k := 27) (by decide) (by decide) h27
  have h30 := Lanes.eq_zero_of_mul 0x96de1b173f119089 (by decide) hz
  exact eq_zero_of_xorShift (k := 30) (by decide) (by decide) h30

theorem ofSeed_ne_zero (seed : UInt64) : ofSeed seed ≠ zero := by
  intro h
  have h0 : seed + 0x9e3779b97f4a7c15 = 0 := eq_zero_of_mix (congrArg s0 h)
  have h1 : seed + 0x9e3779b97f4a7c15 + 0x9e3779b97f4a7c15 = 0 := eq_zero_of_mix (congrArg s1 h)
  rw [h0, UInt64.zero_add] at h1
  exact absurd h1 (by decide)

/-! ## Drawing -/

/-- No run of updates leads to the zero state from another one. -/
theorem iterate_advance_ne_zero {g : Xoshiro256pp} (h : g ≠ zero) (n : Nat) : advance^[n] g ≠ zero := by
  induction n with
  | zero => exact h
  | succ n ih =>
    intro hn
    rw [Function.iterate_succ_apply'] at hn
    exact ih (eq_zero_of_advance hn)

theorem next_zero : zero.next = (0, zero) := by
  decide

/-- In the zero state, however many draws it makes, the loop of `box_muller` does not end. -/
theorem drawU1_zero (fuel : Nat) : drawU1 fuel zero = none := by
  induction fuel with
  | zero => rfl
  | succ fuel ih => exact ih

/-- No seed sets up the zero state, in which every draw is zero, and the updates, which are one-to-one and onto, do not lead to it. -/
theorem state_ne_zero :
    (∀ seed, ofSeed seed ≠ zero) ∧ Function.Bijective advance ∧ zero.next = (0, zero) ∧ (∀ fuel, drawU1 fuel zero = none) ∧
      ∀ seed n, advance^[n] (ofSeed seed) ≠ zero :=
  ⟨ofSeed_ne_zero, advance_bijective, next_zero, drawU1_zero, fun seed n => iterate_advance_ne_zero (ofSeed_ne_zero seed) n⟩

end Xoshiro256pp

end MarketFeed
