import MarketFeed.Lib.Lanes
import MarketFeed.Xoshiro
import Mathlib.Logic.Function.Iterate
import Mathlib.Data.FinEnum
import Mathlib.Data.Fintype.EquivFin
import Mathlib.Algebra.Group.Hom.Basic

/-!
# The state update of the generator

The states of the generator are a group under `xor` in which every state is its own inverse, and the update of `next` is additive in
it. An additive map that takes no other state to zero is injective, and on finitely many states bijective.
-/

namespace MarketFeed

namespace Xoshiro256pp

/-! ## The group of the states -/

instance : Add Xoshiro256pp := ⟨xor⟩

instance : Zero Xoshiro256pp := ⟨zero⟩

instance : Neg Xoshiro256pp := ⟨id⟩

instance : AddCommGroup Xoshiro256pp where
  add_assoc _ _ _ := Xoshiro256pp.ext (UInt64.xor_assoc ..) (UInt64.xor_assoc ..) (UInt64.xor_assoc ..) (UInt64.xor_assoc ..)
  zero_add _ := Xoshiro256pp.ext UInt64.zero_xor UInt64.zero_xor UInt64.zero_xor UInt64.zero_xor
  add_zero _ := Xoshiro256pp.ext UInt64.xor_zero UInt64.xor_zero UInt64.xor_zero UInt64.xor_zero
  add_comm _ _ := Xoshiro256pp.ext (UInt64.xor_comm ..) (UInt64.xor_comm ..) (UInt64.xor_comm ..) (UInt64.xor_comm ..)
  neg_add_cancel _ := Xoshiro256pp.ext UInt64.xor_self UInt64.xor_self UInt64.xor_self UInt64.xor_self
  nsmul := nsmulRec
  zsmul := zsmulRec

@[simp] theorem add_s0 (g g' : Xoshiro256pp) : (g + g').s0 = g.s0 ^^^ g'.s0 := rfl
@[simp] theorem add_s1 (g g' : Xoshiro256pp) : (g + g').s1 = g.s1 ^^^ g'.s1 := rfl
@[simp] theorem add_s2 (g g' : Xoshiro256pp) : (g + g').s2 = g.s2 ^^^ g'.s2 := rfl
@[simp] theorem add_s3 (g g' : Xoshiro256pp) : (g + g').s3 = g.s3 ^^^ g'.s3 := rfl

/-- Every state is its own inverse. -/
theorem add_self (g : Xoshiro256pp) : g + g = 0 := neg_add_cancel g

/-! ## The update -/

/-- The rotation is additive, -/
theorem rotl_xor (x y : UInt64) : rotl (x ^^^ y) 45 = rotl x 45 ^^^ rotl y 45 := Lanes.rotl_xor x y (by decide) (by decide)

/-- and the shift is. -/
theorem shiftLeft_xor (x y : UInt64) : (x ^^^ y) <<< (17 : UInt64) = x <<< (17 : UInt64) ^^^ y <<< (17 : UInt64) :=
  Lanes.shiftLeft_xor x y (k := 17) (by decide)

@[simp] theorem advance_s0 (g : Xoshiro256pp) : g.advance.s0 = g.s0 ^^^ (g.s3 ^^^ g.s1) := rfl
@[simp] theorem advance_s1 (g : Xoshiro256pp) : g.advance.s1 = g.s1 ^^^ (g.s2 ^^^ g.s0) := rfl
@[simp] theorem advance_s2 (g : Xoshiro256pp) : g.advance.s2 = (g.s2 ^^^ g.s0) ^^^ g.s1 <<< 17 := rfl
@[simp] theorem advance_s3 (g : Xoshiro256pp) : g.advance.s3 = rotl (g.s3 ^^^ g.s1) 45 := rfl

/-- The zero state is updated to itself. -/
theorem advance_zero : zero.advance = zero := by decide

/-- The update is additive. -/
theorem advance_add (g g' : Xoshiro256pp) : (g + g').advance = g.advance + g'.advance := by
  apply Xoshiro256pp.ext
  · simp only [advance_s0, add_s0, add_s1, add_s3]
    ac_rfl
  · simp only [advance_s1, add_s0, add_s1, add_s2]
    ac_rfl
  · rw [advance_s2, add_s0, add_s1, add_s2, shiftLeft_xor, add_s2, advance_s2, advance_s2]
    -- the shifted words are taken as they are
    generalize g.s1 <<< (17 : UInt64) = t
    generalize g'.s1 <<< (17 : UInt64) = t'
    ac_rfl
  · have hwords : g.s3 ^^^ g'.s3 ^^^ (g.s1 ^^^ g'.s1) = (g.s3 ^^^ g.s1) ^^^ (g'.s3 ^^^ g'.s1) := by ac_rfl
    rw [advance_s3, add_s1, add_s3, hwords, rotl_xor]
    rfl

/-- `advance`, as an additive map. -/
def update : Xoshiro256pp →+ Xoshiro256pp where
  toFun := advance
  map_zero' := advance_zero
  map_add' := advance_add

/-- As a function, the linear map is the update. -/
theorem coe_update : ⇑update = advance := rfl

/-- Only the zero state is updated to zero. -/
theorem eq_zero_of_advance {g : Xoshiro256pp} (h : g.advance = zero) : g = zero := by
  have h0 : g.s0 ^^^ (g.s3 ^^^ g.s1) = 0 := congrArg s0 h
  have h1 : g.s1 ^^^ (g.s2 ^^^ g.s0) = 0 := congrArg s1 h
  have h2 : (g.s2 ^^^ g.s0) ^^^ g.s1 <<< 17 = 0 := congrArg s2 h
  have h3 : rotl (g.s3 ^^^ g.s1) 45 = 0 := congrArg s3 h
  have hs31 : g.s3 ^^^ g.s1 = 0 := Lanes.eq_zero_of_rotl (by decide) (by decide) h3
  have hs0 : g.s0 = 0 := by rwa [hs31, UInt64.xor_zero] at h0
  have hs12 : g.s1 = g.s2 := by
    rw [hs0, UInt64.xor_zero] at h1
    exact UInt64.xor_eq_zero_iff.mp h1
  have hs1 : g.s1 = 0 := by
    rw [hs0, UInt64.xor_zero, ← hs12] at h2
    exact Lanes.eq_zero_of_eq_shiftLeft (k := 17) (by decide) (by decide) (UInt64.xor_eq_zero_iff.mp h2)
  have hs3 : g.s3 = 0 := by rwa [hs1, UInt64.xor_zero] at hs31
  exact Xoshiro256pp.ext hs0 hs1 (hs12.symm.trans hs1) hs3

instance : Finite Xoshiro256pp := by
  refine Finite.of_injective (fun g : Xoshiro256pp => (g.s0, g.s1, g.s2, g.s3)) (fun g g' h => ?_)
  simp only [Prod.mk.injEq] at h
  obtain ⟨h0, h1, h2, h3⟩ := h
  exact Xoshiro256pp.ext h0 h1 h2 h3

/-- The update is a permutation of the states. -/
theorem advance_bijective : Function.Bijective advance := by
  have hinj : Function.Injective update := (injective_iff_map_eq_zero update).mpr (fun _ => eq_zero_of_advance)
  exact Finite.injective_iff_bijective.mp hinj

end Xoshiro256pp

end MarketFeed
