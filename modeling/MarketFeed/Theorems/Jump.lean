import MarketFeed.Lib.BitPoly
import MarketFeed.Lemmas.StateUpdate

/-!
# The jump

`jump` adds up powers of the state update with the bits of its four words as coefficients. The update is a root of its characteristic
polynomial, which is checked on the 256 states of one bit at once, side by side in four numbers. Modulo that polynomial the variable
squared 128 times is the polynomial of the four words, so the sum is the update taken `2 ^ 128` times.
-/

namespace MarketFeed

namespace Xoshiro256pp

/-! ## States side by side -/

/-- A state for each lane. -/
structure Packed where
  s0 : Nat
  s1 : Nat
  s2 : Nat
  s3 : Nat
  deriving DecidableEq

namespace Packed

def zero : Packed := { s0 := 0, s1 := 0, s2 := 0, s3 := 0 }

def xor (p q : Packed) : Packed := { s0 := p.s0 ^^^ q.s0, s1 := p.s1 ^^^ q.s1, s2 := p.s2 ^^^ q.s2, s3 := p.s3 ^^^ q.s3 }

/-- `advance`, in each lane. -/
def advance (p : Packed) : Packed :=
  { s0 := p.s0 ^^^ (p.s3 ^^^ p.s1)
    s1 := p.s1 ^^^ (p.s2 ^^^ p.s0)
    s2 := (p.s2 ^^^ p.s0) ^^^ Lanes.shl 256 17 p.s1
    s3 := Lanes.rot 256 45 (p.s3 ^^^ p.s1) }

/-- The state in lane `j`. -/
def unpack (j : Nat) (p : Packed) : Xoshiro256pp :=
  { s0 := Lanes.lane j p.s0, s1 := Lanes.lane j p.s1, s2 := Lanes.lane j p.s2, s3 := Lanes.lane j p.s3 }

/-- The lanes of zero are the zero state. -/
theorem unpack_zero (j : Nat) : unpack j zero = 0 := by
  have hlane : Lanes.lane j 0 = 0 := by
    unfold Lanes.lane
    rw [Nat.zero_shiftRight]
    rfl
  exact Xoshiro256pp.ext hlane hlane hlane hlane

/-- The lanes add up one by one, -/
theorem unpack_xor (j : Nat) (p q : Packed) : unpack j (p.xor q) = unpack j p + unpack j q :=
  Xoshiro256pp.ext (Lanes.lane_xor ..) (Lanes.lane_xor ..) (Lanes.lane_xor ..) (Lanes.lane_xor ..)

/-- and are updated one by one. -/
theorem unpack_advance {j : Nat} (hj : j < 256) (p : Packed) : unpack j p.advance = (unpack j p).advance := by
  apply Xoshiro256pp.ext
  · simp only [unpack, advance, advance_s0, Lanes.lane_xor]
  · simp only [unpack, advance, advance_s1, Lanes.lane_xor]
  · simp only [unpack, advance, advance_s2, Lanes.lane_xor, Lanes.lane_shl (by decide : 17 < 64) hj]
    rfl
  · simp only [unpack, advance, advance_s3, Lanes.lane_xor, Lanes.lane_rot (by decide) (by decide : 45 < 64) hj]
    rfl

/-- The bits of a word of the state, bit `b` of word `w` in lane `64 * w + b`. -/
def bits (w : Nat) : Nat := (List.range 64).foldl (fun n b => n ^^^ 1 <<< (64 * (64 * w + b) + b)) 0

/-- The states of one bit. -/
def basis : Packed := { s0 := bits 0, s1 := bits 1, s2 := bits 2, s3 := bits 3 }

end Packed

/-! ## The characteristic polynomial -/

/-- The characteristic polynomial of the update. -/
def charPoly : Nat := 0x10003c03c3f3ecb1904b4edcf26259f850280002bcefd1a5e9d116f2bb0f0f001

/-- The characteristic polynomial has degree 256: -/
theorem charPoly_lt : charPoly < 2 ^ (256 + 1) := by
  decide +kernel

/-- its leading bit is set. -/
theorem charPoly_lead : charPoly.testBit 256 = true := by
  decide

/-- The update is a root of it on the states of one bit. -/
theorem charPoly_basis : BitPoly.horner Packed.advance Packed.xor Packed.zero Packed.basis (BitPoly.toBits 257 charPoly) = Packed.zero := by
  decide +kernel

/-- The state with one word, and zero in the others. -/
def single (w : Nat) (x : UInt64) : Xoshiro256pp :=
  { s0 := if w = 0 then x else 0
    s1 := if w = 1 then x else 0
    s2 := if w = 2 then x else 0
    s3 := if w = 3 then x else 0 }

/-- A state with one word set is additive in the word. -/
theorem single_xor (w : Nat) (x y : UInt64) : single w (x ^^^ y) = single w x + single w y := by
  have hword : ∀ k, (if w = k then x ^^^ y else 0) = (if w = k then x else 0) ^^^ if w = k then y else 0 := by
    intro k
    split
    · rfl
    · exact UInt64.xor_self.symm
  exact Xoshiro256pp.ext (hword 0) (hword 1) (hword 2) (hword 3)

/-- A state is the sum of its words. -/
theorem eq_sum_single (g : Xoshiro256pp) : g = single 0 g.s0 + single 1 g.s1 + single 2 g.s2 + single 3 g.s3 := by
  apply Xoshiro256pp.ext <;> simp [single]

/-- The lanes of `basis` are the states of one bit. -/
theorem unpack_basis : ∀ w < 4, ∀ b < 64, Packed.basis.unpack (64 * w + b) = single w (1 <<< UInt64.ofNat b) := by
  decide +kernel

/-- The update is a root of its characteristic polynomial. -/
theorem act_charPoly (g : Xoshiro256pp) : BitPoly.act update charPoly g = 0 := by
  have hbit : ∀ w < 4, ∀ b < 64, BitPoly.act update charPoly (single w (1 <<< UInt64.ofNat b)) = 0 := by
    intro w hw b hb
    have hlane : 64 * w + b < 256 := by omega
    have hmap := BitPoly.horner_map (f := Packed.unpack (64 * w + b)) (fun p => Packed.unpack_advance hlane p)
      (fun p q => Packed.unpack_xor _ p q) (Packed.unpack_zero _) Packed.basis (BitPoly.toBits 257 charPoly)
    rw [charPoly_basis, Packed.unpack_zero, unpack_basis w hw b hb] at hmap
    rw [← BitPoly.horner_toBits update charPoly_lt]
    exact hmap.symm
  have hword : ∀ w < 4, ∀ x, BitPoly.act update charPoly (single w x) = 0 := by
    intro w hw x
    refine Lanes.eq_zero_of_bits (f := fun x => BitPoly.act update charPoly (single w x)) ?_ (hbit w hw) x
    intro x y
    rw [single_xor, BitPoly.act_add]
  rw [eq_sum_single g, BitPoly.act_add, BitPoly.act_add, BitPoly.act_add, hword 0 (by decide), hword 1 (by decide), hword 2 (by decide),
    hword 3 (by decide)]
  simp only [add_zero]

/-! ## The sum -/

/-- The polynomial of the four words. -/
def jumpPoly : Nat := 0x39abdc4529b1661ca9582618e03fc9aad5a61266f0c9392c180ec6d33cfd0aba

/-- The bits that the loops of `jump` go through. -/
def jumpBits : List Bool := jumpTable.flatMap fun word => (List.range 64).map fun b => word &&& 1 <<< UInt64.ofNat b != 0

/-- The bits that `jump` tests are the coefficients of `jumpPoly`. -/
theorem jumpBits_eq : jumpBits = BitPoly.toBits 256 jumpPoly := by
  decide +kernel

/-- The variable squared 128 times. -/
theorem iterate_square_eq : (BitPoly.squareMod charPoly 256)^[128] 2 = jumpPoly := by
  decide +kernel

/-- `jump` is the polynomial of its words in the update. -/
theorem jump_eq_act (g : Xoshiro256pp) : g.jump = BitPoly.act update jumpPoly g := by
  have hloop : jumpTable.foldl jumpWord (zero, g) =
      jumpBits.foldl (fun p b => (if b then p.1 + p.2 else p.1, update p.2)) (0, g) := by
    rw [jumpBits, List.foldl_flatMap]
    refine congrArg (fun f => List.foldl f (zero, g) jumpTable) (funext fun p => funext fun word => ?_)
    rw [List.foldl_map]
    refine congrArg (fun f => List.foldl f p (List.range 64)) (funext fun p => funext fun b => ?_)
    simp only [jumpBit, bne_iff_ne]
    rfl
  rw [jump, hloop, jumpBits_eq, BitPoly.foldl_eq_horner, BitPoly.horner_toBits update (by decide : jumpPoly < 2 ^ 256)]
  exact zero_add _

/-- `jump` is `2 ^ 128` updates, and so commutes with `next`. -/
theorem jump_eq_iterate (g : Xoshiro256pp) : g.jump = advance^[2 ^ 128] g ∧ g.advance.jump = g.jump.advance := by
  have hjump : ∀ g : Xoshiro256pp, g.jump = advance^[2 ^ 128] g := by
    intro g
    have hsquare := (BitPoly.act_iterate_square update add_self (by decide : 2 < 2 ^ 256) charPoly_lt charPoly_lead act_charPoly 128).2 g
    rw [iterate_square_eq] at hsquare
    rw [jump_eq_act, hsquare, coe_update]
  refine ⟨hjump g, ?_⟩
  rw [hjump, hjump]
  exact (Function.Commute.refl advance).iterate_left (2 ^ 128) g

end Xoshiro256pp

end MarketFeed
