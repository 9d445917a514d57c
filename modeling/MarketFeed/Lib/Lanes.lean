import Mathlib.Data.Nat.Bitwise
import Mathlib.Algebra.Group.Hom.Defs

/-!
# Words in the lanes of a number

Many words of 64 bits side by side in one number: an operation on the number is the operation on every word at once, which makes
checking something of all words one computation with large numbers. An additive map is zero when it is zero on the words of one bit
(`eq_zero_of_bits`).
-/

namespace Lanes

/-! ## Bits of a word -/

/-- A bit of a word. -/
def bit (x : UInt64) (i : Nat) : Bool := x.toNat.testBit i

/-- Words with the same bits are equal. -/
theorem ext {x y : UInt64} (h : ∀ i < 64, bit x i = bit y i) : x = y := by
  apply UInt64.toNat_inj.mp
  apply Nat.eq_of_testBit_eq
  intro i
  by_cases hi : i < 64
  · exact h i hi
  · have hle : 2 ^ 64 ≤ 2 ^ i := Nat.pow_le_pow_right (by decide) (by omega)
    rw [Nat.testBit_lt_two_pow (x.toNat_lt.trans_le hle), Nat.testBit_lt_two_pow (y.toNat_lt.trans_le hle)]

@[simp] theorem bit_xor (x y : UInt64) (i : Nat) : bit (x ^^^ y) i = (bit x i ^^ bit y i) := by
  unfold bit
  rw [UInt64.toNat_xor, Nat.testBit_xor]

@[simp] theorem bit_or (x y : UInt64) (i : Nat) : bit (x ||| y) i = (bit x i || bit y i) := by
  unfold bit
  rw [UInt64.toNat_or, Nat.testBit_or]

/-- The bits of a shift to the left, -/
theorem bit_shiftLeft (x : UInt64) {k i : Nat} (hk : k < 64) (hi : i < 64) :
    bit (x <<< UInt64.ofNat k) i = (decide (k ≤ i) && bit x (i - k)) := by
  unfold bit
  rw [UInt64.toNat_shiftLeft, UInt64.toNat_ofNat_of_lt' (by simp only [UInt64.size]; omega), Nat.mod_eq_of_lt hk, Nat.testBit_mod_two_pow,
    Nat.testBit_shiftLeft]
  simp [hi]

/-- and to the right. -/
theorem bit_shiftRight (x : UInt64) {k : Nat} (hk : k < 64) (i : Nat) : bit (x >>> UInt64.ofNat k) i = bit x (k + i) := by
  unfold bit
  rw [UInt64.toNat_shiftRight, UInt64.toNat_ofNat_of_lt' (by simp only [UInt64.size]; omega), Nat.mod_eq_of_lt hk,
    Nat.testBit_shiftRight]

/-- A word has 64 bits. -/
theorem bit_of_le (x : UInt64) {i : Nat} (hi : 64 ≤ i) : bit x i = false :=
  Nat.testBit_lt_two_pow (x.toNat_lt.trans_le (Nat.pow_le_pow_right (by decide) hi))

/-- A rotation to the left, as two shifts. -/
def rotl (x : UInt64) (k : Nat) : UInt64 := x <<< UInt64.ofNat k ||| x >>> UInt64.ofNat (64 - k)

/-- The bits of a rotation come round. -/
theorem bit_rotl (x : UInt64) {k i : Nat} (hpos : 0 < k) (hk : k < 64) (hi : i < 64) :
    bit (rotl x k) i = if k ≤ i then bit x (i - k) else bit x (64 - k + i) := by
  rw [rotl, bit_or, bit_shiftLeft x hk hi, bit_shiftRight x (by omega)]
  by_cases hle : k ≤ i
  · rw [if_pos hle, bit_of_le x (by omega : 64 ≤ 64 - k + i)]
    simp [hle]
  · rw [if_neg hle]
    simp [hle]

/-- Shifts and rotations respect `^^^`. -/
theorem shiftLeft_xor (x y : UInt64) {k : Nat} (hk : k < 64) :
    (x ^^^ y) <<< UInt64.ofNat k = x <<< UInt64.ofNat k ^^^ y <<< UInt64.ofNat k := by
  apply ext
  intro i hi
  rw [bit_xor, bit_shiftLeft _ hk hi, bit_shiftLeft _ hk hi, bit_shiftLeft _ hk hi, bit_xor]
  cases decide (k ≤ i) <;> simp

/-- A rotation is additive. -/
theorem rotl_xor (x y : UInt64) {k : Nat} (hpos : 0 < k) (hk : k < 64) : rotl (x ^^^ y) k = rotl x k ^^^ rotl y k := by
  apply ext
  intro i hi
  rw [bit_xor, bit_rotl _ hpos hk hi, bit_rotl _ hpos hk hi, bit_rotl _ hpos hk hi]
  split
  · exact bit_xor ..
  · exact bit_xor ..

/-! ## What makes a word zero -/

/-- A word without a bit is 0. -/
theorem eq_zero_of_bit {x : UInt64} (h : ∀ i < 64, bit x i = false) : x = 0 := by
  apply ext
  intro i hi
  rw [h i hi]
  exact (Nat.zero_testBit i).symm

/-- A word that its shift to the left leaves as it is: no bit is the first one that is set. -/
theorem eq_zero_of_eq_shiftLeft {x : UInt64} {k : Nat} (hpos : 0 < k) (hk : k < 64) (h : x = x <<< UInt64.ofNat k) : x = 0 := by
  apply eq_zero_of_bit
  intro i
  induction i using Nat.strong_induction_on with
  | _ i ih =>
    intro hi
    rw [h, bit_shiftLeft x hk hi]
    by_cases hle : k ≤ i
    · rw [ih (i - k) (by omega) (by omega), Bool.and_false]
    · rw [decide_eq_false hle, Bool.false_and]

/-- A word that its shift to the right leaves as it is. -/
theorem eq_zero_of_eq_shiftRight {x : UInt64} {k : Nat} (hpos : 0 < k) (hk : k < 64) (h : x = x >>> UInt64.ofNat k) : x = 0 := by
  have hstep : ∀ i, bit x i = bit x (k + i) := fun i => (congrArg (bit · i) h).trans (bit_shiftRight x hk i)
  -- from the last bit down
  have hdown : ∀ d ≤ 64, bit x (64 - d) = false := by
    intro d
    induction d using Nat.strong_induction_on with
    | _ d ih =>
      intro hd
      rw [hstep]
      by_cases hle : k ≤ d
      · have hplace : k + (64 - d) = 64 - (d - k) := by omega
        rw [hplace]
        exact ih (d - k) (by omega) (by omega)
      · exact bit_of_le x (by omega)
  apply eq_zero_of_bit
  intro i hi
  have hi' := hdown (64 - i) (Nat.sub_le ..)
  rwa [Nat.sub_sub_self (by omega)] at hi'

/-- A rotation moves every bit to some place. -/
theorem eq_zero_of_rotl {x : UInt64} {k : Nat} (hpos : 0 < k) (hk : k < 64) (h : rotl x k = 0) : x = 0 := by
  have hbit : ∀ i, bit (rotl x k) i = false := by
    intro i
    rw [h]
    exact Nat.zero_testBit i
  apply eq_zero_of_bit
  intro i hi
  by_cases hle : i + k < 64
  · have hi' := hbit (i + k)
    rwa [bit_rotl x hpos hk hle, if_pos (by omega), Nat.add_sub_cancel] at hi'
  · have hi' := hbit (i + k - 64)
    have hplace : 64 - k + (i + k - 64) = i := by omega
    rwa [bit_rotl x hpos hk (by omega), if_neg (by omega), hplace] at hi'

/-- A factor that has an inverse. -/
theorem eq_zero_of_mul {x c : UInt64} (inv : UInt64) (hinv : c * inv = 1) (h : x * c = 0) : x = 0 := by
  rw [← UInt64.mul_one x, ← hinv, ← UInt64.mul_assoc, h, UInt64.zero_mul]

/-! ## Lanes -/

/-- The word in lane `j`. -/
def lane (j n : Nat) : UInt64 := UInt64.ofNat (n >>> (64 * j))

/-- The bits of a lane are bits of the number. -/
theorem bit_lane (j n : Nat) {i : Nat} (hi : i < 64) : bit (lane j n) i = n.testBit (64 * j + i) := by
  unfold bit lane
  rw [UInt64.toNat_ofNat', Nat.testBit_mod_two_pow, Nat.testBit_shiftRight]
  simp [hi]

/-- The same word in each of the first `lanes` lanes. -/
def spread (w : Nat) : Nat → Nat
  | 0 => 0
  | lanes + 1 => 2 ^ 64 * spread w lanes + w

/-- A word spread over the lanes is in each of them. -/
theorem testBit_spread {w : Nat} (hw : w < 2 ^ 64) (lanes : Nat) {j i : Nat} (hj : j < lanes) (hi : i < 64) :
    (spread w lanes).testBit (64 * j + i) = w.testBit i := by
  induction lanes generalizing j with
  | zero => exact absurd hj (by omega)
  | succ lanes ih =>
    rw [spread, Nat.testBit_two_pow_mul_add _ hw]
    cases j with
    | zero => simp [hi]
    | succ j =>
      rw [if_neg (by omega)]
      have hrest : 64 * (j + 1) + i - 64 = 64 * j + i := by omega
      rw [hrest, ih (by omega)]

/-- A shift to the left in each lane: the bits that would leave their lane are dropped first. -/
def shl (lanes k n : Nat) : Nat := (n &&& spread (2 ^ (64 - k) - 1) lanes) <<< k

/-- A rotation to the left in each lane. -/
def rot (lanes k n : Nat) : Nat := shl lanes k n ||| n >>> (64 - k) &&& spread (2 ^ k - 1) lanes

/-- The lanes of a sum. -/
theorem lane_xor (j m n : Nat) : lane j (m ^^^ n) = lane j m ^^^ lane j n := by
  apply ext
  intro i hi
  rw [bit_xor, bit_lane j _ hi, bit_lane j _ hi, bit_lane j _ hi, Nat.testBit_xor]

/-- The bits of a shift in all lanes: none crosses into the next. -/
theorem testBit_shl {lanes k j i n : Nat} (hk : k < 64) (hj : j < lanes) (hi : i < 64) :
    (shl lanes k n).testBit (64 * j + i) = (decide (k ≤ i) && n.testBit (64 * j + i - k)) := by
  have hw : 2 ^ (64 - k) - 1 < 2 ^ 64 := by
    have hle : 2 ^ (64 - k) ≤ 2 ^ 64 := Nat.pow_le_pow_right (by decide) (by omega)
    have hpos := Nat.two_pow_pos (64 - k)
    omega
  unfold shl
  rw [Nat.testBit_shiftLeft, Nat.testBit_and]
  by_cases hle : k ≤ i
  · have hpos : 64 * j + i - k = 64 * j + (i - k) := by omega
    rw [hpos, testBit_spread hw lanes hj (by omega), Nat.testBit_two_pow_sub_one]
    simp [hle, (by omega : k ≤ 64 * j + i), (by omega : i - k < 64 - k)]
  · -- the bit comes from the lane below, where it was dropped
    by_cases hlane : k ≤ 64 * j + i
    · have hpos : 64 * j + i - k = 64 * (j - 1) + (64 + i - k) := by omega
      have hdropped : decide (64 + i - k < 64 - k) = false := decide_eq_false (by omega)
      rw [hpos, testBit_spread hw lanes (by omega) (by omega), Nat.testBit_two_pow_sub_one, hdropped]
      simp [hle]
    · simp [hle, hlane]

/-- So each lane is shifted, -/
theorem lane_shl {lanes k j : Nat} (hk : k < 64) (hj : j < lanes) (n : Nat) :
    lane j (shl lanes k n) = lane j n <<< UInt64.ofNat k := by
  apply ext
  intro i hi
  rw [bit_lane j _ hi, testBit_shl hk hj hi, bit_shiftLeft _ hk hi]
  by_cases hle : k ≤ i
  · have hpos : 64 * j + i - k = 64 * j + (i - k) := by omega
    rw [hpos, bit_lane j _ (by omega)]
  · simp [hle]

/-- and each is rotated. -/
theorem lane_rot {lanes k j : Nat} (hpos : 0 < k) (hk : k < 64) (hj : j < lanes) (n : Nat) :
    lane j (rot lanes k n) = rotl (lane j n) k := by
  have hw : 2 ^ k - 1 < 2 ^ 64 := by
    have hle : 2 ^ k ≤ 2 ^ 64 := Nat.pow_le_pow_right (by decide) (by omega)
    have hpos := Nat.two_pow_pos k
    omega
  apply ext
  intro i hi
  unfold rot
  rw [bit_lane j _ hi, Nat.testBit_or, testBit_shl hk hj hi, Nat.testBit_and, Nat.testBit_shiftRight, testBit_spread hw lanes hj hi,
    Nat.testBit_two_pow_sub_one, bit_rotl _ hpos hk hi]
  by_cases hle : k ≤ i
  · have hplace : 64 * j + i - k = 64 * j + (i - k) := by omega
    rw [if_pos hle, hplace, bit_lane j _ (by omega)]
    simp [hle]
  · have hplace : 64 - k + (64 * j + i) = 64 * j + (64 - k + i) := by omega
    rw [if_neg hle, hplace, bit_lane j _ (by omega)]
    simp [hle, (by omega : i < k)]

/-! ## Words of one bit -/

/-- The highest bit of a number, taken off. -/
theorem xor_of_two_pow_le {k n : Nat} (hle : 2 ^ k ≤ n) (hrest : n - 2 ^ k < 2 ^ k) : 2 ^ k ^^^ (n - 2 ^ k) = n := by
  apply Nat.eq_of_testBit_eq
  intro i
  have hsum : n = 2 ^ k * 1 + (n - 2 ^ k) := by omega
  conv_rhs => rw [hsum]
  rw [Nat.testBit_two_pow_mul_add _ hrest, Nat.testBit_xor, Nat.testBit_two_pow]
  by_cases hi : i < k
  · have hne : decide (k = i) = false := decide_eq_false (by omega)
    rw [if_pos hi, hne, Bool.false_xor]
  · have hzero : (n - 2 ^ k).testBit i = false :=
      Nat.testBit_lt_two_pow (hrest.trans_le (Nat.pow_le_pow_right (by decide) (by omega)))
    have hone : Nat.testBit 1 (i - k) = decide (k = i) := by
      rw [Bool.eq_iff_iff, Nat.testBit_one_eq_true_iff_self_eq_zero, decide_eq_true_iff]
      omega
    rw [if_neg hi, hzero, Bool.xor_false, hone]

/-- The word with one bit is a shift of 1. -/
theorem ofNat_two_pow {k : Nat} (hk : k < 64) : UInt64.ofNat (2 ^ k) = 1 <<< UInt64.ofNat k := by
  apply UInt64.toNat_inj.mp
  rw [UInt64.toNat_shiftLeft, UInt64.toNat_ofNat', UInt64.toNat_ofNat', UInt64.toNat_one, Nat.one_shiftLeft,
    Nat.mod_eq_of_lt (by omega : k < 2 ^ 64), Nat.mod_eq_of_lt hk]

/-- What adds up and is zero for the words of one bit is zero for all words. -/
theorem eq_zero_of_bits {A : Type*} [AddCommGroup A] {f : UInt64 → A} (hadd : ∀ x y, f (x ^^^ y) = f x + f y)
    (hbit : ∀ b < 64, f (1 <<< UInt64.ofNat b) = 0) (x : UInt64) : f x = 0 := by
  have hzero : f 0 = 0 := by
    have h := hadd 0 0
    rw [UInt64.xor_self] at h
    exact left_eq_add.mp h
  -- by induction on the number of bits
  have hall : ∀ k ≤ 64, ∀ n < 2 ^ k, f (UInt64.ofNat n) = 0 := by
    intro k
    induction k with
    | zero =>
      intro _ n hn
      have hn0 : n = 0 := by simpa using hn
      rw [hn0]
      exact hzero
    | succ k ih =>
      intro hk n hn
      by_cases htop : n < 2 ^ k
      · exact ih (by omega) n htop
      · have hrest : n - 2 ^ k < 2 ^ k := by
          rw [Nat.pow_succ] at hn
          omega
        rw [← xor_of_two_pow_le (Nat.le_of_not_lt htop) hrest, UInt64.ofNat_xor, hadd, ih (by omega) _ hrest, ofNat_two_pow (by omega),
          hbit k (by omega), add_zero]
  have hx := hall 64 le_rfl x.toNat x.toNat_lt
  rwa [UInt64.ofNat_toNat] at hx

end Lanes
