import Mathlib.Algebra.Group.Hom.Defs
import Mathlib.Data.Nat.Bitwise
import Mathlib.Data.Nat.Bits

/-!
# Polynomials over GF(2) in an additive map

A number codes the polynomial whose coefficients are its binary digits, so that `^^^` adds and `2 * n` multiplies by the variable.
`act T n a` is the value at `a` of the polynomial in the additive map `T` of a group in which every element is its own inverse. When a
polynomial of degree `d` vanishes in `T`, products are taken modulo it (`act_mulMod`), and `T` to the power `2 ^ k` is found by `k`
squarings (`act_iterate_square`).
-/

namespace BitPoly

/-! ## Horner's rule -/

/-- The polynomial with these coefficients, the constant one first, where `step` multiplies by the variable. -/
def horner {A : Type*} (step : A → A) (add : A → A → A) (zero a : A) : List Bool → A
  | [] => zero
  | b :: bs =>
    let r := step (horner step add zero a bs)
    if b then add a r else r

theorem horner_cons {A : Type*} (step : A → A) (add : A → A → A) (zero a : A) (b : Bool) (bs : List Bool) :
    horner step add zero a (b :: bs) =
      if b then add a (step (horner step add zero a bs)) else step (horner step add zero a bs) := rfl

/-- A map that respects the operations respects the rule. -/
theorem horner_map {A B : Type*} {step : A → A} {add : A → A → A} {zero : A} {step' : B → B} {add' : B → B → B} {zero' : B}
    {f : A → B} (hstep : ∀ x, f (step x) = step' (f x)) (hadd : ∀ x y, f (add x y) = add' (f x) (f y)) (hzero : f zero = zero')
    (a : A) (bs : List Bool) : f (horner step add zero a bs) = horner step' add' zero' (f a) bs := by
  induction bs with
  | nil => exact hzero
  | cons b bs ih =>
    rw [horner_cons, horner_cons]
    split
    · rw [hadd, hstep, ih]
    · rw [hstep, ih]

/-- A property that the operations keep holds of the value. -/
theorem horner_induction {A : Type*} {step : A → A} {add : A → A → A} {zero a : A} {P : A → Prop} (hzero : P zero) (ha : P a)
    (hstep : ∀ x, P x → P (step x)) (hadd : ∀ x y, P x → P y → P (add x y)) (bs : List Bool) : P (horner step add zero a bs) := by
  induction bs with
  | nil => exact hzero
  | cons b bs ih =>
    rw [horner_cons]
    split
    · exact hadd _ _ ha (hstep _ ih)
    · exact hstep _ ih

/-- The `k` low binary digits of a number, the lowest first. -/
def toBits : Nat → Nat → List Bool
  | 0, _ => []
  | k + 1, n => (n % 2).beq 1 :: toBits k (n / 2)

/-! ## The action -/

section Action

variable {A : Type*} [AddCommGroup A]

/-- The polynomial that `n` codes, in `T`, at `a`. -/
def act (T : A →+ A) (n : Nat) (a : A) : A := horner T (· + ·) 0 a n.bits

variable (T : A →+ A)

@[simp] theorem act_zero (a : A) : act T 0 a = 0 := by
  unfold act
  rw [Nat.zero_bits]
  rfl

theorem act_bit (b : Bool) (n : Nat) (a : A) : act T (Nat.bit b n) a = (if b then a else 0) + T (act T n a) := by
  by_cases hn : n = 0 → b = true
  · unfold act
    rw [Nat.bits_append_bit n b hn, horner_cons]
    split
    · rfl
    · rw [zero_add]
  · rw [Classical.not_imp] at hn
    obtain ⟨rfl, hb⟩ := hn
    rw [Bool.not_eq_true] at hb
    subst hb
    simp

theorem act_two_mul (n : Nat) (a : A) : act T (2 * n) a = T (act T n a) := by
  have hbit := act_bit T false n a
  rw [Nat.bit_false] at hbit
  rw [hbit]
  simp

/-- The variable acts as the map. -/
theorem act_two (a : A) : act T 2 a = T a := by
  have hone : act T 1 a = a := by
    have hbit := act_bit T true 0 a
    rw [Nat.bit_true] at hbit
    simpa using hbit
  rw [← Nat.mul_one 2, act_two_mul, hone]

/-- Adding codes adds the polynomials. -/
theorem act_xor (h2 : ∀ a : A, a + a = 0) (m n : Nat) (a : A) : act T (m ^^^ n) a = act T m a + act T n a := by
  induction m using Nat.binaryRec generalizing n with
  | zero => simp
  | bit b m ih =>
    induction n using Nat.binaryRec with
    | zero => simp
    | bit c n _ =>
      have hcoeff : (if bne b c then a else 0) = (if b then a else 0) + if c then a else 0 := by
        cases b <;> cases c <;> simp [h2]
      rw [Nat.xor_bit, act_bit, act_bit, act_bit, ih, map_add, hcoeff, add_add_add_comm]

/-- The polynomials act additively. -/
theorem act_add (n : Nat) (a b : A) : act T n (a + b) = act T n a + act T n b := by
  induction n using Nat.binaryRec with
  | zero => simp
  | bit c n ih =>
    have hcoeff : (if c then a + b else 0) = (if c then a else 0) + if c then b else 0 := by
      cases c <;> simp
    rw [act_bit, act_bit, act_bit, ih, map_add, hcoeff, add_add_add_comm]

/-- Leading zeros do not matter. -/
theorem horner_toBits {k n : Nat} (h : n < 2 ^ k) (a : A) : horner T (· + ·) 0 a (toBits k n) = act T n a := by
  induction k generalizing n with
  | zero =>
    rw [Nat.pow_zero, Nat.lt_one_iff] at h
    subst h
    exact (act_zero T a).symm
  | succ k ih =>
    have hn : Nat.bit ((n % 2).beq 1) (n / 2) = n := by
      rcases Nat.mod_two_eq_zero_or_one n with hmod | hmod
      · rw [hmod, Nat.bit_val]
        simp only [Nat.beq, Bool.toNat_false]
        omega
      · rw [hmod, Nat.bit_val]
        simp only [Nat.beq, Bool.toNat_true]
        omega
    have hrest := ih (by omega : n / 2 < 2 ^ k)
    conv_rhs => rw [← hn]
    rw [act_bit, toBits, horner_cons, hrest]
    split
    · rfl
    · rw [zero_add]

/-- A loop that adds up the powers of the map with their coefficients, from the constant one on. -/
theorem foldl_eq_horner (bs : List Bool) (acc a : A) :
    bs.foldl (fun s b => (if b then s.1 + s.2 else s.1, T s.2)) (acc, a) = (acc + horner T (· + ·) 0 a bs, T^[bs.length] a) := by
  have hcommute : ∀ bs : List Bool, ∀ x, T (horner T (· + ·) 0 x bs) = horner T (· + ·) 0 (T x) bs :=
    fun bs x => horner_map (f := T) (fun _ => rfl) (map_add T) (map_zero T) x bs
  induction bs generalizing acc a with
  | nil => simp [horner]
  | cons b bs ih =>
    rw [List.foldl_cons, ih, horner_cons, hcommute]
    split
    · rw [add_assoc]
      rfl
    · rfl

/-! ## Products modulo a polynomial -/

/-- Times the variable, modulo the polynomial `P` of degree `d`. -/
def timesX (P d n : Nat) : Nat := if (2 ^ d).ble (2 * n) then 2 * n ^^^ P else 2 * n

/-- The product modulo `P`. -/
def mulMod (P d m n : Nat) : Nat := horner (timesX P d) Nat.xor 0 m (toBits d n)

def squareMod (P d n : Nat) : Nat := mulMod P d n n

theorem timesX_lt {P d n : Nat} (hP : P < 2 ^ (d + 1)) (hlead : P.testBit d = true) (h : n < 2 ^ d) : timesX P d n < 2 ^ d := by
  have hlt : 2 * n < 2 ^ (d + 1) := by omega
  unfold timesX
  split <;> rename_i hle
  · rw [Nat.ble_eq] at hle
    refine Nat.lt_pow_two_of_testBit _ (fun i hi => ?_)
    rw [Nat.testBit_xor]
    rcases eq_or_lt_of_le hi with rfl | hi
    · rw [Nat.testBit_of_two_pow_le_and_two_pow_add_one_gt hle hlt, hlead]
      rfl
    · have hbelow : 2 ^ (d + 1) ≤ 2 ^ i := Nat.pow_le_pow_right (by decide) hi
      rw [Nat.testBit_lt_two_pow (hlt.trans_le hbelow), Nat.testBit_lt_two_pow (hP.trans_le hbelow)]
      rfl
  · rw [Nat.ble_eq] at hle
    exact Nat.lt_of_not_le hle

theorem squareMod_lt {P d n : Nat} (hP : P < 2 ^ (d + 1)) (hlead : P.testBit d = true) (h : n < 2 ^ d) : squareMod P d n < 2 ^ d :=
  horner_induction (P := fun x => x < 2 ^ d) (Nat.two_pow_pos d) h (fun _ => timesX_lt hP hlead) (fun _ _ => Nat.xor_lt_two_pow) _

/-- Where the polynomial vanishes, the product of two polynomials modulo it acts as one after the other. -/
theorem act_mulMod (h2 : ∀ a : A, a + a = 0) {P d : Nat} (hP : ∀ a, act T P a = 0) (m : Nat) {n : Nat} (hn : n < 2 ^ d) (a : A) :
    act T (mulMod P d m n) a = act T n (act T m a) := by
  have htimes : ∀ x, act T (timesX P d x) a = T (act T x a) := by
    intro x
    unfold timesX
    split
    · rw [act_xor T h2, hP, add_zero, act_two_mul]
    · exact act_two_mul T x a
  rw [← horner_toBits T hn]
  exact horner_map (f := fun x => act T x a) htimes (fun x y => act_xor T h2 x y a) (act_zero T a) m (toBits d n)

/-- Squaring the variable `k` times gives a polynomial that acts as the map taken `2 ^ k` times. -/
theorem act_iterate_square (h2 : ∀ a : A, a + a = 0) {P d : Nat} (hd : 2 < 2 ^ d) (hlt : P < 2 ^ (d + 1))
    (hlead : P.testBit d = true) (hP : ∀ a, act T P a = 0) (k : Nat) :
    (squareMod P d)^[k] 2 < 2 ^ d ∧ ∀ a, act T ((squareMod P d)^[k] 2) a = T^[2 ^ k] a := by
  induction k with
  | zero => exact ⟨hd, act_two T⟩
  | succ k ih =>
    obtain ⟨hbound, hact⟩ := ih
    rw [Function.iterate_succ_apply']
    refine ⟨squareMod_lt hlt hlead hbound, fun a => ?_⟩
    rw [squareMod, act_mulMod T h2 hP _ hbound, hact, hact, ← Function.iterate_add_apply, pow_succ, mul_two]

end Action

end BitPoly
