import Mathlib.Tactic

/-!
# Little-endian bytes

`leBytes n x` are the `n` low bytes of `x`, the lowest first, and `leNat` reads them back. A packed struct is the concatenation
of its fields' bytes; `readLE` reads the field of `n` bytes at an offset.
-/

namespace Bytes

/-- The number a list of bytes spells, lowest byte first. -/
def leNat : List UInt8 → Nat
  | [] => 0
  | b :: bs => b.toNat + 256 * leNat bs

/-- The `n` low bytes of a number, lowest first. -/
def leBytes : Nat → Nat → List UInt8
  | 0, _ => []
  | n + 1, x => UInt8.ofNat x :: leBytes n (x / 256)

/-- The field of `n` bytes at offset `off`. -/
def readLE (off n : Nat) (bs : List UInt8) : Nat := leNat ((bs.drop off).take n)

@[simp] theorem length_leBytes (n x : Nat) : (leBytes n x).length = n := by
  induction n generalizing x with
  | zero => rfl
  | succ n ih => simp [leBytes, ih]

theorem leNat_lt (bs : List UInt8) : leNat bs < 256 ^ bs.length := by
  induction bs with
  | nil => simp [leNat]
  | cons b bs ih =>
    have hb : b.toNat < 256 := b.toNat_lt
    simp only [leNat, List.length_cons, Nat.pow_succ]
    omega

/-- Reading back what was written, as far as the bytes hold it. -/
theorem leNat_leBytes (n x : Nat) : leNat (leBytes n x) = x % 256 ^ n := by
  induction n generalizing x with
  | zero => simp [leBytes, leNat, Nat.mod_one]
  | succ n ih =>
    have hb : (UInt8.ofNat x).toNat = x % 256 := by simp
    rw [leBytes, leNat, ih, hb, Nat.pow_succ, Nat.mul_comm (256 ^ n) 256, Nat.mod_mul]

theorem leNat_leBytes_of_lt {n x : Nat} (h : x < 256 ^ n) : leNat (leBytes n x) = x := by
  rw [leNat_leBytes, Nat.mod_eq_of_lt h]

/-- A field that starts behind `pre` is read from what follows `pre`. -/
theorem readLE_append_left {pre bs : List UInt8} {off n : Nat} (h : pre.length ≤ off) :
    readLE off n (pre ++ bs) = readLE (off - pre.length) n bs := by
  have hd : (pre ++ bs).drop off = bs.drop (off - pre.length) := by
    rw [List.drop_append, List.drop_of_length_le h, List.nil_append]
  rw [readLE, readLE, hd]

/-- A field that ends within the first part is read from that part. -/
theorem readLE_append_right {bs cs : List UInt8} {off n : Nat} (h : off + n ≤ bs.length) :
    readLE off n (bs ++ cs) = readLE off n bs := by
  have hd : (bs ++ cs).drop off = bs.drop off ++ cs := List.drop_append_of_le_length (by omega)
  rw [readLE, readLE, hd, List.take_append_of_le_length (by rw [List.length_drop]; omega)]

/-- The first field of a struct is what was written there. -/
theorem readLE_leBytes {n x : Nat} (bs : List UInt8) (h : x < 256 ^ n) : readLE 0 n (leBytes n x ++ bs) = x := by
  rw [readLE, List.drop_zero, List.take_left' (length_leBytes n x), leNat_leBytes_of_lt h]

/-- Writing back the number that some bytes spell. -/
theorem leBytes_leNat (bs : List UInt8) : leBytes bs.length (leNat bs) = bs := by
  induction bs with
  | nil => rfl
  | cons b bs ih =>
    have hb : b.toNat < 256 := b.toNat_lt
    have hlow : UInt8.ofNat (b.toNat + 256 * leNat bs) = b := by
      apply UInt8.toNat_inj.mp
      rw [UInt8.toNat_ofNat']
      omega
    have hrest : (b.toNat + 256 * leNat bs) / 256 = leNat bs := by omega
    rw [List.length_cons, leNat, leBytes, hlow, hrest, ih]

/-- Writing back a field. -/
theorem leBytes_readLE {bs : List UInt8} {off n : Nat} (h : off + n ≤ bs.length) :
    leBytes n (readLE off n bs) = (bs.drop off).take n := by
  have hlen : ((bs.drop off).take n).length = n := by
    rw [List.length_take, List.length_drop]
    omega
  have hback := leBytes_leNat ((bs.drop off).take n)
  rwa [hlen] at hback

theorem readLE_lt {bs : List UInt8} {off n : Nat} (h : off + n ≤ bs.length) : readLE off n bs < 256 ^ n := by
  have hlen : ((bs.drop off).take n).length = n := by
    rw [List.length_take, List.length_drop]
    omega
  have hlt := leNat_lt ((bs.drop off).take n)
  rwa [hlen] at hlt

end Bytes
