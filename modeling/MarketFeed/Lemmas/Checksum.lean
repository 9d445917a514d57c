import MarketFeed.Protocol

/-!
# The XOR checksum

A message whose length is a multiple of four passes `verify_checksum` exactly when the XOR of all its words, the checksum word
included, is zero (`verifyChecksum_iff`). The XOR goes lane by lane, a lane being the bytes at every fourth offset, so a change that
leaves all but one byte of each lane alone is always seen (`verifyChecksum_window`).
-/

namespace MarketFeed

open Bytes

namespace ChecksumAux

/-- A word of bytes, as the checksum reads it. -/
def word (bs : List UInt8) : UInt32 := UInt32.ofNat (leNat bs)

/-- The word spelled by the four bytes of a number is that number. -/
theorem word_leBytes (x : UInt32) : word (leBytes 4 x.toNat) = x := by
  rw [word, leNat_leBytes_of_lt (show x.toNat < 256 ^ 4 from x.toNat_lt), UInt32.ofNat_toNat]

/-- Four bytes in front are one word. -/
theorem checksumLoop_append_four {w : List UInt8} (hw : w.length = 4) (x : UInt32) (bs : List UInt8) :
    checksumLoop x (w ++ bs) = checksumLoop (x ^^^ word w) bs := by
  match w, hw with
  | [b0, b1, b2, b3], _ => rfl

/-- Whole words in front are folded first. -/
theorem checksumLoop_append {as : List UInt8} (ha : 4 ∣ as.length) (x : UInt32) (bs : List UInt8) :
    checksumLoop x (as ++ bs) = checksumLoop (checksumLoop x as) bs := by
  fun_induction checksumLoop x as with
  | case1 x b0 b1 b2 b3 rest ih =>
    rw [← ih (by simp only [List.length_cons] at ha; omega)]
    rfl
  | case2 x rem hn h0 => rw [List.eq_nil_of_length_eq_zero h0, List.nil_append]
  | case3 x rem hn h0 =>
    match rem with
    | [] => simp at h0
    | [_] => simp at ha
    | [_, _] => simp at ha
    | [_, _, _] => simp at ha
    | b0 :: b1 :: b2 :: b3 :: rest => exact absurd rfl (hn b0 b1 b2 b3 rest)

/-- A word on its own. -/
theorem checksumLoop_word {w : List UInt8} (hw : w.length = 4) (x : UInt32) : checksumLoop x w = x ^^^ word w := by
  have := checksumLoop_append_four hw x []
  rwa [List.append_nil] at this

/-! ## Lanes -/

/-- The XOR of the bytes at the offsets `j`, `j + 4`, `j + 8` and so on. -/
def laneXor : Nat → List UInt8 → UInt8
  | _, [] => 0
  | 0, b :: bs => b ^^^ laneXor 3 bs
  | j + 1, _ :: bs => laneXor j bs

/-- The byte of a word that the bytes of lane `j` go into. -/
def lane (j : Nat) (x : UInt32) : UInt8 := (x >>> UInt32.ofNat (8 * j)).toUInt8

theorem lane_xor (j : Nat) (x y : UInt32) : lane j (x ^^^ y) = lane j x ^^^ lane j y := by
  rw [lane, UInt32.shiftRight_xor, UInt32.toUInt8_xor]
  rfl

/-- A word is spelled by its lanes. -/
theorem lane_word {j : Nat} {bs : List UInt8} (hb : bs.length = 4) (hj : j < bs.length) : lane j (word bs) = bs[j] := by
  have hlt := leNat_lt bs
  rw [hb] at hlt
  have hword : (word bs).toNat = leNat bs := UInt32.toNat_ofNat_of_lt' hlt
  apply UInt8.toNat_inj.mp
  rw [lane, UInt32.toNat_toUInt8, UInt32.toNat_shiftRight, hword, Nat.shiftRight_eq_div_pow]
  match bs, hb with
  | [b0, b1, b2, b3], _ =>
    have h0 := b0.toNat_lt
    have h1 := b1.toNat_lt
    have h2 := b2.toNat_lt
    have h3 := b3.toNat_lt
    simp only [leNat]
    simp only [List.length_cons, List.length_nil] at hj
    interval_cases j <;> simp <;> omega

/-- The loop of `compute_checksum` folds lane by lane. -/
theorem lane_checksumLoop {bs : List UInt8} (h4 : 4 ∣ bs.length) (x : UInt32) {j : Nat} (hj : j < 4) :
    lane j (checksumLoop x bs) = lane j x ^^^ laneXor j bs := by
  fun_induction checksumLoop x bs with
  | case1 x b0 b1 b2 b3 rest ih =>
    have hfourBytes : [b0, b1, b2, b3].length = 4 := rfl
    have hword := lane_word hfourBytes hj
    have hfour : laneXor j (b0 :: b1 :: b2 :: b3 :: rest) = [b0, b1, b2, b3][j] ^^^ laneXor j rest := by
      interval_cases j <;> rfl
    have hx : lane j (x ^^^ UInt32.ofNat (leNat [b0, b1, b2, b3])) = lane j x ^^^ lane j (word [b0, b1, b2, b3]) := lane_xor j x _
    rw [ih (by simp only [List.length_cons] at h4; omega), hx, hword, hfour, UInt8.xor_assoc]
  | case2 x rem hn h0 =>
    rw [List.eq_nil_of_length_eq_zero h0, laneXor, UInt8.xor_zero]
  | case3 x rem hn h0 =>
    match rem with
    | [] => simp at h0
    | [_] => simp at h4
    | [_, _] => simp at h4
    | [_, _, _] => simp at h4
    | b0 :: b1 :: b2 :: b3 :: rest => exact absurd rfl (hn b0 b1 b2 b3 rest)

/-- A lane looks at the bytes of the lane alone. -/
theorem laneXor_congr {as bs : List UInt8} (hl : as.length = bs.length) {j : Nat} (hj : j < 4)
    (h : ∀ q, q % 4 = j → as[q]? = bs[q]?) : laneXor j as = laneXor j bs := by
  induction as generalizing bs j with
  | nil =>
    rw [List.eq_nil_of_length_eq_zero hl.symm]
  | cons a as ih =>
    cases bs with
    | nil => simp at hl
    | cons b bs =>
      simp only [List.length_cons, Nat.add_right_cancel_iff] at hl
      cases j with
      | zero =>
        have hab : a = b := by simpa using h 0 rfl
        have hrest := ih hl (j := 3) (by omega) fun q hq => by simpa using h (q + 1) (by omega)
        rw [laneXor, laneXor, hab, hrest]
      | succ j =>
        exact ih hl (by omega) fun q hq => by simpa using h (q + 1) (by omega)

/-- A byte is decided by its lane and the other bytes of the lane. -/
theorem getElem?_of_laneXor {as bs : List UInt8} (hl : as.length = bs.length) {p : Nat}
    (hlane : laneXor (p % 4) as = laneXor (p % 4) bs) (h : ∀ q, q % 4 = p % 4 → q ≠ p → as[q]? = bs[q]?) : as[p]? = bs[p]? := by
  induction as generalizing bs p with
  | nil => rw [List.eq_nil_of_length_eq_zero hl.symm]
  | cons a as ih =>
    cases bs with
    | nil => simp at hl
    | cons b bs =>
      simp only [List.length_cons, Nat.add_right_cancel_iff] at hl
      cases p with
      | zero =>
        have hrest : laneXor 3 as = laneXor 3 bs :=
          laneXor_congr hl (by omega) fun q hq => by simpa using h (q + 1) (by omega) (by omega)
        have hab : a ^^^ laneXor 3 as = b ^^^ laneXor 3 bs := hlane
        rw [hrest, UInt8.xor_left_inj] at hab
        simp [hab]
      | succ p =>
        have htail : laneXor (p % 4) as = laneXor (p % 4) bs := by
          -- the first bytes are in the lane when `p + 1` is a multiple of four
          cases hp : (p + 1) % 4 with
          | zero =>
            have hab : a = b := by simpa using h 0 (by omega) (by omega)
            have hp3 : p % 4 = 3 := by omega
            rw [hp, laneXor, laneXor, hab, UInt8.xor_right_inj] at hlane
            rw [hp3, hlane]
          | succ j =>
            have hpj : p % 4 = j := by omega
            rw [hp, laneXor, laneXor] at hlane
            rw [hpj, hlane]
        have hrest := ih hl htail fun q hq hne => by simpa using h (q + 1) (by omega) (by omega)
        simpa using hrest

end ChecksumAux

open ChecksumAux

/-- A message of whole words passes the check exactly when the XOR of all its words is zero. -/
theorem verifyChecksum_iff {msg : List UInt8} (h4 : 4 ∣ msg.length) (hpos : 4 ≤ msg.length) :
    verifyChecksum msg msg.length = true ↔ checksumLoop 0 msg = 0 := by
  have hd : 4 ∣ (msg.take (msg.length - checksumSize)).length := by
    rw [List.length_take, Nat.min_eq_left (Nat.sub_le _ _), checksumSize]
    omega
  have hw : (msg.drop (msg.length - checksumSize)).length = 4 := by
    rw [List.length_drop, checksumSize]
    omega
  have hsplit : checksumLoop 0 msg =
      computeChecksum msg (msg.length - checksumSize) ^^^ word (msg.drop (msg.length - checksumSize)) := by
    conv_lhs => rw [← List.take_append_drop (msg.length - checksumSize) msg]
    rw [checksumLoop_append hd, checksumLoop_word hw]
    rfl
  have hread : UInt32.ofNat (readLE (msg.length - checksumSize) 4 msg) = word (msg.drop (msg.length - checksumSize)) := by
    rw [readLE, List.take_of_length_le (by omega)]
    rfl
  rw [hsplit, UInt32.xor_eq_zero_iff, verifyChecksum, hread, beq_iff_eq]

/-- The check of a message looks at the message alone, not at what follows it. -/
theorem verifyChecksum_take {bs : List UInt8} {n : Nat} (hn : n ≤ bs.length) (h4 : 4 ≤ n) :
    verifyChecksum (bs.take n) n = verifyChecksum bs n := by
  have h1 : (bs.take n).take (n - checksumSize) = bs.take (n - checksumSize) := by
    rw [List.take_take, Nat.min_eq_left (Nat.sub_le _ _)]
  have h2 : readLE (n - checksumSize) 4 (bs.take n) = readLE (n - checksumSize) 4 bs := by
    conv_rhs => rw [← List.take_append_drop n bs]
    rw [readLE_append_right (by rw [List.length_take, Nat.min_eq_left hn, checksumSize]; omega)]
  simp only [verifyChecksum, computeChecksum, h1, h2]

/-- `set_checksum` makes the check pass: the last word is the XOR of the others. -/
theorem verifyChecksum_setChecksum {body : List UInt8} (h4 : 4 ∣ body.length) (cs : List UInt8) (hcs : cs.length = 4) :
    verifyChecksum (setChecksum (body ++ cs) (body.length + 4)) (body.length + 4) = true ∧
      setChecksum (body ++ cs) (body.length + 4) = body ++ leBytes 4 (checksumLoop 0 body).toNat := by
  have hset : setChecksum (body ++ cs) (body.length + 4) = body ++ leBytes 4 (checksumLoop 0 body).toNat := by
    rw [setChecksum, checksumSize, Nat.add_sub_cancel, computeChecksum, List.take_left,
      List.drop_of_length_le (by simp [hcs]), List.append_nil]
  refine ⟨?_, hset⟩
  rw [hset]
  have hl : (body ++ leBytes 4 (checksumLoop 0 body).toNat).length = body.length + 4 := by simp
  have h4' : 4 ∣ body.length + 4 := by omega
  rw [← hl] at h4' ⊢
  rw [verifyChecksum_iff h4' (by omega), checksumLoop_append h4, checksumLoop_word (length_leBytes _ _), word_leBytes,
    UInt32.xor_self]

/-- Two messages that pass the check are the same if they differ within four consecutive bytes only. -/
theorem verifyChecksum_window {msg msg' : List UInt8} (h4 : 4 ∣ msg.length) (hpos : 4 ≤ msg.length)
    (hl : msg'.length = msg.length) (hok : verifyChecksum msg msg.length = true) (hok' : verifyChecksum msg' msg'.length = true)
    {i : Nat} (hout : ∀ p, p < i ∨ i + 4 ≤ p → msg'[p]? = msg[p]?) : msg' = msg := by
  rw [verifyChecksum_iff h4 hpos] at hok
  rw [verifyChecksum_iff (by omega) (by omega)] at hok'
  have hlanes : ∀ j < 4, laneXor j msg' = laneXor j msg := by
    intro j hj
    have h := lane_checksumLoop h4 0 hj
    have h' := lane_checksumLoop (hl ▸ h4) 0 hj
    rw [hok] at h
    rw [hok'] at h'
    exact (UInt8.xor_right_inj _).mp (h'.symm.trans h)
  apply List.ext_getElem?
  intro p
  by_cases hp : p < i ∨ i + 4 ≤ p
  · exact hout p hp
  · -- the other bytes of its lane are at least four away, so outside the window
    exact getElem?_of_laneXor hl (hlanes (p % 4) (by omega)) fun q hq hne => hout q (by omega)

/-- A message with one byte changed fails the check. -/
theorem verifyChecksum_set {msg : List UInt8} (h4 : 4 ∣ msg.length) (hpos : 4 ≤ msg.length)
    (hok : verifyChecksum msg msg.length = true) {p : Nat} {b : UInt8} (hne : msg.set p b ≠ msg) :
    verifyChecksum (msg.set p b) msg.length = false := by
  have hl : (msg.set p b).length = msg.length := List.length_set
  rw [← Bool.not_eq_true]
  intro hbad
  rw [← hl] at hbad
  have hout : ∀ q, q < p ∨ p + 4 ≤ q → (msg.set p b)[q]? = msg[q]? := fun q hq => List.getElem?_set_ne (by omega)
  exact hne (verifyChecksum_window h4 hpos hl hok hbad hout)

end MarketFeed
