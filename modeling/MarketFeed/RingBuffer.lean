import Mathlib.Tactic

/-!
# The byte ring buffer

`ByteRingBuffer` of `include/common/ring_buffer.h`, its operations as whole calls. The positions are free-running 64-bit
counters that are masked only when the buffer is accessed, and both copies are split at the end of the buffer. `contents` is
what the buffer holds, as a list: the calls are those of a bounded FIFO on it (`write_spec`, `peek_spec`, `consume_spec`), at any
positions, also across the wrap of the counters.

The concurrent use by one producer and one consumer is in `RingThreads`.
-/

namespace MarketFeed

/-- A capacity that the `static_assert` lets through: a power of two that a `size_t` can hold. -/
structure Capacity where
  val : Nat
  pow2 : ∃ k < 64, val = 2 ^ k

/-- `ByteRingBuffer`. Only the slots below the capacity are used. -/
structure ByteRingBuffer (c : Capacity) where
  buf : Nat → UInt8
  writePos : UInt64
  readPos : UInt64

/-- `MASK`. -/
def Capacity.mask (c : Capacity) : UInt64 := UInt64.ofNat (c.val - 1)

/-- `memcpy(buf + off, src, n)` for a source of `n` bytes. -/
def memcpyTo (buf : Nat → UInt8) (off : Nat) (src : List UInt8) : Nat → UInt8 :=
  fun i => if off ≤ i then (src[i - off]?).getD (buf i) else buf i

/-- `memcpy(dst, buf + off, n)`. -/
def memcpyFrom (buf : Nat → UInt8) (off n : Nat) : List UInt8 := (List.range n).map (fun i => buf (off + i))

namespace ByteRingBuffer

variable {c : Capacity}

/-- A new ring buffer. The bytes it starts with are never read. -/
def empty (c : Capacity) : ByteRingBuffer c := { buf := fun _ => 0, writePos := 0, readPos := 0 }

/-- `writable`. -/
def writable (r : ByteRingBuffer c) : UInt64 := UInt64.ofNat c.val - (r.writePos - r.readPos)

/-- `readable`. -/
def readable (r : ByteRingBuffer c) : UInt64 := r.writePos - r.readPos

/-- `write`: the buffer after the call and the number of bytes accepted. -/
def write (r : ByteRingBuffer c) (src : List UInt8) : ByteRingBuffer c × Nat :=
  let avail := r.writable.toNat
  let len := if src.length > avail then avail else src.length
  if len = 0 then (r, 0)
  else
    let wp := (r.writePos &&& c.mask).toNat
    let tail := c.val - wp
    let buf :=
      if len ≤ tail then memcpyTo r.buf wp (src.take len)
      else memcpyTo (memcpyTo r.buf wp (src.take tail)) 0 ((src.take len).drop tail)
    ({ r with buf := buf, writePos := r.writePos + UInt64.ofNat len }, len)

/-- `peek`: the bytes copied out; their number is what the call returns. -/
def peek (r : ByteRingBuffer c) (len : Nat) : List UInt8 :=
  let avail := r.readable.toNat
  let len := if len > avail then avail else len
  if len = 0 then []
  else
    let rp := (r.readPos &&& c.mask).toNat
    let tail := c.val - rp
    if len ≤ tail then memcpyFrom r.buf rp len
    else memcpyFrom r.buf rp tail ++ memcpyFrom r.buf 0 (len - tail)

/-- `consume`. -/
def consume (r : ByteRingBuffer c) (n : Nat) : ByteRingBuffer c := { r with readPos := r.readPos + UInt64.ofNat n }

/-- `read`. -/
def read (r : ByteRingBuffer c) (len : Nat) : ByteRingBuffer c × List UInt8 :=
  let dst := r.peek len
  (r.consume dst.length, dst)

/-- `reset`. -/
def reset (r : ByteRingBuffer c) : ByteRingBuffer c := { r with readPos := 0, writePos := 0 }

/-- What the buffer holds: the bytes from the read position up to the write position. -/
def contents (r : ByteRingBuffer c) : List UInt8 :=
  (List.range r.readable.toNat).map (fun i => r.buf ((r.readPos.toNat + i) % c.val))

/-- The positions are at most a capacity apart. -/
def Bounded (r : ByteRingBuffer c) : Prop := r.readable.toNat ≤ c.val

end ByteRingBuffer

/-! ## Slots -/

namespace Capacity

variable (c : Capacity)

theorem pos : 0 < c.val := by
  obtain ⟨k, -, hk⟩ := c.pow2
  rw [hk]
  exact Nat.two_pow_pos k

theorem lt_size : c.val < 2 ^ 64 := by
  obtain ⟨k, hk, hc⟩ := c.pow2
  rw [hc]
  exact Nat.pow_lt_pow_right (by omega) hk

theorem dvd_size : c.val ∣ 2 ^ 64 := by
  obtain ⟨k, hk, hc⟩ := c.pow2
  rw [hc]
  exact Nat.pow_dvd_pow 2 (by omega)

/-- The slot of a position: masking is the remainder by the capacity. -/
theorem and_mask (p : UInt64) : (p &&& c.mask).toNat = p.toNat % c.val := by
  obtain ⟨k, hk, hc⟩ := c.pow2
  have hlt : c.val - 1 < 2 ^ 64 := by have := c.lt_size; omega
  rw [UInt64.toNat_and, mask, UInt64.toNat_ofNat_of_lt' hlt, hc, Nat.and_two_pow_sub_one_eq_mod]

/-- The wrap of a position does not move its slot. -/
theorem wrap_mod (n : Nat) : n % 2 ^ 64 % c.val = n % c.val := Nat.mod_mod_of_dvd n c.dvd_size

/-- Positions less than a capacity apart have different slots. -/
theorem mod_ne {i j : Nat} (hij : i < j) (hj : j < i + c.val) : i % c.val ≠ j % c.val := by
  intro h
  have hd : c.val ∣ j - i := Nat.dvd_of_mod_eq_zero (Nat.sub_mod_eq_zero_of_mod_eq h.symm)
  have := Nat.le_of_dvd (by omega) hd
  omega

/-- The slot of the `j`-th byte of a copy that starts at position `p`: the copy is split where the buffer ends. -/
theorem slot_eq (p : Nat) {j : Nat} (hj : j < c.val) :
    (p + j) % c.val = if j < c.val - p % c.val then p % c.val + j else j - (c.val - p % c.val) := by
  have hp : p % c.val < c.val := Nat.mod_lt p c.pos
  rw [Nat.add_mod, Nat.mod_eq_of_lt hj]
  split
  · rw [Nat.mod_eq_of_lt (by omega)]
  · rw [Nat.mod_eq_sub_mod (by omega), Nat.mod_eq_of_lt (by omega)]
    omega

end Capacity

/-! ## Copies -/

namespace RingAux

theorem memcpyTo_mem {buf : Nat → UInt8} {off : Nat} {src : List UInt8} {i : Nat} (h1 : off ≤ i)
    (h2 : i - off < src.length) : memcpyTo buf off src i = src[i - off] := by
  simp [memcpyTo, h1, h2]

theorem memcpyTo_of_lt {buf : Nat → UInt8} {off : Nat} {src : List UInt8} {i : Nat} (h : i < off) :
    memcpyTo buf off src i = buf i := by
  simp [memcpyTo, Nat.not_le.mpr h]

theorem memcpyTo_of_ge {buf : Nat → UInt8} {off : Nat} {src : List UInt8} {i : Nat} (h : off + src.length ≤ i) :
    memcpyTo buf off src i = buf i := by
  have hnone : src[i - off]? = none := List.getElem?_eq_none (by omega)
  simp [memcpyTo, hnone]

/-- The buffer after the copy of `write`, in one or two parts. -/
def copyIn (c : Capacity) (buf : Nat → UInt8) (p : Nat) (src : List UInt8) : Nat → UInt8 :=
  if src.length ≤ c.val - p % c.val then memcpyTo buf (p % c.val) src
  else memcpyTo (memcpyTo buf (p % c.val) (src.take (c.val - p % c.val))) 0 (src.drop (c.val - p % c.val))

/-- A copied byte is in its slot. -/
theorem copyIn_slot {c : Capacity} {buf : Nat → UInt8} {p : Nat} {src : List UInt8} (hlen : src.length ≤ c.val) {j : Nat}
    (hj : j < src.length) : copyIn c buf p src ((p + j) % c.val) = src[j] := by
  have hp : p % c.val < c.val := Nat.mod_lt p c.pos
  rw [c.slot_eq p (by omega), copyIn]
  split <;> rename_i htail
  · rw [if_pos (by omega), memcpyTo_mem (by omega) (by omega)]
    congr 1
    omega
  · split <;> rename_i hjt
    · have hlt : (src.drop (c.val - p % c.val)).length ≤ p % c.val + j := by
        rw [List.length_drop]
        omega
      rw [memcpyTo_of_ge (by omega), memcpyTo_mem (by omega) (by rw [List.length_take]; omega)]
      rw [List.getElem_take]
      congr 1
      omega
    · rw [memcpyTo_mem (by omega) (by rw [List.length_drop]; omega), List.getElem_drop]
      congr 1
      omega

/-- A slot that no byte of the copy falls into keeps its byte. -/
theorem copyIn_other {c : Capacity} {buf : Nat → UInt8} {p : Nat} {src : List UInt8} (hlen : src.length ≤ c.val) {i : Nat}
    (hi : i < c.val) (hne : ∀ j < src.length, (p + j) % c.val ≠ i) : copyIn c buf p src i = buf i := by
  have hp : p % c.val < c.val := Nat.mod_lt p c.pos
  have hslot : ∀ j < src.length, (if j < c.val - p % c.val then p % c.val + j else j - (c.val - p % c.val)) ≠ i := by
    intro j hj
    rw [← c.slot_eq p (by omega)]
    exact hne j hj
  unfold copyIn
  split <;> rename_i htail
  · by_cases hlt : i < p % c.val
    · exact memcpyTo_of_lt hlt
    · by_cases hge : p % c.val + src.length ≤ i
      · exact memcpyTo_of_ge hge
      · have := hslot (i - p % c.val) (by omega)
        rw [if_pos (by omega)] at this
        omega
  · have htake : (src.take (c.val - p % c.val)).length = c.val - p % c.val := by
      rw [List.length_take]
      omega
    by_cases hlt : i < src.length - (c.val - p % c.val)
    · have := hslot (i + (c.val - p % c.val)) (by omega)
      rw [if_neg (by omega)] at this
      omega
    · rw [memcpyTo_of_ge (by rw [List.length_drop]; omega)]
      by_cases hlt' : i < p % c.val
      · exact memcpyTo_of_lt hlt'
      · have := hslot (i - p % c.val) (by omega)
        rw [if_pos (by omega)] at this
        omega

/-- The bytes copied out from position `p` on, in one or two parts. -/
theorem copyOut_eq (c : Capacity) (buf : Nat → UInt8) (p : Nat) {len : Nat} (hlen : len ≤ c.val) :
    (if len ≤ c.val - p % c.val then memcpyFrom buf (p % c.val) len
      else memcpyFrom buf (p % c.val) (c.val - p % c.val) ++ memcpyFrom buf 0 (len - (c.val - p % c.val))) =
    (List.range len).map (fun i => buf ((p + i) % c.val)) := by
  have hp : p % c.val < c.val := Nat.mod_lt p c.pos
  split <;> rename_i htail
  · apply List.map_congr_left
    intro i hi
    rw [List.mem_range] at hi
    rw [c.slot_eq p (by omega), if_pos (by omega)]
  · obtain ⟨m, hm⟩ : ∃ m, len = (c.val - p % c.val) + m := ⟨len - (c.val - p % c.val), by omega⟩
    rw [hm, Nat.add_sub_cancel_left, List.range_add, List.map_append, List.map_map]
    congr 1
    · apply List.map_congr_left
      intro i hi
      rw [List.mem_range] at hi
      rw [c.slot_eq p (by omega), if_pos hi]
    · apply List.map_congr_left
      intro i hi
      rw [List.mem_range] at hi
      rw [Function.comp_apply, c.slot_eq p (by omega), if_neg (by omega)]
      congr 1
      omega

end RingAux

/-! ## The calls, on the contents -/

namespace ByteRingBuffer

open RingAux

variable {c : Capacity}

@[simp] theorem length_contents (r : ByteRingBuffer c) : r.contents.length = r.readable.toNat := by
  simp [contents]

theorem readable_empty (c : Capacity) : (empty c).readable.toNat = 0 := by
  simp [empty, readable]

theorem contents_empty (c : Capacity) : (empty c).contents = [] :=
  List.eq_nil_of_length_eq_zero (by rw [length_contents, readable_empty])

theorem bounded_empty (c : Capacity) : (empty c).Bounded := by
  rw [Bounded, readable_empty]
  exact Nat.zero_le _

/-- The free space is what the contents leave of the capacity. -/
theorem writable_toNat {r : ByteRingBuffer c} (h : r.Bounded) : r.writable.toNat = c.val - r.readable.toNat := by
  have hc := c.lt_size
  unfold Bounded readable at h
  unfold writable readable
  rw [UInt64.toNat_sub, UInt64.toNat_ofNat_of_lt' hc]
  generalize (r.writePos - r.readPos).toNat = d at *
  have hd : 2 ^ 64 - d + c.val = (c.val - d) + 2 ^ 64 := by omega
  rw [hd, Nat.add_mod_right, Nat.mod_eq_of_lt (by omega)]

/-- Position arithmetic: moving the write position on makes that much more readable. -/
theorem readable_add {r : ByteRingBuffer c} {n : Nat} (h : r.readable.toNat + n < 2 ^ 64) :
    (r.writePos + UInt64.ofNat n - r.readPos).toNat = r.readable.toNat + n := by
  have he : r.writePos + UInt64.ofNat n - r.readPos = r.readable + UInt64.ofNat n := by
    unfold readable
    rw [UInt64.sub_eq_add_neg, UInt64.sub_eq_add_neg, UInt64.add_assoc, UInt64.add_assoc,
      UInt64.add_comm (UInt64.ofNat n)]
  rw [he, UInt64.toNat_add, UInt64.toNat_ofNat_of_lt' (show n < 2 ^ 64 by omega), Nat.mod_eq_of_lt h]

/-- Position arithmetic: moving the read position on makes that much less readable. -/
theorem readable_sub {r : ByteRingBuffer c} {n : Nat} (h : n ≤ r.readable.toNat) :
    (r.writePos - (r.readPos + UInt64.ofNat n)).toNat = r.readable.toNat - n := by
  have hn : n < 2 ^ 64 := Nat.lt_of_le_of_lt h r.readable.toNat_lt
  have he : r.writePos - (r.readPos + UInt64.ofNat n) = r.readable - UInt64.ofNat n := by
    unfold readable
    rw [UInt64.sub_eq_add_neg, UInt64.neg_add, UInt64.sub_eq_add_neg (-r.readPos), ← UInt64.add_assoc,
      ← UInt64.sub_eq_add_neg, ← UInt64.sub_eq_add_neg]
  rw [he, UInt64.toNat_sub_of_le _ _ (by rw [UInt64.le_iff_toNat_le, UInt64.toNat_ofNat_of_lt' hn]; exact h),
    UInt64.toNat_ofNat_of_lt' hn]

/-- The write position is the read position and the contents behind it, up to the wrap. -/
theorem writePos_mod (r : ByteRingBuffer c) :
    r.writePos.toNat % c.val = (r.readPos.toNat + r.readable.toNat) % c.val := by
  have hadd : r.writePos = r.readPos + r.readable := by
    unfold readable
    rw [UInt64.add_comm, UInt64.sub_add_cancel]
  conv_lhs => rw [hadd, UInt64.toNat_add, c.wrap_mod]

/-- Bytes copied in behind the contents and published are appended to them. -/
theorem contents_publish {r r' : ByteRingBuffer c} {src : List UInt8} (h : r.readable.toNat + src.length ≤ c.val)
    (hbuf : r'.buf = copyIn c r.buf r.writePos.toNat src) (hr : r'.readPos = r.readPos)
    (hw : r'.writePos = r.writePos + UInt64.ofNat src.length) : r'.contents = r.contents ++ src ∧ r'.Bounded := by
  have hc := c.lt_size
  have hread : r'.readable.toNat = r.readable.toNat + src.length := by
    unfold readable
    rw [hr, hw]
    exact readable_add (by omega)
  refine ⟨?_, by unfold Bounded; omega⟩
  unfold contents
  rw [hread, List.range_add, List.map_append, List.map_map, hbuf, hr]
  congr 1
  · apply List.map_congr_left
    intro i hi
    rw [List.mem_range] at hi
    apply copyIn_other (by omega) (Nat.mod_lt _ c.pos)
    intro j hj
    rw [Nat.add_mod, writePos_mod, ← Nat.add_mod]
    exact (c.mod_ne (by omega) (by omega)).symm
  · apply List.ext_getElem
    · simp
    · intro j hj1 hj2
      rw [List.getElem_map, List.getElem_range, Function.comp_apply, ← Nat.add_assoc, Nat.add_mod, ← writePos_mod,
        ← Nat.add_mod, copyIn_slot (by omega) hj2]

/-- `write` appends the longest prefix that fits and says how long it is. -/
theorem write_spec {r : ByteRingBuffer c} (h : r.Bounded) (src : List UInt8) :
    (r.write src).2 = min src.length (c.val - r.contents.length) ∧
      (r.write src).1.contents = r.contents ++ src.take (c.val - r.contents.length) ∧ (r.write src).1.Bounded := by
  have hb : r.readable.toNat ≤ c.val := h
  have hlen : (if src.length > r.writable.toNat then r.writable.toNat else src.length) =
      min src.length (c.val - r.readable.toNat) := by
    rw [writable_toNat h]
    split <;> omega
  have htake : src.take (c.val - r.readable.toNat) = src.take (min src.length (c.val - r.readable.toNat)) := by
    rw [Nat.min_comm, ← List.take_take, List.take_length]
  rw [length_contents, htake]
  unfold write
  simp only [hlen]
  generalize hn : min src.length (c.val - r.readable.toNat) = n at *
  have hsrc : (src.take n).length = n := by rw [List.length_take]; omega
  split <;> rename_i h0
  · subst h0
    exact ⟨rfl, by rw [List.take_zero, List.append_nil], h⟩
  · refine ⟨rfl, contents_publish (by omega) ?_ rfl (by rw [hsrc])⟩
    -- the two-part copy is the copy of `n` bytes from the write position on
    simp only [c.and_mask, copyIn, hsrc]
    split <;> rename_i htail
    · rfl
    · rw [List.take_take, Nat.min_eq_left (by omega)]

/-- `peek` copies out the longest prefix of the contents it is asked for. -/
theorem peek_spec {r : ByteRingBuffer c} (h : r.Bounded) (len : Nat) : r.peek len = r.contents.take len := by
  have hb : r.readable.toNat ≤ c.val := h
  have hlen : (if len > r.readable.toNat then r.readable.toNat else len) = min len r.readable.toNat := by
    split <;> omega
  unfold peek
  simp only [hlen, c.and_mask]
  rw [copyOut_eq c r.buf r.readPos.toNat (by omega)]
  unfold contents
  rw [← List.map_take, List.take_range]
  split <;> rename_i h0
  · rw [h0]
    rfl
  · rfl

/-- `consume` drops bytes from the front of the contents. -/
theorem consume_spec {r : ByteRingBuffer c} (h : r.Bounded) {n : Nat} (hn : n ≤ r.contents.length) :
    (r.consume n).contents = r.contents.drop n ∧ (r.consume n).Bounded := by
  rw [length_contents] at hn
  have hb : r.readable.toNat ≤ c.val := h
  have hn64 : n < 2 ^ 64 := Nat.lt_of_le_of_lt hn r.readable.toNat_lt
  have hread : (r.consume n).readable.toNat = r.readable.toNat - n := readable_sub hn
  refine ⟨?_, by unfold Bounded; omega⟩
  apply List.ext_getElem
  · rw [length_contents, List.length_drop, length_contents, hread]
  · intro i hi1 hi2
    simp only [contents, List.getElem_drop, List.getElem_map, List.getElem_range, consume]
    rw [UInt64.toNat_add, UInt64.toNat_ofNat_of_lt' hn64, Nat.add_mod, c.wrap_mod, ← Nat.add_mod, Nat.add_assoc]

end ByteRingBuffer

end MarketFeed
