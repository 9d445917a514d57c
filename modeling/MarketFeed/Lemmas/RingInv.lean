import MarketFeed.RingThreads

/-!
# The invariant of the two ring threads

The positions are the numbers of bytes accepted and consumed, up to the wrap; the slots between them hold the accepted bytes.
Each thread adds what it knows at its program counter. What one thread loads of the other's position may be out of date, but only
on the safe side: the producer has seen no more consumed than there is, the consumer no more accepted.
-/

namespace MarketFeed

namespace RingInvAux

variable {c : Capacity}

/-! ## Positions and slots -/

/-- The difference of two positions is the difference of the counts. -/
theorem pos_sub {a k : Nat} (h : k ≤ a) (hlt : a - k < 2 ^ 64) : (UInt64.ofNat a - UInt64.ofNat k).toNat = a - k := by
  rw [← UInt64.ofNat_sub h, UInt64.toNat_ofNat_of_lt' hlt]

/-- The free space `write` computes from two loaded positions. -/
theorem avail_eq (c : Capacity) {a k : Nat} (h : k ≤ a) (hle : a - k ≤ c.val) :
    (UInt64.ofNat c.val - (UInt64.ofNat a - UInt64.ofNat k)).toNat = c.val - (a - k) := by
  have hc := c.lt_size
  rw [← UInt64.ofNat_sub h]
  exact pos_sub hle (by omega)

/-- The slot of a position that counts `a` bytes. -/
theorem slot_ofNat (c : Capacity) (a : Nat) : (UInt64.ofNat a).toNat % c.val = a % c.val := by
  rw [UInt64.toNat_ofNat', c.wrap_mod]

/-- A copy goes through the slots of consecutive positions. -/
theorem copySlot_eq {a len i : Nat} (hi : i < len) (hlen : len ≤ c.val) :
    copySlot c (a % c.val) len i = (a + i) % c.val := by
  have ha : a % c.val < c.val := Nat.mod_lt a c.pos
  rw [c.slot_eq a (by omega), copySlot]
  split <;> rename_i htail
  · rw [if_pos (by omega)]
  · rfl

/-! ## The invariant -/

/-- The length the producer has cut its bytes to, and that the space for them is there. -/
structure SizeOk (c : Capacity) (accepted consumed src : List UInt8) (len free : Nat) : Prop where
  len_eq : len = min src.length free
  room : accepted.length + free ≤ consumed.length + c.val

/-- What the producer knows. -/
def ProducerOk (r : ByteRingBuffer c) (accepted consumed : List UInt8) : ProducerPc → Prop
  | .idle => True
  | .sizing _ wp rp free =>
    (∀ w, wp = some w → w = r.writePos) ∧
      ∀ x, rp = some x → ∃ k ≤ consumed.length, x = UInt64.ofNat k ∧ accepted.length ≤ k + c.val ∧
        free = c.val - (accepted.length - k)
  | .locating src len free => SizeOk c accepted consumed src len free
  | .copying src len free wp i =>
    SizeOk c accepted consumed src len free ∧ wp = r.writePos.toNat % c.val ∧ i ≤ len ∧
      ∀ j < i, r.buf ((accepted.length + j) % c.val) = src[j]?.getD 0

/-- What the consumer knows. -/
def ConsumerOk (r : ByteRingBuffer c) (accepted consumed : List UInt8) : ConsumerPc → Prop
  | .idle => True
  | .sizing _ wp rp =>
    (∀ w, wp = some w → ∃ k, consumed.length ≤ k ∧ k ≤ accepted.length ∧ w = UInt64.ofNat k) ∧
      ∀ x, rp = some x → x = r.readPos
  | .locating _ len => 0 < len ∧ consumed.length + len ≤ accepted.length
  | .copying _ len rp dst =>
    dst.length < len ∧ consumed.length + len ≤ accepted.length ∧ rp = r.readPos.toNat % c.val ∧
      consumed ++ dst <+: accepted
  | .consuming dst => consumed ++ dst <+: accepted

/-- The invariant of the ring buffer and its two threads. -/
structure RingInv (s : RingSys c) : Prop where
  writePos : s.ring.writePos = UInt64.ofNat s.accepted.length
  readPos : s.ring.readPos = UInt64.ofNat s.consumed.length
  bounded : s.accepted.length ≤ s.consumed.length + c.val
  held : ∀ j, s.consumed.length ≤ j → j < s.accepted.length → s.accepted[j]? = some (s.ring.buf (j % c.val))
  peeked : s.consumed ++ s.peeked <+: s.accepted
  reports : ∀ r ∈ s.reports, r.returned = min r.src.length r.free
  producer : ProducerOk s.ring s.accepted s.consumed s.producer
  consumer : ConsumerOk s.ring s.accepted s.consumed s.consumer

theorem RingInv.init (c : Capacity) : RingInv (RingSys.init c) where
  writePos := rfl
  readPos := rfl
  bounded := Nat.zero_le _
  held := fun j _ hj => absurd hj (Nat.not_lt_zero j)
  peeked := List.prefix_refl _
  reports := fun _ hr => absurd hr List.not_mem_nil
  producer := trivial
  consumer := trivial

namespace RingInv

variable {s : RingSys c}

theorem consumed_prefix (h : RingInv s) : s.consumed <+: s.accepted := (List.prefix_append _ _).trans h.peeked

theorem consumed_le (h : RingInv s) : s.consumed.length ≤ s.accepted.length := h.consumed_prefix.length_le

/-- The occupancy is what has been accepted and not consumed. -/
theorem readable_eq (h : RingInv s) : s.ring.readable.toNat = s.accepted.length - s.consumed.length := by
  have hc := c.lt_size
  have hb := h.bounded
  have hle := h.consumed_le
  unfold ByteRingBuffer.readable
  rw [h.writePos, h.readPos]
  exact pos_sub hle (by omega)

end RingInv

/-! ## Each thread leaves what the other knows -/

/-- The consumer's knowledge survives bytes being accepted. -/
theorem ConsumerOk.mono {r r' : ByteRingBuffer c} {accepted accepted' consumed : List UInt8} {pc : ConsumerPc}
    (h : ConsumerOk r accepted consumed pc) (hr : r'.readPos = r.readPos) (hacc : accepted <+: accepted') :
    ConsumerOk r' accepted' consumed pc := by
  have hle := hacc.length_le
  cases pc with
  | idle => trivial
  | sizing call wp rp =>
    obtain ⟨hw, hx⟩ := h
    refine ⟨fun w hwp => ?_, fun x hrp => by rw [hr]; exact hx x hrp⟩
    obtain ⟨k, hk1, hk2, hk3⟩ := hw w hwp
    exact ⟨k, hk1, by omega, hk3⟩
  | locating call len => exact ⟨h.1, by have := h.2; omega⟩
  | copying call len rp dst =>
    obtain ⟨hd, hlen, hrp, hpre⟩ := h
    exact ⟨hd, by omega, by rw [hr]; exact hrp, hpre.trans hacc⟩
  | consuming dst => exact List.IsPrefix.trans h hacc

/-- The producer's knowledge survives bytes being consumed. -/
theorem ProducerOk.mono {r r' : ByteRingBuffer c} {accepted consumed consumed' : List UInt8} {pc : ProducerPc}
    (h : ProducerOk r accepted consumed pc) (hw : r'.writePos = r.writePos) (hb : r'.buf = r.buf)
    (hle : consumed.length ≤ consumed'.length) : ProducerOk r' accepted consumed' pc := by
  have hsize {src : List UInt8} {len free : Nat} (hs : SizeOk c accepted consumed src len free) :
      SizeOk c accepted consumed' src len free := ⟨hs.len_eq, by have := hs.room; omega⟩
  cases pc with
  | idle => trivial
  | sizing src wp rp free =>
    obtain ⟨h1, h2⟩ := h
    refine ⟨fun w hwp => by rw [hw]; exact h1 w hwp, fun x hrp => ?_⟩
    obtain ⟨k, hk, hrest⟩ := h2 x hrp
    exact ⟨k, by omega, hrest⟩
  | locating src len free => exact hsize h
  | copying src len free wp i =>
    obtain ⟨hs, hwp, hi, hj⟩ := h
    exact ⟨hsize hs, by rw [hw]; exact hwp, hi, by rw [hb]; exact hj⟩

/-! ## The producer's steps -/

/-- A producer step that only moves its program counter. -/
theorem RingInv.producer_move {s : RingSys c} (h : RingInv s) {pc : ProducerPc}
    (hpc : ProducerOk s.ring s.accepted s.consumed pc) : RingInv { s with producer := pc } :=
  { h with producer := hpc }

/-- A report of the right number of bytes among right ones. -/
theorem reports_concat {reports : List WriteReport} {src : List UInt8} {free returned : Nat}
    (h : ∀ r ∈ reports, r.returned = min r.src.length r.free) (hnew : returned = min src.length free) :
    ∀ r ∈ reports ++ [⟨src, free, returned⟩], r.returned = min r.src.length r.free := by
  intro r hr
  rcases List.mem_append.mp hr with hr | hr
  · exact h r hr
  · rw [List.mem_singleton.mp hr]
    exact hnew

/-- A finished `write` that accepted nothing. -/
theorem RingInv.refuse {s : RingSys c} (h : RingInv s) {src : List UInt8} {free : Nat} (hlen : 0 = min src.length free) :
    RingInv { s with producer := .idle, reports := s.reports ++ [⟨src, free, 0⟩] } := by
  have hacc : RingSys.accepted { s with producer := .idle, reports := s.reports ++ [⟨src, free, 0⟩] } = s.accepted := by
    simp [RingSys.accepted]
  constructor <;> simp only [hacc]
  · exact h.writePos
  · exact h.readPos
  · exact h.bounded
  · exact h.held
  · exact h.peeked
  · exact reports_concat h.reports hlen
  · trivial
  · exact h.consumer

/-- The load that completes `writable`, or the first of its two loads. -/
theorem RingInv.sized {s : RingSys c} (h : RingInv s) {src : List UInt8} {wp rp : Option UInt64} {free : Nat}
    (hok : ProducerOk s.ring s.accepted s.consumed (.sizing src wp rp free)) : RingInv (s.sized src wp rp free) := by
  have hle := h.consumed_le
  unfold RingSys.sized
  split
  · rename_i w r
    obtain ⟨hw, hr⟩ := hok
    obtain ⟨k, hk, hrk, hroom, hfree⟩ := hr r rfl
    have havail : (UInt64.ofNat c.val - (w - r)).toNat = free := by
      rw [hw w rfl, h.writePos, hrk, avail_eq c (by omega) (by omega), hfree]
    simp only [havail]
    have hlen : (if src.length > free then free else src.length) = min src.length free := by
      split <;> omega
    rw [hlen]
    split <;> rename_i h0
    · exact h.refuse h0.symm
    · exact h.producer_move ⟨rfl, by omega⟩
  · exact h.producer_move hok

/-- One byte of the copy: it goes into a slot that holds nothing the consumer may still read. -/
theorem RingInv.store {s : RingSys c} (h : RingInv s) {src : List UInt8} {len free wp i : Nat}
    (hpc : s.producer = .copying src len free wp i) (hi : i < len) :
    RingInv { s with
      ring := s.ring.store (copySlot c wp len i) (src[i]?.getD 0), producer := .copying src len free wp (i + 1) } := by
  have hprod := h.producer
  rw [hpc] at hprod
  obtain ⟨hsize, hwp, -, hstored⟩ := hprod
  have hroom := hsize.room
  have hlen := hsize.len_eq
  have hle := h.consumed_le
  have hslot : copySlot c wp len i = (s.accepted.length + i) % c.val := by
    rw [hwp, h.writePos, slot_ofNat, copySlot_eq hi (by omega)]
  have hheld : ∀ j, s.consumed.length ≤ j → j < s.accepted.length →
      s.accepted[j]? = some ((s.ring.store (copySlot c wp len i) (src[i]?.getD 0)).buf (j % c.val)) := by
    intro j hj1 hj2
    have hne : j % c.val ≠ (s.accepted.length + i) % c.val := c.mod_ne (by omega) (by omega)
    rw [hslot, ByteRingBuffer.store_buf, Function.update_of_ne hne]
    exact h.held j hj1 hj2
  have hcopied : ∀ j < i + 1,
      (s.ring.store (copySlot c wp len i) (src[i]?.getD 0)).buf ((s.accepted.length + j) % c.val) = src[j]?.getD 0 := by
    intro j hj
    rw [hslot, ByteRingBuffer.store_buf]
    by_cases hji : j = i
    · rw [hji, Function.update_self]
    · have hne : (s.accepted.length + j) % c.val ≠ (s.accepted.length + i) % c.val := c.mod_ne (by omega) (by omega)
      rw [Function.update_of_ne hne]
      exact hstored j (by omega)
  exact { writePos := h.writePos, readPos := h.readPos, bounded := h.bounded, held := hheld, peeked := h.peeked,
          reports := h.reports, producer := ⟨hsize, hwp, by omega, hcopied⟩,
          consumer := h.consumer.mono rfl (List.prefix_refl _) }

/-- The copied bytes become readable. -/
theorem RingInv.publish {s : RingSys c} (h : RingInv s) {src : List UInt8} {len free wp : Nat}
    (hpc : s.producer = .copying src len free wp len) :
    RingInv { s with ring := s.ring.publish len, producer := .idle, reports := s.reports ++ [⟨src, free, len⟩] } := by
  have hprod := h.producer
  rw [hpc] at hprod
  obtain ⟨hsize, -, -, hstored⟩ := hprod
  have hroom := hsize.room
  have hlen := hsize.len_eq
  have hacc : RingSys.accepted { s with
      ring := s.ring.publish len, producer := .idle, reports := s.reports ++ [⟨src, free, len⟩] } =
      s.accepted ++ src.take len := by
    simp [RingSys.accepted]
  have hsrc : (src.take len).length = len := by rw [List.length_take]; omega
  have hheld : ∀ j, s.consumed.length ≤ j → j < (s.accepted ++ src.take len).length →
      (s.accepted ++ src.take len)[j]? = some (s.ring.buf (j % c.val)) := by
    intro j hj1 hj2
    rw [List.length_append, hsrc] at hj2
    by_cases hj : j < s.accepted.length
    · rw [List.getElem?_append_left hj]
      exact h.held j hj1 hj
    · obtain ⟨i, rfl⟩ : ∃ i, j = s.accepted.length + i := ⟨j - s.accepted.length, by omega⟩
      have hi : i < len := by omega
      have hget : src[i]? = some (src.get ⟨i, by omega⟩) := List.getElem?_eq_getElem (by omega)
      rw [List.getElem?_append_right (by omega), Nat.add_sub_cancel_left, List.getElem?_take_of_lt hi,
        hstored i hi, hget, Option.getD_some]
  have hpre : s.accepted <+: s.accepted ++ src.take len := List.prefix_append _ _
  constructor <;> simp only [hacc]
  · rw [List.length_append, hsrc, UInt64.ofNat_add, ← h.writePos, ByteRingBuffer.publish]
  · exact h.readPos
  · rw [List.length_append, hsrc]
    omega
  · exact hheld
  · exact h.peeked.trans hpre
  · exact reports_concat h.reports hlen
  · trivial
  · exact h.consumer.mono rfl hpre

/-- Every step of the producer keeps the invariant. -/
theorem RingInv.producerStep {s s' : RingSys c} (h : RingInv s) {e : ProducerEvent} (hs : s.producerStep e = some s') :
    RingInv s' := by
  have hprod := h.producer
  have hle := h.consumed_le
  have hb := h.bounded
  cases e with
  | write src =>
    simp only [RingSys.producerStep] at hs
    split at hs <;> cases hs
    exact h.producer_move ⟨nofun, nofun⟩
  | loadWritePos =>
    simp only [RingSys.producerStep] at hs
    split at hs <;> rename_i hpc <;> cases hs
    · rw [hpc] at hprod
      exact h.sized ⟨fun w hw => (Option.some.inj hw).symm, hprod.2⟩
    · rw [hpc] at hprod
      exact h.producer_move ⟨hprod, c.and_mask _, Nat.zero_le _, nofun⟩
  | loadReadPos =>
    simp only [RingSys.producerStep] at hs
    split at hs <;> rename_i hpc <;> cases hs
    rw [hpc] at hprod
    refine h.sized ⟨hprod.1, fun x hx => ?_⟩
    rw [← Option.some.inj hx, h.readable_eq]
    exact ⟨s.consumed.length, Nat.le_refl _, h.readPos, hb, rfl⟩
  | storeByte =>
    simp only [RingSys.producerStep] at hs
    split at hs <;> rename_i hpc
    · split at hs <;> rename_i hi <;> cases hs
      exact h.store hpc hi
    · cases hs
  | publish =>
    simp only [RingSys.producerStep] at hs
    split at hs <;> rename_i hpc
    · split at hs <;> rename_i hi <;> cases hs
      subst hi
      exact h.publish hpc
    · cases hs

/-! ## The consumer's steps -/

/-- A consumer step that only moves its program counter. -/
theorem RingInv.consumer_move {s : RingSys c} (h : RingInv s) {pc : ConsumerPc}
    (hpc : ConsumerOk s.ring s.accepted s.consumed pc) : RingInv { s with consumer := pc } :=
  { h with consumer := hpc }

/-- The end of `peek`. -/
theorem RingInv.peekDone {s : RingSys c} (h : RingInv s) {call : ConsumerCall} {dst : List UInt8}
    (hdst : s.consumed ++ dst <+: s.accepted) : RingInv (s.peekDone call dst) := by
  unfold RingSys.peekDone
  split
  · exact h.consumer_move hdst
  · have hpeek : s.consumed ++ (if s.peeked.length ≤ dst.length then dst else s.peeked) <+: s.accepted := by
      split
      · exact hdst
      · exact h.peeked
    exact { h with peeked := hpeek, consumer := trivial }

/-- The load that completes `readable`, or the first of its two loads. -/
theorem RingInv.counted {s : RingSys c} (h : RingInv s) {call : ConsumerCall} {wp rp : Option UInt64}
    (hok : ConsumerOk s.ring s.accepted s.consumed (.sizing call wp rp)) : RingInv (s.counted call wp rp) := by
  have hc := c.lt_size
  have hb := h.bounded
  unfold RingSys.counted
  split
  · rename_i w r
    obtain ⟨hw, hr⟩ := hok
    obtain ⟨k, hk1, hk2, hwk⟩ := hw w rfl
    have havail : (w - r).toNat = k - s.consumed.length := by
      rw [hwk, hr r rfl, h.readPos]
      exact pos_sub hk1 (by omega)
    -- `peek` and `read` cut the length the same way
    have hcut : ∀ (call : ConsumerCall) (len : Nat),
        RingInv (if (if len > (w - r).toNat then (w - r).toNat else len) = 0 then s.peekDone call []
          else { s with consumer := .locating call (if len > (w - r).toNat then (w - r).toNat else len) }) := by
      intro call len
      rw [havail]
      generalize hn : (if len > k - s.consumed.length then k - s.consumed.length else len) = n
      have hnk : n ≤ k - s.consumed.length := by
        rw [← hn]
        split <;> omega
      split
      · exact h.peekDone (by rw [List.append_nil]; exact h.consumed_prefix)
      · exact h.consumer_move ⟨by omega, by omega⟩
    split
    · exact { h with consumer := trivial }
    · exact hcut _ _
    · exact hcut _ _
  · exact h.consumer_move hok

/-- The read position moves over bytes that have been copied out. -/
theorem RingInv.advance {s : RingSys c} (h : RingInv s) {dst rest : List UInt8}
    (hrest : s.consumed ++ dst ++ rest <+: s.accepted) :
    RingInv { s with
      ring := s.ring.consume dst.length, consumer := .idle, peeked := rest, consumed := s.consumed ++ dst } where
  writePos := h.writePos
  readPos := by
    rw [List.length_append, UInt64.ofNat_add, ← h.readPos]
    rfl
  bounded := by
    rw [List.length_append]
    exact Nat.le_trans h.bounded (by omega)
  held := by
    intro j hj1 hj2
    rw [List.length_append] at hj1
    exact h.held j (by omega) hj2
  peeked := hrest
  reports := h.reports
  producer := h.producer.mono rfl rfl (List.prefix_append _ _).length_le
  consumer := trivial

/-- The bytes of `peek` come from slots that hold accepted bytes. -/
theorem RingInv.load {s : RingSys c} (h : RingInv s) {call : ConsumerCall} {len rp : Nat} {dst : List UInt8}
    (hpc : s.consumer = .copying call len rp dst) :
    s.consumed ++ (dst ++ [s.ring.buf (copySlot c rp len dst.length)]) <+: s.accepted := by
  have hcons := h.consumer
  rw [hpc] at hcons
  obtain ⟨hd, hlen, hrp, t, ht⟩ := hcons
  have hb := h.bounded
  have hslot : copySlot c rp len dst.length = (s.consumed.length + dst.length) % c.val := by
    rw [hrp, h.readPos, slot_ofNat, copySlot_eq hd (by omega)]
  have hheld := h.held (s.consumed.length + dst.length) (by omega) (by omega)
  rw [← ht, ← List.length_append, List.getElem?_append_right (Nat.le_refl _), Nat.sub_self] at hheld
  cases t with
  | nil => cases hheld
  | cons b t =>
    rw [List.getElem?_cons_zero, Option.some.injEq, List.length_append] at hheld
    rw [hslot, ← hheld, ← ht]
    exact ⟨t, by simp⟩

/-- What was peeked beyond the bytes now consumed is still in front. -/
theorem peeked_drop {consumed peeked dst accepted : List UInt8} (h1 : consumed ++ peeked <+: accepted)
    (h2 : consumed ++ dst <+: accepted) : consumed ++ dst ++ peeked.drop dst.length <+: accepted := by
  rcases List.prefix_or_prefix_of_prefix h1 h2 with h | h
  · have hle : peeked.length ≤ dst.length := ((List.prefix_append_right_inj consumed).mp h).length_le
    rw [List.drop_eq_nil_of_le hle, List.append_nil]
    exact h2
  · obtain ⟨t, ht⟩ := (List.prefix_append_right_inj consumed).mp h
    rw [← ht, List.drop_left, List.append_assoc, ht]
    exact h1

/-- Every step of the consumer keeps the invariant. -/
theorem RingInv.consumerStep {s s' : RingSys c} (h : RingInv s) {e : ConsumerEvent} (hs : s.consumerStep e = some s') :
    RingInv s' := by
  have hcons := h.consumer
  have hle := h.consumed_le
  cases e with
  | call call =>
    simp only [RingSys.consumerStep] at hs
    split at hs <;> cases hs
    exact h.consumer_move ⟨nofun, nofun⟩
  | consume n =>
    simp only [RingSys.consumerStep] at hs
    split at hs <;> rename_i hpc
    · split at hs <;> rename_i hn <;> cases hs
      have hlen : (s.peeked.take n).length = n := by rw [List.length_take]; omega
      have hpeek := h.peeked
      rw [← List.take_append_drop n s.peeked, ← List.append_assoc] at hpeek
      have hadv := h.advance hpeek
      rw [hlen, ← hpc] at hadv
      exact hadv
    · cases hs
  | loadWritePos =>
    simp only [RingSys.consumerStep] at hs
    split at hs <;> rename_i hpc <;> cases hs
    rw [hpc] at hcons
    refine h.counted ⟨fun w hw => ?_, hcons.2⟩
    rw [← Option.some.inj hw]
    exact ⟨s.accepted.length, hle, Nat.le_refl _, h.writePos⟩
  | loadReadPos =>
    simp only [RingSys.consumerStep] at hs
    split at hs <;> rename_i hpc <;> cases hs
    · rw [hpc] at hcons
      exact h.counted ⟨hcons.1, fun x hx => (Option.some.inj hx).symm⟩
    · rw [hpc] at hcons
      obtain ⟨hpos, hlen⟩ := hcons
      exact h.consumer_move ⟨hpos, hlen, c.and_mask _, by rw [List.append_nil]; exact h.consumed_prefix⟩
  | loadByte =>
    simp only [RingSys.consumerStep] at hs
    split at hs <;> rename_i hpc
    · have hload := h.load hpc
      rw [hpc] at hcons
      obtain ⟨hd, hlen, hrp, -⟩ := hcons
      split at hs <;> rename_i hfull <;> cases hs
      · exact h.peekDone hload
      · rw [List.length_append, List.length_singleton] at hfull
        exact h.consumer_move ⟨by rw [List.length_append, List.length_singleton]; omega, hlen, hrp, hload⟩
    · cases hs
  | publish =>
    simp only [RingSys.consumerStep] at hs
    split at hs <;> rename_i hpc <;> cases hs
    rw [hpc] at hcons
    exact h.advance (peeked_drop h.peeked hcons)

/-- Every step keeps the invariant. -/
theorem RingInv.step {s s' : RingSys c} (h : RingInv s) {e : RingEvent} (hs : s.step e = some s') : RingInv s' := by
  cases e with
  | producer e => exact h.producerStep hs
  | consumer e => exact h.consumerStep hs

end RingInvAux

end MarketFeed
