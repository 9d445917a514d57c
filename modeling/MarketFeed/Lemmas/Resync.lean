import MarketFeed.Lemmas.ParserScan
import MarketFeed.TickGenerator

/-!
# Resynchronisation

Streams of messages that are not in step with the scan: behind the rest of an unfinished message, or behind a message that has
been changed. What starts at a place of such a stream is read off its bytes there (`NoMessage`, `Incomplete`, `Verifies`), and from a
place that the scan steps onto it delivers what the rest of the stream does (`deliveries_of_visits`).

Messages are told apart by where they stand in the stream: what the callback gets is listed with the offsets of the bytes it was
built from (`deliveries`), as are the trades and quotes that were sent (`messagesAt`).
-/

namespace MarketFeed

open Framing ScanAux ParserScanAux

/-! ## What starts at a place -/

/-- How long a message would be that starts here, by the type that is read. It is 0 for an unknown type. -/
def windowSize (bs : List UInt8) : Nat := totalSizeForType (MsgHeader.ofBytes bs).msgType

/-- No message starts here: the type that is read is unknown, or a message of this type is there as a whole and fails its checksum. -/
def NoMessage (bs : List UInt8) : Prop :=
  headerSize ≤ bs.length ∧
    (windowSize bs = 0 ∨ windowSize bs ≤ bs.length ∧ verifyChecksum (bs.take (windowSize bs)) (windowSize bs) = false)

/-- There are fewer bytes than a header has, or than a message of the type that is read. -/
def Incomplete (bs : List UInt8) : Prop := bs.length < headerSize ∨ bs.length < windowSize bs

/-- A message of a known type is there as a whole and verifies. -/
def Verifies (bs : List UInt8) : Prop :=
  headerSize ≤ bs.length ∧ windowSize bs ≠ 0 ∧ windowSize bs ≤ bs.length ∧
    verifyChecksum (bs.take (windowSize bs)) (windowSize bs) = true

/-- A message that starts here is not for the callback: it is a heartbeat, or its symbol is out of range. -/
def Discarded (bs : List UInt8) : Prop := (MsgHeader.ofBytes bs).msgType = msgHeartbeat ∨ (MsgHeader.ofBytes bs).symbolId ≥ maxSymbols

instance : DecidablePred NoMessage := fun _ => inferInstanceAs (Decidable (_ ∧ _))
instance : DecidablePred Incomplete := fun _ => inferInstanceAs (Decidable (_ ∨ _))
instance : DecidablePred Verifies := fun _ => inferInstanceAs (Decidable (_ ∧ _))
instance : DecidablePred Discarded := fun _ => inferInstanceAs (Decidable (_ ∨ _))

namespace ResyncAux

theorem noMessage_iff {bs : List UInt8} : NoMessage bs ↔ ∃ why, verdict bs = .skip why := by
  unfold NoMessage windowSize
  by_cases hh : headerSize ≤ bs.length
  · rw [verdict_of_header hh]
    split_ifs with h0 hshort hok
    · simp [hh, h0]
    · simp [h0, hshort]
    · simp [h0, hok]
    · simp [hh, hok, Nat.not_lt.mp hshort]
  · rw [verdict_wait_short (Nat.lt_of_not_le hh)]
    simp [hh]

theorem incomplete_iff {bs : List UInt8} : Incomplete bs ↔ verdict bs = .wait := by
  unfold Incomplete windowSize
  by_cases hh : headerSize ≤ bs.length
  · rw [verdict_of_header hh]
    split_ifs with h0 hshort hok
    · simp [hh, h0]
    · simp [hshort]
    · simp [hh, Nat.not_lt.mp hshort]
    · simp [hh, Nat.not_lt.mp hshort]
  · rw [verdict_wait_short (Nat.lt_of_not_le hh)]
    simp [Nat.lt_of_not_le hh]

/-- What is taken is a message that verifies. -/
theorem verifies_of_take {bs : List UInt8} {n : Nat} (h : verdict bs = .take n) : Verifies bs ∧ windowSize bs = n := by
  obtain ⟨hh, hn, hsize, h0, hok⟩ := verdict_take h
  have hwindow : windowSize bs = n := hsize
  unfold Verifies
  rw [hwindow]
  exact ⟨⟨hh, h0, hn, hok⟩, rfl⟩

theorem take_of_verifies {bs : List UInt8} (h : Verifies bs) : verdict bs = .take (windowSize bs) := by
  obtain ⟨hh, h0, hn, hok⟩ := h
  unfold windowSize at h0 hn hok ⊢
  rw [verdict_of_header hh, if_neg h0, if_neg (Nat.not_lt.mpr hn), if_pos hok]

/-- One of the three holds of every place. -/
theorem noMessage_or (bs : List UInt8) : NoMessage bs ∨ Incomplete bs ∨ Verifies bs := by
  cases hv : verdict bs with
  | wait => exact .inr (.inl (incomplete_iff.mpr hv))
  | skip why => exact .inl (noMessage_iff.mpr ⟨why, hv⟩)
  | take n => exact .inr (.inr (verifies_of_take hv).1)

/-- The header of a window is that of the bytes it is taken from. -/
theorem ofBytes_take {w : List UInt8} {n : Nat} (hn : headerSize ≤ n) (hlen : n ≤ w.length) :
    MsgHeader.ofBytes (w.take n) = MsgHeader.ofBytes w := by
  have happend : MsgHeader.ofBytes (w.take n ++ w.drop n) = MsgHeader.ofBytes (w.take n) :=
    MsgHeader.ofBytes_append _ (by rw [List.length_take]; omega)
  rw [List.take_append_drop] at happend
  exact happend.symm

/-- What is taken gives the callback nothing when it is discarded. -/
theorem frameMessage_take {bs : List UInt8} {n : Nat} (h : verdict bs = .take n) :
    frameMessage (bs.take n) 0 = none ↔ Discarded bs := by
  obtain ⟨-, hn, hsize, h0, -⟩ := verdict_take h
  have hheader : headerSize ≤ n := by
    have hcases := totalSizeForType_cases (MsgHeader.ofBytes bs).msgType
    unfold headerSize
    omega
  unfold frameMessage Discarded
  rw [ofBytes_take hheader hn]
  dsimp only
  split <;> rename_i hdiscarded
  · exact iff_of_true rfl hdiscarded
  · exact iff_of_false (by simp) hdiscarded

end ResyncAux

/-! ## Deliveries -/

/-- The messages that the frames among the pieces hand to the callback, each with its offsets in the stream. -/
def deliveries (off : Nat) (ps : List (Piece SkipReason UInt8)) : List (Nat × Nat × ParsedMessage) :=
  (Framer.placed off ps).filterMap fun x => (frameMessage x.2 0).map fun pm => (x.1, x.1 + x.2.length, pm)

/-- The messages handed to the callback so far, with their offsets and without the receive times. -/
def ParserSys.deliveries {c : Capacity} (s : ParserSys c) : List (Nat × Nat × ParsedMessage) :=
  s.dispatchedAt.map fun x => (x.1, x.2.1, x.2.2.withoutRecvTime)

/-- The trades and quotes of a list of messages that starts at an offset. -/
def messagesAt : Nat → List Msg → List (Nat × Nat × ParsedMessage)
  | _, [] => []
  | off, m :: ms => ((m.parsed 0).map fun pm => (off, off + m.bytes.length, pm)).toList ++ messagesAt (off + m.bytes.length) ms

/-- What the parser has handed over is what the pieces scanned deliver. -/
theorem Sim.deliveries {c : Capacity} {s : ParserSys c} {fed : List UInt8} {ps : List (Piece SkipReason UInt8)}
    (h : Sim s fed ps) : s.deliveries = MarketFeed.deliveries 0 ps := by
  rw [MarketFeed.deliveries, ← places_of_log h.log 0, ParserSys.deliveries, ParserSys.dispatchedAt, List.map_filterMap]
  apply List.filterMap_congr
  intro x _
  rw [Option.map_map]
  rfl

namespace ResyncAux

theorem deliveries_append (off : Nat) (ps qs : List (Piece SkipReason UInt8)) :
    deliveries off (ps ++ qs) = deliveries off ps ++ deliveries (off + Framer.span ps) qs := by
  rw [deliveries, Framer.placed_append, List.filterMap_append]
  rfl

/-- A delivery of a scan is a frame at a visited offset. -/
theorem mem_deliveries {off : Nat} {bs : List UInt8} {x : Nat × Nat × ParsedMessage} :
    x ∈ deliveries off (wire.scan bs).1 ↔
      ∃ j n pm, wire.Visits bs j ∧ verdict (bs.drop j) = .take n ∧ frameMessage ((bs.drop j).take n) 0 = some pm ∧
        x = (off + j, off + j + n, pm) := by
  have hlen : ∀ {j n : Nat}, verdict (bs.drop j) = .take n → ((bs.drop j).take n).length = n := by
    intro j n hv
    rw [List.length_take]
    exact Nat.min_eq_left (verdict_take hv).2.1
  unfold deliveries
  rw [← Nat.zero_add off, Framer.placed_shift, List.filterMap_map, List.mem_filterMap, Nat.zero_add]
  constructor
  · rintro ⟨⟨j, w⟩, hmem, hx⟩
    obtain ⟨hvis, n, hv, hw⟩ := Framer.visits_of_mem_placed hmem
    rw [Function.comp_apply, Option.map_eq_some_iff] at hx
    obtain ⟨pm, hpm, rfl⟩ := hx
    dsimp only at hpm ⊢
    rw [hw] at hpm ⊢
    refine ⟨j, n, pm, hvis, hv, hpm, ?_⟩
    rw [hlen hv, Nat.add_comm j off]
  · rintro ⟨j, n, pm, hvis, hv, hpm, rfl⟩
    refine ⟨(j, (bs.drop j).take n), Framer.mem_placed_of_visits hvis hv, ?_⟩
    rw [Function.comp_apply]
    dsimp only
    rw [hpm, hlen hv, Nat.add_comm j off]
    rfl

/-- Nothing is delivered where no message starts. -/
theorem deliveries_skips {bs : List UInt8} {r : Nat} (h : ∀ j < r, NoMessage (bs.drop j)) (off : Nat) :
    deliveries off (wire.scan bs).1 = deliveries (off + r) (wire.scan (bs.drop r)).1 := by
  unfold deliveries
  rw [Framer.placed_of_skips (fun j hj => noMessage_iff.mp (h j hj)) off]

/-- Nothing is delivered from an incomplete message on. -/
theorem deliveries_incomplete {bs : List UInt8} (h : Incomplete bs) (off : Nat) : deliveries off (wire.scan bs).1 = [] := by
  have hwait : wire.scan bs = ([], bs) := Framer.scan_wait (incomplete_iff.mp h)
  rw [hwait]
  rfl

/-- The deliveries of a scan stand in order. -/
theorem pairwise_deliveries (bs : List UInt8) : (deliveries 0 (wire.scan bs).1).Pairwise fun x y => x.1 < y.1 := by
  unfold deliveries
  refine (Framer.pairwise_placed fun p hp => Framer.scan_piece_pos hp).filterMap _ fun x y hlt a ha b hb => ?_
  obtain ⟨pm, -, rfl⟩ := Option.map_eq_some_iff.mp ha
  obtain ⟨pm', -, rfl⟩ := Option.map_eq_some_iff.mp hb
  exact hlt

/-- What has been delivered of a stream so far is the start of what the whole stream delivers. -/
theorem deliveries_prefix {c : Capacity} {s : ParserSys c} {fed : List UInt8} {ps : List (Piece SkipReason UInt8)}
    (h : Sim s fed ps) (rest : List UInt8) : s.deliveries <+: deliveries 0 (wire.scan (fed ++ rest)).1 := by
  rw [h.deliveries, Framer.scan_append, h.scan]
  dsimp only
  rw [List.append_assoc, deliveries_append]
  exact List.prefix_append _ _

/-- The messages handed over, with their places left out. -/
theorem dispatched_withoutRecvTime {c : Capacity} (s : ParserSys c) :
    s.dispatched.map ParsedMessage.withoutRecvTime = s.deliveries.map fun x => x.2.2 := by
  rw [ParserSys.deliveries, ParserSys.dispatchedAt, ParserSys.dispatched, List.map_map]
  generalize 0 = off
  induction s.outcomes generalizing off with
  | nil => rfl
  | cons o os ih =>
    rw [ParserSys.place, List.filterMap_cons, List.filterMap_cons]
    cases o.message with
    | none => exact ih _
    | some pm => exact congrArg (pm.withoutRecvTime :: ·) (ih _)

/-! ## Messages in step -/

/-- The pieces of a stream of messages. -/
def pieces (ms : List Msg) : List (Piece SkipReason UInt8) := ms.map fun m => ⟨.take m.bytes.length, m.bytes⟩

theorem span_pieces (ms : List Msg) : Framer.span (pieces ms) = (stream ms).length := by
  induction ms with
  | nil => rfl
  | cons m ms ih =>
    rw [stream_cons, List.length_append, ← ih]
    simp [Framer.span, pieces]

/-- A stream in step delivers its trades and quotes. -/
theorem deliveries_pieces (off : Nat) (ms : List Msg) : deliveries off (pieces ms) = messagesAt off ms := by
  induction ms generalizing off with
  | nil => rfl
  | cons m ms ih =>
    have hcons : deliveries off (pieces (m :: ms)) =
        ((frameMessage m.bytes 0).map fun pm => (off, off + m.bytes.length, pm)).toList ++
          deliveries (off + m.bytes.length) (pieces ms) := by
      simp only [deliveries, pieces, List.map_cons, Framer.placed, List.filterMap_cons]
      cases frameMessage m.bytes 0 <;> rfl
    rw [hcons, m.frameMessage_bytes, ih]
    rfl

/-- The stream of some messages, in step, and what follows. -/
theorem deliveries_stream (off : Nat) (ms : List Msg) (cs : List UInt8) :
    deliveries off (wire.scan (stream ms ++ cs)).1 =
      messagesAt off ms ++ deliveries (off + (stream ms).length) (wire.scan cs).1 := by
  rw [scan_stream, ← pieces, deliveries_append, deliveries_pieces, span_pieces]

theorem messagesAt_shift (off d : Nat) (ms : List Msg) :
    messagesAt (off + d) ms = (messagesAt off ms).map fun x => (x.1 + d, x.2.1 + d, x.2.2) := by
  induction ms generalizing off with
  | nil => rfl
  | cons m ms ih =>
    have hcomm : off + d + m.bytes.length = off + m.bytes.length + d := by omega
    rw [messagesAt, messagesAt, List.map_append, hcomm, ih]
    cases m.parsed 0 <;> rfl

/-- A trade or quote stands as much further on as its messages do. -/
theorem mem_messagesAt_shift {off : Nat} {ms : List Msg} {x : Nat × Nat × ParsedMessage} (d : Nat)
    (h : x ∈ messagesAt off ms) : (x.1 + d, x.2.1 + d, x.2.2) ∈ messagesAt (d + off) ms := by
  rw [Nat.add_comm, messagesAt_shift]
  exact List.mem_map_of_mem h

/-- A trade or quote lies inside the stream. -/
theorem messagesAt_bound {off : Nat} {ms : List Msg} {x : Nat × Nat × ParsedMessage} (h : x ∈ messagesAt off ms) :
    off ≤ x.1 ∧ x.1 < x.2.1 ∧ x.2.1 ≤ off + (stream ms).length := by
  induction ms generalizing off with
  | nil => cases h
  | cons m ms ih =>
    have hlen := m.length_bytes_cases
    rw [stream_cons, List.length_append]
    rw [messagesAt, List.mem_append, Option.mem_toList, Option.map_eq_some_iff] at h
    rcases h with ⟨pm, -, rfl⟩ | h
    · dsimp only
      omega
    · obtain ⟨h1, h2, h3⟩ := ih h
      omega

/-- No trade or quote ends before a cut inside the first message. -/
theorem lt_end_of_cut {off k : Nat} {m : Msg} {ms : List Msg} (hcut : k < m.bytes.length) {x : Nat × Nat × ParsedMessage}
    (hx : x ∈ messagesAt off (m :: ms)) : off + k < x.2.1 := by
  rw [messagesAt] at hx
  rcases List.mem_append.mp hx with hx | hx
  · rw [Option.mem_toList, Option.map_eq_some_iff] at hx
    obtain ⟨pm, -, rfl⟩ := hx
    dsimp only
    omega
  · obtain ⟨h1, h2, -⟩ := messagesAt_bound hx
    omega

theorem messagesAt_append (off : Nat) (ms ns : List Msg) :
    messagesAt off (ms ++ ns) = messagesAt off ms ++ messagesAt (off + (stream ms).length) ns := by
  induction ms generalizing off with
  | nil => rfl
  | cons m ms ih => simp only [List.cons_append, messagesAt, ih, stream_cons, List.length_append, List.append_assoc, Nat.add_assoc]

/-- The trades and quotes stand in order. -/
theorem pairwise_messagesAt (off : Nat) (ms : List Msg) : (messagesAt off ms).Pairwise fun x y => x.1 < y.1 := by
  induction ms generalizing off with
  | nil => exact .nil
  | cons m ms ih =>
    rw [messagesAt, List.pairwise_append]
    refine ⟨?_, ih _, fun x hx y hy => ?_⟩
    · cases m.parsed 0 <;> simp
    · rw [Option.mem_toList, Option.map_eq_some_iff] at hx
      obtain ⟨pm, -, rfl⟩ := hx
      have hlen := m.length_bytes_cases
      have hbound := messagesAt_bound hy
      dsimp only
      omega

/-- Without their places they are what the callback should get. -/
theorem map_messagesAt (off : Nat) (ms : List Msg) : (messagesAt off ms).map (fun x => x.2.2) = ms.filterMap (Msg.parsed 0) := by
  induction ms generalizing off with
  | nil => rfl
  | cons m ms ih =>
    rw [messagesAt, List.map_append, ih, List.filterMap_cons]
    cases m.parsed 0 <;> rfl

end ResyncAux

/-! ## A stream that is cut -/

/-- The messages that end within the first `k` bytes. -/
def wholeIn : Nat → List Msg → List Msg
  | _, [] => []
  | k, m :: ms => if m.bytes.length ≤ k then m :: wholeIn (k - m.bytes.length) ms else []

/-- The bytes of the unfinished message when a stream is cut after `k` bytes. -/
def leftover : Nat → List Msg → List UInt8
  | _, [] => []
  | k, m :: ms => if m.bytes.length ≤ k then leftover (k - m.bytes.length) ms else m.bytes.take k

namespace ResyncAux

/-- A cut stream is whole messages and the bytes of an unfinished one. -/
theorem stream_take (k : Nat) (ms : List Msg) : (stream ms).take k = stream (wholeIn k ms) ++ leftover k ms := by
  induction ms generalizing k with
  | nil => simp [wholeIn, leftover]
  | cons m ms ih =>
    rw [stream_cons, wholeIn, leftover, List.take_append]
    split <;> rename_i hle
    · rw [List.take_of_length_le hle, ih, stream_cons, List.append_assoc]
    · rw [Nat.sub_eq_zero_of_le (by omega), List.take_zero, List.append_nil, stream_nil, List.nil_append]

/-- On an unfinished message the scan waits. -/
theorem verdict_leftover (k : Nat) (ms : List Msg) : verdict (leftover k ms) = .wait := by
  induction ms generalizing k with
  | nil => exact verdict_wait_short (by rw [leftover]; decide)
  | cons m ms ih =>
    rw [leftover]
    split <;> rename_i hle
    · exact ih _
    · have hlen : (m.bytes.take k).length = k := by
        rw [List.length_take]
        omega
      by_cases hh : headerSize ≤ k
      · have hhdr : MsgHeader.ofBytes (m.bytes.take k) = m.header := by
          rw [← m.ofBytes_bytes]
          conv_rhs => rw [← List.take_append_drop k m.bytes]
          exact (MsgHeader.ofBytes_append _ (by omega)).symm
        have hne : m.bytes.length ≠ 0 := by omega
        rw [verdict_of_header (by omega), hhdr, ← m.length_bytes, if_neg hne, if_pos (by omega)]
      · exact verdict_wait_short (by omega)

/-- A cut stream delivers the trades and quotes that are whole. -/
theorem deliveries_take (off k : Nat) (ms : List Msg) :
    deliveries off (wire.scan ((stream ms).take k)).1 = messagesAt off (wholeIn k ms) := by
  have hwait : wire.scan (leftover k ms) = ([], leftover k ms) := Framer.scan_wait (verdict_leftover k ms)
  rw [stream_take, deliveries_stream, hwait]
  exact List.append_nil _

/-- When every trade and quote ends before the cut, none is missing. -/
theorem messagesAt_wholeIn {off k : Nat} {ms : List Msg} (h : ∀ x ∈ messagesAt off ms, x.2.1 ≤ off + k) :
    messagesAt off (wholeIn k ms) = messagesAt off ms := by
  induction ms generalizing off k with
  | nil => rfl
  | cons m ms ih =>
    rw [wholeIn]
    split <;> rename_i hle
    · rw [messagesAt, messagesAt]
      congr 1
      apply ih
      intro x hx
      have hend := h x (by rw [messagesAt]; exact List.mem_append_right _ hx)
      omega
    · symm
      rw [messagesAt, List.eq_nil_iff_forall_not_mem]
      intro x hx
      have hend := h x hx
      have hlt := lt_end_of_cut (Nat.lt_of_not_le hle) hx
      omega

end ResyncAux

/-! ## Back in step -/

namespace ResyncAux

/-- From a place that the scan steps onto, it delivers what the rest of the stream does. -/
theorem deliveries_of_visits {bs : List UInt8} {r : Nat} (h : wire.Visits bs r) (off : Nat) :
    deliveries (off + r) (wire.scan (bs.drop r)).1 <:+ deliveries off (wire.scan bs).1 := by
  obtain ⟨before, hscan, hspan⟩ := Framer.scan_of_visits h
  rw [hscan, deliveries_append, hspan]
  exact List.suffix_append _ _

end ResyncAux

end MarketFeed
