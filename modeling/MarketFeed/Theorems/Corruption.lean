import MarketFeed.Lemmas.Checksum
import MarketFeed.Lemmas.Resync

/-!
# A corrupted message

A message with one byte changed fails its checksum, and `process` goes on one byte further. Inside the message other messages may
seem to start: one that is not complete holds up everything behind it, and one that verifies is taken, with the start of the next
message if it reaches that far. Where none does, the other messages come through.
-/

namespace MarketFeed

open Framing ScanAux ResyncAux

variable {c : Capacity}

/-- The callback has had the trades and quotes before and behind a message of `size` bytes, and nothing else. -/
def OnlyOthers (pre : List Msg) (size : Nat) (post : List Msg) (s : ParserSys c) : Prop :=
  s.deliveries = messagesAt 0 pre ++ messagesAt ((stream pre).length + size) post

/-- What the ring takes of a stream, from the corrupted message on. -/
def corruptedTail (c : Capacity) (pre : List Msg) (bad : List UInt8) (post : List Msg) : List UInt8 :=
  (bad ++ stream post).take (c.val - (stream pre).length)

/-- From the start of the corrupted message to this place, no message seems to start but here: the first one that does. -/
def FirstStart (tail : List UInt8) (j : Nat) : Prop := (∀ i < j, NoMessage (tail.drop i)) ∧ ¬NoMessage (tail.drop j)

/-- The other trades and quotes lie within the capacity of the ring; and no message seems to start inside the corrupted one, or the first
that does is not complete and there is no trade or quote behind that it could hold up. -/
structure Harmless (c : Capacity) (pre : List Msg) (bad : List UInt8) (post : List Msg) : Prop where
  fits : ∀ x ∈ messagesAt 0 pre ++ messagesAt ((stream pre).length + bad.length) post, x.2.1 ≤ c.val
  inside : ∀ j < bad.length, FirstStart (corruptedTail c pre bad post) j →
    Incomplete ((corruptedTail c pre bad post).drop j) ∧ messagesAt 0 post = []

/-- The first message that seems to start inside the corrupted one verifies, and the parser discards it. -/
def DiscardsInside (tail : List UInt8) (size : Nat) : Prop :=
  ∃ j < size, FirstStart tail j ∧ Verifies (tail.drop j) ∧ Discarded (tail.drop j)

instance (tail : List UInt8) (j : Nat) : Decidable (FirstStart tail j) := inferInstanceAs (Decidable (_ ∧ _))

instance (c : Capacity) (pre : List Msg) (bad : List UInt8) (post : List Msg) : Decidable (Harmless c pre bad post) :=
  decidable_of_iff (_ ∧ _) ⟨fun h => Harmless.mk h.1 h.2, fun h => ⟨h.fits, h.inside⟩⟩

namespace CorruptionAux

/-- The type of a message is in its first two bytes. -/
theorem msgType_take {bs cs : List UInt8} (h : bs.take 2 = cs.take 2) :
    (MsgHeader.ofBytes bs).msgType = (MsgHeader.ofBytes cs).msgType := by
  simp only [MsgHeader.ofBytes, Bytes.readLE, List.drop_zero, h]

/-- A message with a byte behind its type changed is not taken. -/
theorem corrupted_not_taken {m : Msg} {p : Nat} {b : UInt8} (hp2 : 2 ≤ p) (hp : p < m.bytes.length)
    (hne : m.bytes.set p b ≠ m.bytes) (cs : List UInt8) (k n : Nat) :
    verdict ((m.bytes.set p b ++ cs).take k) ≠ .take n := by
  intro hv
  obtain ⟨hh, hn, htype, -, hok⟩ := verdict_take hv
  have hlen : (m.bytes.set p b).length = m.bytes.length := List.length_set
  have hcases := m.length_bytes_cases
  rw [List.length_take, headerSize] at hh
  have htake2 : ((m.bytes.set p b ++ cs).take k).take 2 = m.bytes.take 2 := by
    rw [List.take_take, Nat.min_eq_left (by omega), List.take_append_of_le_length (by omega), List.take_set_of_le hp2]
  rw [msgType_take htake2, m.ofBytes_bytes, ← m.length_bytes] at htype
  subst htype
  rw [List.length_take] at hn
  rw [List.take_take, Nat.min_eq_left (by omega), List.take_append_of_le_length (by omega),
    List.take_of_length_le (by omega)] at hok
  have hbad := verifyChecksum_set (by omega) (by omega) m.verifyChecksum_bytes hne
  rw [hok] at hbad
  cases hbad

/-- What is delivered of a stream that the ring may cut. -/
theorem deliveries_cut (pre : List Msg) (rest : List UInt8) (k : Nat) :
    deliveries 0 (wire.scan ((stream pre ++ rest).take k)).1 =
      messagesAt 0 (wholeIn k pre) ++
        deliveries (stream pre).length (wire.scan (rest.take (k - (stream pre).length))).1 := by
  rw [List.take_append]
  by_cases hle : (stream pre).length ≤ k
  · have hwhole : messagesAt 0 (wholeIn k pre) = messagesAt 0 pre := by
      apply messagesAt_wholeIn
      intro x hx
      have hbound := messagesAt_bound hx
      omega
    rw [List.take_of_length_le hle, deliveries_stream, hwhole, Nat.zero_add]
  · have hnil : wire.scan [] = ([], []) := Framer.scanAux_nil 0
    rw [Nat.sub_eq_zero_of_le (by omega), List.take_zero, List.append_nil, deliveries_take, hnil]
    exact (List.append_nil _).symm

/-- The whole messages of a cut stream end before the cut and within the stream. -/
theorem messagesAt_wholeIn_bound {k : Nat} {ms : List Msg} {x : Nat × Nat × ParsedMessage}
    (hx : x ∈ messagesAt 0 (wholeIn k ms)) : x.1 < (stream ms).length ∧ x.2.1 ≤ k := by
  have hbound := messagesAt_bound hx
  have hlen := congrArg List.length (stream_take k ms)
  rw [List.length_take, List.length_append] at hlen
  omega

/-- A frame of the tail that is delivered lies within the ring. -/
theorem tail_bound {bs : List UInt8} {k j n : Nat} (hv : verdict ((bs.take k).drop j) = .take n) : j + n ≤ k ∧ 0 < n := by
  obtain ⟨-, hn, -, h0, -⟩ := verdict_take hv
  rw [List.length_drop, List.length_take] at hn
  omega

/-- Where no message seems to start inside the corrupted one, or the first is reached. -/
theorem exists_firstStart (tail : List UInt8) (size : Nat) :
    (∀ j < size, NoMessage (tail.drop j)) ∨ ∃ j < size, FirstStart tail j := by
  induction size with
  | zero => exact .inl fun j hj => absurd hj (Nat.not_lt_zero j)
  | succ size ih =>
    rcases ih with hall | ⟨j, hj, hfirst⟩
    · by_cases hno : NoMessage (tail.drop size)
      · refine .inl fun j hj => ?_
        rcases Nat.lt_succ_iff_lt_or_eq.mp hj with hlt | rfl
        · exact hall j hlt
        · exact hno
      · exact .inr ⟨size, Nat.lt_succ_self size, hall, hno⟩
    · exact .inr ⟨j, Nat.lt_succ_of_lt hj, hfirst⟩

/-- Behind a corrupted message in which none seems to start, the messages are delivered. -/
theorem deliveries_behind {pre post : List Msg} {bad : List UInt8} (off : Nat)
    (hfit : ∀ x ∈ messagesAt bad.length post, x.2.1 ≤ c.val - (stream pre).length)
    (hno : ∀ j < bad.length, NoMessage ((corruptedTail c pre bad post).drop j)) :
    deliveries off (wire.scan (corruptedTail c pre bad post)).1 = messagesAt (off + bad.length) post := by
  have hdrop : (corruptedTail c pre bad post).drop bad.length =
      (stream post).take (c.val - (stream pre).length - bad.length) := by
    rw [corruptedTail, List.drop_take, List.drop_left]
  rw [deliveries_skips hno, hdrop, deliveries_take]
  apply messagesAt_wholeIn
  intro x hx
  rw [Nat.add_comm, messagesAt_shift, List.mem_map] at hx
  obtain ⟨y, hy, rfl⟩ := hx
  have hend := hfit y hy
  have hstart := messagesAt_bound hy
  dsimp only
  omega

/-- Nothing is delivered but the other messages when the corrupted one is harmless. -/
theorem deliveries_of_harmless {pre post : List Msg} {bad : List UInt8} (h : Harmless c pre bad post) :
    deliveries 0 (wire.scan ((stream pre ++ (bad ++ stream post)).take c.val)).1 =
      messagesAt 0 pre ++ messagesAt ((stream pre).length + bad.length) post := by
  have hwhole : messagesAt 0 (wholeIn c.val pre) = messagesAt 0 pre := by
    apply messagesAt_wholeIn
    intro x hx
    rw [Nat.zero_add]
    exact h.fits x (List.mem_append_left _ hx)
  have hfit : ∀ x ∈ messagesAt bad.length post, x.2.1 ≤ c.val - (stream pre).length := by
    intro x hx
    have hend := h.fits _ (List.mem_append_right _ (mem_messagesAt_shift (stream pre).length hx))
    dsimp only at hend
    omega
  rw [deliveries_cut, ← corruptedTail, hwhole]
  congr 1
  rcases exists_firstStart (corruptedTail c pre bad post) bad.length with hno | ⟨j, hj, hfirst⟩
  · exact deliveries_behind _ hfit hno
  · -- the parser waits there, and nothing is left to deliver
    obtain ⟨hincomplete, hnone⟩ := h.inside j hj hfirst
    rw [deliveries_skips hfirst.1, deliveries_incomplete hincomplete, ← Nat.zero_add ((stream pre).length + bad.length),
      messagesAt_shift, hnone, List.map_nil]

/-- When nothing is delivered but the other messages, the corrupted one is harmless, unless a message inside it is discarded. -/
theorem harmless_of_deliveries {pre post : List Msg} {bad : List UInt8}
    (h : deliveries 0 (wire.scan ((stream pre ++ (bad ++ stream post)).take c.val)).1 =
      messagesAt 0 pre ++ messagesAt ((stream pre).length + bad.length) post) :
    Harmless c pre bad post ∨ DiscardsInside (corruptedTail c pre bad post) bad.length := by
  rw [deliveries_cut, ← corruptedTail] at h
  have hmem : ∀ x, x ∈ messagesAt 0 pre ++ messagesAt ((stream pre).length + bad.length) post ↔
      x ∈ messagesAt 0 (wholeIn c.val pre) ∨
        x ∈ deliveries (stream pre).length (wire.scan (corruptedTail c pre bad post)).1 := by
    intro x
    rw [← h, List.mem_append]
  refine or_iff_not_imp_right.mpr fun hnot => ⟨fun x hx => ?_, fun j hj hfirst => ?_⟩
  · rcases (hmem x).mp hx with hx | hx
    · exact (messagesAt_wholeIn_bound hx).2
    · obtain ⟨j, n, pm, -, hv, -, rfl⟩ := mem_deliveries.mp hx
      have hbound := tail_bound hv
      dsimp only
      omega
  · have hskips := deliveries_skips hfirst.1 (stream pre).length
    rcases noMessage_or ((corruptedTail c pre bad post).drop j) with hno | hincomplete | hverifies
    · exact absurd hno hfirst.2
    · refine ⟨hincomplete, ?_⟩
      rw [deliveries_incomplete hincomplete] at hskips
      rw [List.eq_nil_iff_forall_not_mem]
      intro x hx
      have hshift := mem_messagesAt_shift ((stream pre).length + bad.length) hx
      rcases (hmem _).mp (List.mem_append_right _ hshift) with hold | hnew
      · have hbound := messagesAt_wholeIn_bound hold
        dsimp only at hbound
        omega
      · rw [hskips] at hnew
        cases hnew
    · -- a message that is taken inside the corrupted one is none of the others
      exfalso
      have hv := take_of_verifies hverifies
      cases hpm : frameMessage (((corruptedTail c pre bad post).drop j).take (windowSize ((corruptedTail c pre bad post).drop j))) 0 with
      | none => exact hnot ⟨j, hj, hfirst, hverifies, (frameMessage_take hv).mp hpm⟩
      | some pm =>
        have hdel : ((stream pre).length + j, (stream pre).length + j + windowSize ((corruptedTail c pre bad post).drop j), pm) ∈
            deliveries (stream pre).length (wire.scan (corruptedTail c pre bad post)).1 := by
          rw [hskips]
          exact mem_deliveries.mpr ⟨0, _, pm, .start, by rw [List.drop_zero]; exact hv, by rw [List.drop_zero]; exact hpm, rfl⟩
        rcases List.mem_append.mp ((hmem _).mpr (.inr hdel)) with hold | hnew
        · have hbound := messagesAt_bound hold
          dsimp only at hbound
          omega
        · have hbound := messagesAt_bound hnew
          dsimp only at hbound
          omega

end CorruptionAux

open CorruptionAux

/-- A list of messages with one byte behind the type of one of them changed, fed to a fresh parser at once and processed. The changed
message itself is never taken. If it is harmless, the callback gets exactly the other trades and quotes, each from its own bytes; and if
it gets these, the changed message is harmless or the first message that seems to start inside it is discarded. -/
theorem corrupted_costs_itself (pre : List Msg) (m : Msg) (post : List Msg) (p : Nat) (b : UInt8) (hp2 : 2 ≤ p)
    (hp : p < m.bytes.length) (hne : m.bytes.set p b ≠ m.bytes) (t : UInt64) :
    ¬Verifies (corruptedTail c pre (m.bytes.set p b) post) ∧
      ∃ k, ∀ nows : List UInt64, nows.length = k → ∃ s : ParserSys c,
        Run.exec ParserSys.step (ParserSys.init c)
          (.feed (stream pre ++ (m.bytes.set p b ++ stream post)) t :: processCall nows) = some s ∧ s.pc = .idle ∧
        (Harmless c pre (m.bytes.set p b) post → OnlyOthers pre m.bytes.length post s) ∧
        (OnlyOthers pre m.bytes.length post s → Harmless c pre (m.bytes.set p b) post ∨
          DiscardsInside (corruptedTail c pre (m.bytes.set p b) post) m.bytes.length) := by
  refine ⟨fun hv => corrupted_not_taken hp2 hp hne _ _ _ (take_of_verifies hv), ?_⟩
  have hlen : (m.bytes.set p b).length = m.bytes.length := List.length_set
  have hsim := (Sim.init c).feed (stream pre ++ (m.bytes.set p b ++ stream post)) t
  have hempty : (ParserSys.init c).parser.ring.contents = [] := ByteRingBuffer.contents_empty c
  rw [hempty, List.length_nil, Nat.sub_zero, List.nil_append] at hsim
  refine ⟨(wire.scan (((ParserSys.init c).parser.feed (stream pre ++ (m.bytes.set p b ++ stream post)) t).ring.contents)).1.length
    + 1, fun nows hn => ?_⟩
  obtain ⟨s, hs, hpc, hsim', -⟩ := hsim.process rfl hn
  refine ⟨s, Run.exec_cons_eq_some.mpr ⟨_, rfl, hs⟩, hpc, ?_⟩
  unfold OnlyOthers
  rw [hsim'.deliveries, ← hlen]
  exact ⟨deliveries_of_harmless, harmless_of_deliveries⟩

namespace CorruptionAux

/-- A trade of two lots, and another trade. -/
def twoLots : Msg := .trade (.ofIndex 7) 1000 1700000000000000000 ⟨4641240890982006784, 2⟩

def nextTrade : Msg := .trade (.ofIndex 8) 1001 1700000000000000500 ⟨4641240890982006784, 100⟩

/-- The first trade with a byte of its price changed, and the second behind it. -/
def corruptedRun : List ParserEvent :=
  .feed (stream [] ++ (twoLots.bytes.set 20 255 ++ stream [nextTrade])) 5 :: processCall (List.replicate 25 9)

end CorruptionAux

/-- With a byte of its price changed, the trade of a hundred lots is harmless, and the trade of two lots in front of it and the one
behind it come through. -/
theorem corrupted_costs_itself_nextTrade :
    ∃ k, ∀ nows : List UInt64, nows.length = k → ∃ s : ParserSys recvBufSize,
      Run.exec ParserSys.step (ParserSys.init recvBufSize)
        (.feed (stream [twoLots] ++ (nextTrade.bytes.set 20 255 ++ stream [twoLots])) 5 :: processCall nows) = some s ∧
      s.pc = .idle ∧ OnlyOthers [twoLots] nextTrade.bytes.length [twoLots] s := by
  have hharmless : Harmless recvBufSize [twoLots] (nextTrade.bytes.set 20 255) [twoLots] := by decide +kernel
  obtain ⟨k, hk⟩ :=
    (corrupted_costs_itself [twoLots] nextTrade [twoLots] 20 255 (by decide) (by decide) (by decide) 5).2
  refine ⟨k, fun nows hn => ?_⟩
  obtain ⟨s, hrun, hidle, honly, -⟩ := hk nows hn
  exact ⟨s, hrun, hidle, honly hharmless⟩

/-- The run `corruptedRun`: the quantity 2 of the corrupted trade looks like the type of a quote. The parser waits for its 44 bytes
and the trade behind it is not handed over. -/
theorem corrupted_quantity_stalls :
    ∃ s, Run.exec ParserSys.step (ParserSys.init recvBufSize) corruptedRun = some s ∧ s.pc = .idle ∧ s.deliveries = [] ∧
      ¬OnlyOthers [] twoLots.bytes.length [nextTrade] s := by
  have hrun : ∃ s, Run.exec ParserSys.step (ParserSys.init recvBufSize) corruptedRun = some s ∧ s.pc = .idle ∧
      s.deliveries = [] := by decide +kernel
  obtain ⟨s, hrun, hidle, hnone⟩ := hrun
  refine ⟨s, hrun, hidle, hnone, fun h => ?_⟩
  unfold OnlyOthers at h
  rw [hnone] at h
  cases h

end MarketFeed
