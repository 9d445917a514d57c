import MarketFeed.Scan

/-!
# The parser scans

One iteration of `process` does to the ring what one piece of the scan does to the list of bytes in it (`iterate_spec`), and the
counters and the sequence tracking follow the pieces scanned so far (`Tracks`). `Sim` joins the two over a whole run: the
outcomes logged so far describe the first pieces of the scan of all bytes fed so far, and the rest of that scan is the scan of
what is in the ring. Every event keeps it, in whatever order they come, as long as no `feed` overflows the ring.
-/

namespace MarketFeed

open Bytes Framing

/-! ## Gaps -/

namespace ParserScanAux

/-- The gap between the last number so far and the next. -/
def gapTo (last : Option UInt32) (b : UInt32) : List Nat :=
  match last with
  | none => []
  | some a => if b > a + 1 then [(b - (a + 1)).toNat] else []

/-- The gap between a number and the next, and those from the next on. -/
theorem gapSizes_cons_cons (a b : UInt32) (r : List UInt32) : gapSizes (a :: b :: r) = gapTo (some a) b ++ gapSizes (b :: r) := by
  rw [gapSizes, gapTo]
  split <;> rfl

/-- One more number adds the gap between it and the last one. -/
theorem gapSizes_concat (l : List UInt32) (b : UInt32) : gapSizes (l ++ [b]) = gapSizes l ++ gapTo l.getLast? b := by
  induction l with
  | nil => rfl
  | cons a l ih =>
    cases l with
    | nil => exact (gapSizes_cons_cons a b []).trans (List.append_nil _)
    | cons a' l =>
      have hl : (a :: a' :: l).getLast? = (a' :: l).getLast? := by simp
      rw [hl, List.cons_append, List.cons_append, gapSizes_cons_cons, gapSizes_cons_cons, ← List.cons_append, ih,
        List.append_assoc]

end ParserScanAux

open ParserScanAux

variable {c : Capacity}

/-- The sequence tracking of a parser that has accepted messages with these sequence numbers. -/
structure Parser.TracksSeq (p : Parser c) (seqs : List UInt32) : Prop where
  gaps : p.sequenceGaps = UInt64.ofNat (gapSizes seqs).length
  total : p.totalGapSize = UInt64.ofNat (gapSizes seqs).sum
  init : p.seqInitialized = !seqs.isEmpty
  expected : ∀ a, seqs.getLast? = some a → p.expectedSeq = a + 1

/-- The counters of a parser that has gone over these pieces. -/
structure Parser.Tracks (p : Parser c) (ps : List (Piece SkipReason UInt8)) : Prop where
  seq : p.TracksSeq (seqNums (frames ps))
  parsed : p.msgsParsed = UInt64.ofNat ((frames ps).countP frameCounts)
  errors : p.checksumErrors = UInt64.ofNat (badChecksums ps)

/-- Phase 5 follows the next sequence number. -/
theorem Parser.TracksSeq.detectGap {p : Parser c} {seqs : List UInt32} (h : p.TracksSeq seqs) (hdr : MsgHeader) :
    (p.detectGap hdr).TracksSeq (seqs ++ [hdr.seqNum]) := by
  obtain ⟨hg, ht, hi, he⟩ := h
  have hlast : ∀ a, (seqs ++ [hdr.seqNum]).getLast? = some a → hdr.seqNum + 1 = a + 1 := by
    intro a ha
    simp only [List.getLast?_append, List.getLast?_singleton, Option.some_or, Option.some.injEq] at ha
    rw [ha]
  cases hl : seqs.getLast? with
  | none =>
    have hnil : seqs = [] := List.getLast?_eq_none_iff.mp hl
    subst hnil
    have hi' : p.seqInitialized = false := by simpa using hi
    refine ⟨?_, ?_, ?_, ?_⟩ <;> simp only [Parser.detectGap, hi', gapSizes_concat, hl, gapTo]
    · simpa using hg
    · simpa using ht
    · simp
    · exact hlast
  | some a =>
    have hne : seqs ≠ [] := by
      rintro rfl
      simp at hl
    have hi' : p.seqInitialized = true := by simp [hi, hne]
    have he' := he a hl
    by_cases hgt : hdr.seqNum > a + 1
    · have hne' : hdr.seqNum ≠ a + 1 := by
        intro heq
        rw [heq] at hgt
        exact absurd hgt (UInt32.lt_irrefl _)
      refine ⟨?_, ?_, ?_, ?_⟩ <;> simp only [Parser.detectGap, hi', gapSizes_concat, hl, gapTo, he', hgt, if_true, hne',
        ne_eq, not_false_eq_true]
      · rw [hg, List.length_append, UInt64.ofNat_add]
        rfl
      · rw [ht, List.sum_append, UInt64.ofNat_add]
        simp
      · simp
      · exact hlast
    · refine ⟨?_, ?_, ?_, ?_⟩ <;> simp only [Parser.detectGap, hi', gapSizes_concat, hl, gapTo, he', hgt, if_true, if_false,
        List.append_nil, ite_self]
      · exact hg
      · exact ht
      · simp
      · exact hlast

/-! ## One iteration -/

/-- The outcome of an iteration describes the piece of the scan that the iteration went over. -/
def Outcome.Describes : Outcome → Piece SkipReason UInt8 → Prop
  | .unknownType _, pc => pc.verdict = .skip .unknownType ∧ pc.bytes.length = 1
  | .checksumError _ _, pc => pc.verdict = .skip .badChecksum ∧ pc.bytes.length = 1
  | .outOfRange w, pc => pc.verdict = .take w.length ∧ pc.bytes = w ∧ frameCounts w = false
  | .heartbeat w, pc =>
    pc.verdict = .take w.length ∧ pc.bytes = w ∧ frameCounts w = true ∧ ∀ t, frameMessage w t = none
  | .dispatched w pm, pc => pc.verdict = .take w.length ∧ pc.bytes = w ∧ frameMessage w pm.recvTimeNs = some pm

namespace ParserScanAux

/-- The message `process` builds reads the payload behind the header, where the scratch buffer begins with the message. -/
theorem buildMessage_append {w rest : List UInt8} {hdr : MsgHeader} {t : UInt64} (hh : hdr.msgType ≠ msgHeartbeat)
    (hw : w.length = totalSizeForType hdr.msgType) (h0 : w.length ≠ 0) :
    Parser.buildMessage hdr (w ++ rest) t = Parser.buildMessage hdr w t := by
  have hdrop : (w ++ rest).drop headerSize = w.drop headerSize ++ rest := by
    apply List.drop_append_of_le_length
    rcases totalSizeForType_cases hdr.msgType with h | h | h | h <;> simp only [headerSize] <;> omega
  simp only [Parser.buildMessage, hdrop]
  congr 1
  unfold totalSizeForType at hw
  by_cases h1 : hdr.msgType = msgTrade
  · have hl : 12 ≤ (w.drop headerSize).length := by
      rw [if_pos h1] at hw
      rw [List.length_drop, hw]
      decide
    simp only [h1, if_true, TradePayload.ofBytes]
    rw [readLE_append_right (by omega), readLE_append_right (by omega)]
  · by_cases h2 : hdr.msgType = msgQuote
    · have hl : 24 ≤ (w.drop headerSize).length := by
        rw [if_neg h1, if_pos h2] at hw
        rw [List.length_drop, hw]
        decide
      simp only [h1, if_false, QuotePayload.ofBytes]
      rw [readLE_append_right (by omega), readLE_append_right (by omega), readLE_append_right (by omega),
        readLE_append_right (by omega)]
    · rw [if_neg h1, if_neg h2, if_neg hh] at hw
      exact absurd hw h0

/-- The header peeked off the ring is the header of the contents. -/
theorem ofBytes_peek {r : ByteRingBuffer c} (hb : r.Bounded) (h : headerSize ≤ r.contents.length) :
    MsgHeader.ofBytes (r.peek headerSize) = MsgHeader.ofBytes r.contents := by
  have hl : headerSize ≤ (r.contents.take headerSize).length := by rw [List.length_take]; omega
  conv_rhs => rw [← List.take_append_drop headerSize r.contents]
  rw [ByteRingBuffer.peek_spec hb, MsgHeader.ofBytes_append _ hl]

/-- The parser once a whole message of `n` bytes has been peeked into the scratch buffer. -/
def peeked (p : Parser c) (n : Nat) : Parser c :=
  { p with scratch := p.ring.contents.take n ++ p.scratch.drop n }

/-- The loop body of `process`, by what the front of the ring calls for. -/
theorem iterate_eq {p : Parser c} (hb : p.ring.Bounded) :
    p.iterate =
      let bs := p.ring.contents
      let hdr := MsgHeader.ofBytes bs
      match verdict bs with
      | .wait => none
      | .skip .unknownType => some ({ p with ring := p.ring.consume 1 }, .unknownType hdr.msgType)
      | .skip .badChecksum =>
        some ({ peeked p (totalSizeForType hdr.msgType) with
            checksumErrors := p.checksumErrors + 1, ring := p.ring.consume 1 }, .checksumError hdr.seqNum hdr.symbolId)
      | .take n => some ({ peeked p n with ring := p.ring.consume n }.accept hdr n) := by
  simp only
  unfold Parser.iterate
  rw [← ByteRingBuffer.length_contents]
  by_cases hh : p.ring.contents.length < headerSize
  · rw [if_pos hh, ScanAux.verdict_wait_short hh]
  · have hh' : headerSize ≤ p.ring.contents.length := by omega
    rw [if_neg hh, ScanAux.verdict_of_header hh']
    simp only [ofBytes_peek hb hh']
    generalize MsgHeader.ofBytes p.ring.contents = hdr
    by_cases hneg : payloadSizeForType hdr.msgType < 0
    · rw [if_pos hneg, if_pos ((payloadSizeForType_neg_iff _).mp hneg)]
    · have hn0 : totalSizeForType hdr.msgType ≠ 0 := fun h0 => hneg ((payloadSizeForType_neg_iff _).mpr h0)
      have hn4 : 4 ≤ totalSizeForType hdr.msgType := by
        rcases totalSizeForType_cases hdr.msgType with h | h | h | h <;> omega
      rw [if_neg hneg, if_neg hn0, ← totalSizeForType_eq (by omega)]
      generalize totalSizeForType hdr.msgType = n at *
      by_cases hlt : p.ring.contents.length < n
      · rw [if_pos hlt, if_pos hlt]
      · have hlen : (p.ring.contents.take n).length = n := by rw [List.length_take]; omega
        -- the check reads the window and nothing behind it
        have hver : verifyChecksum (p.ring.contents.take n ++ p.scratch.drop n) n =
            verifyChecksum (p.ring.contents.take n) n := by
          rw [← verifyChecksum_take (by rw [List.length_append]; omega) hn4, List.take_left' hlen]
        rw [if_neg hlt, if_neg hlt]
        simp only [ByteRingBuffer.peek_spec hb, hlen, hver]
        by_cases hok : verifyChecksum (p.ring.contents.take n) n = true
        · simp [hok, peeked]
        · simp [hok, peeked]

/-- What taking a message leaves alone. -/
structure Keeps (p q : Parser c) : Prop where
  ring : q.ring = p.ring
  scratch : q.scratch = p.scratch
  batchRecvTimeNs : q.batchRecvTimeNs = p.batchRecvTimeNs

theorem detectGap_keeps (p : Parser c) (hdr : MsgHeader) : Keeps p (p.detectGap hdr) := by
  unfold Parser.detectGap
  split_ifs <;> exact ⟨rfl, rfl, rfl⟩

theorem detectGap_counters (p : Parser c) (hdr : MsgHeader) :
    (p.detectGap hdr).msgsParsed = p.msgsParsed ∧ (p.detectGap hdr).checksumErrors = p.checksumErrors ∧
      (p.detectGap hdr).expectedSeq = hdr.seqNum + 1 := by
  unfold Parser.detectGap
  split_ifs <;> exact ⟨rfl, rfl, rfl⟩

theorem accept_keeps (p : Parser c) (hdr : MsgHeader) (totalSize : Nat) : Keeps p (p.accept hdr totalSize).1 := by
  have h := detectGap_keeps p hdr
  unfold Parser.accept
  dsimp only
  split_ifs <;> exact ⟨h.ring, h.scratch, h.batchRecvTimeNs⟩

/-- The messages of pieces with one more piece. -/
theorem frames_concat (ps : List (Piece SkipReason UInt8)) (pc : Piece SkipReason UInt8) :
    frames (ps ++ [pc]) = frames ps ++ (match pc.verdict with
      | .take _ => [pc.bytes]
      | _ => []) := by
  unfold frames
  rw [List.filterMap_append]
  cases h : pc.verdict <;> simp [h]

end ParserScanAux

/-- Going over a byte that is skipped leaves the sequence tracking alone. -/
theorem Parser.Tracks.skip {p p' : Parser c} {ps : List (Piece SkipReason UInt8)} {pc : Piece SkipReason UInt8}
    {why : SkipReason} (h : p.Tracks ps) (hv : pc.verdict = .skip why)
    (hseq : ∀ seqs, p.TracksSeq seqs → p'.TracksSeq seqs) (hp : p'.msgsParsed = p.msgsParsed)
    (he : p'.checksumErrors = p.checksumErrors + UInt64.ofNat (if why = .badChecksum then 1 else 0)) :
    p'.Tracks (ps ++ [pc]) := by
  have hf : frames (ps ++ [pc]) = frames ps := by rw [frames_concat, hv]; simp
  refine ⟨by rw [hf]; exact hseq _ h.seq, by rw [hf, hp, h.parsed], ?_⟩
  rw [he, h.errors, ← UInt64.ofNat_add]
  congr 1
  simp [badChecksums, hv]

/-- Taking a message: what `accept` logs describes it, and the counters follow it. -/
theorem Parser.accept_spec {p : Parser c} {ps : List (Piece SkipReason UInt8)} {w rest : List UInt8}
    (ht : p.Tracks ps) (hw : w.length = totalSizeForType (MsgHeader.ofBytes w).msgType) (h0 : w.length ≠ 0)
    (hs : p.scratch = w ++ rest) :
    (p.accept (MsgHeader.ofBytes w) w.length).2.Describes ⟨.take w.length, w⟩ ∧
      (p.accept (MsgHeader.ofBytes w) w.length).1.Tracks (ps ++ [⟨.take w.length, w⟩]) ∧
      (p.accept (MsgHeader.ofBytes w) w.length).1.ring = p.ring ∧
      (p.accept (MsgHeader.ofBytes w) w.length).1.batchRecvTimeNs = p.batchRecvTimeNs := by
  have hwin : p.scratch.take w.length = w := by rw [hs, List.take_left]
  have hfr : frames (ps ++ [⟨.take w.length, w⟩]) = frames ps ++ [w] := by rw [frames_concat]
  have hseq : (p.detectGap (MsgHeader.ofBytes w)).TracksSeq (seqNums (frames (ps ++ [⟨.take w.length, w⟩]))) := by
    rw [hfr, seqNums, List.map_append]
    exact ht.seq.detectGap _
  obtain ⟨hring, hscratch, hbatch⟩ := detectGap_keeps p (MsgHeader.ofBytes w)
  obtain ⟨hparsed, herrors, -⟩ := detectGap_counters p (MsgHeader.ofBytes w)
  have herr : p.checksumErrors = UInt64.ofNat (badChecksums (ps ++ [⟨.take w.length, w⟩])) := by
    rw [ht.errors]
    simp [badChecksums]
  have hcount : (frames (ps ++ [⟨.take w.length, w⟩])).countP frameCounts =
      (frames ps).countP frameCounts + (if frameCounts w then 1 else 0) := by
    rw [hfr, List.countP_append]
    simp [List.countP_cons]
  unfold Parser.accept
  simp only [hwin]
  split_ifs with hrange hbeat
  · -- symbol out of range
    have hfc : frameCounts w = false := by
      simp only [frameCounts, Bool.or_eq_false_iff, decide_eq_false_iff_not]
      exact ⟨hrange.2, UInt16.not_lt.mpr hrange.1⟩
    refine ⟨⟨rfl, rfl, hfc⟩, ⟨hseq, ?_, herrors.trans herr⟩, hring, hbatch⟩
    rw [hcount, hparsed, ht.parsed, hfc]
    simp
  · -- heartbeat
    have hfc : frameCounts w = true := by simp [frameCounts, hbeat]
    refine ⟨⟨rfl, rfl, hfc, fun t => by simp [frameMessage, hbeat]⟩, ⟨⟨hseq.gaps, hseq.total, hseq.init, hseq.expected⟩, ?_,
      herrors.trans herr⟩, hring, hbatch⟩
    rw [hcount, hfc, UInt64.ofNat_add, ← ht.parsed, ← hparsed]
    rfl
  · -- trade or quote
    have hlt : (MsgHeader.ofBytes w).symbolId < maxSymbols := by
      rw [← UInt16.not_le]
      exact fun hge => hrange ⟨hge, hbeat⟩
    have hfc : frameCounts w = true := by simp [frameCounts, hlt]
    refine ⟨⟨rfl, rfl, ?_⟩, ⟨⟨hseq.gaps, hseq.total, hseq.init, hseq.expected⟩, ?_, herrors.trans herr⟩, hring, hbatch⟩
    · rw [hbatch, hscratch, hs, buildMessage_append hbeat hw h0]
      simp [frameMessage, hbeat, UInt16.not_le.mpr hlt, Parser.buildMessage]
    · rw [hcount, hfc, UInt64.ofNat_add, ← ht.parsed, ← hparsed]
      rfl

/-- Where the scan waits, `process` breaks. -/
theorem Parser.iterate_wait {p : Parser c} (hb : p.ring.Bounded) (hv : verdict p.ring.contents = .wait) :
    p.iterate = none := by
  rw [iterate_eq hb]
  simp only [hv]

/-- Where the scan moves on, so does `process`: by the same bytes, with an outcome that describes the piece, and with the
counters following it. -/
theorem Parser.iterate_spec {p : Parser c} {ps : List (Piece SkipReason UInt8)} {n : Nat} (hb : p.ring.Bounded)
    (ht : p.Tracks ps) (ha : (verdict p.ring.contents).advance = some n) :
    ∃ p' o, p.iterate = some (p', o) ∧ p'.ring.contents = p.ring.contents.drop n ∧ p'.ring.Bounded ∧
      p'.batchRecvTimeNs = p.batchRecvTimeNs ∧ o.Describes ⟨verdict p.ring.contents, p.ring.contents.take n⟩ ∧
      p'.Tracks (ps ++ [⟨verdict p.ring.contents, p.ring.contents.take n⟩]) := by
  have hn : n ≤ p.ring.contents.length := wire.advance_le ha
  have hlen : (p.ring.contents.take n).length = n := by rw [List.length_take]; omega
  obtain ⟨hcon, hbd⟩ := ByteRingBuffer.consume_spec hb hn
  rw [iterate_eq hb]
  simp only
  cases hv : verdict p.ring.contents with
  | wait => rw [hv] at ha; cases ha
  | skip why =>
    have hn1 : n = 1 := by rw [hv] at ha; exact (Option.some.inj ha).symm
    subst hn1
    cases why with
    | unknownType =>
      refine ⟨_, _, rfl, hcon, hbd, rfl, ⟨rfl, hlen⟩, ht.skip rfl ?_ rfl ?_⟩
      · exact fun seqs h => ⟨h.gaps, h.total, h.init, h.expected⟩
      · simp
    | badChecksum =>
      refine ⟨_, _, rfl, hcon, hbd, rfl, ⟨rfl, hlen⟩, ht.skip rfl ?_ rfl ?_⟩
      · exact fun seqs h => ⟨h.gaps, h.total, h.init, h.expected⟩
      · rfl
  | take m =>
    have hmn : m = n := by rw [hv] at ha; exact Option.some.inj ha
    subst hmn
    obtain ⟨hh, -, htype, hm0, -⟩ := ScanAux.verdict_take hv
    generalize hw : p.ring.contents.take m = w at *
    have h16 : headerSize ≤ w.length := by
      rcases totalSizeForType_cases (MsgHeader.ofBytes p.ring.contents).msgType with h | h | h | h <;>
        simp only [headerSize] at hh ⊢ <;> omega
    have hhdr : MsgHeader.ofBytes p.ring.contents = MsgHeader.ofBytes w := by
      conv_lhs => rw [← List.take_append_drop m p.ring.contents]
      rw [hw, MsgHeader.ofBytes_append _ h16]
    subst hlen
    have hp : ({ peeked p w.length with ring := p.ring.consume w.length } : Parser c).Tracks ps :=
      ⟨⟨ht.seq.gaps, ht.seq.total, ht.seq.init, ht.seq.expected⟩, ht.parsed, ht.errors⟩
    rw [hhdr] at htype ⊢
    obtain ⟨hd, htr, hring, hbatch⟩ := Parser.accept_spec hp htype.symm hm0 (by simp only [peeked, hw]; rfl)
    exact ⟨_, _, rfl, (congrArg ByteRingBuffer.contents hring).trans hcon,
      (congrArg ByteRingBuffer.Bounded hring).mpr hbd, hbatch, hd, htr⟩

/-! ## Whole runs -/

/-- The system after an iteration that goes on. -/
def ParserSys.iterated (s : ParserSys c) (now : UInt64) (count : Nat) (p : Parser c) (o : Outcome) : ParserSys c :=
  { s with
    parser := p
    pc := .loop (count + o.counted)
    outcomes := s.outcomes ++ [o]
    samples := s.samples ++ (o.message.bind (latencySample now)).toList }

theorem ParserSys.step_iterate_some {s : ParserSys c} {count : Nat} (hpc : s.pc = .loop count) {p : Parser c} {o : Outcome}
    (hi : s.parser.iterate = some (p, o)) (now : UInt64) : s.step (.iterate now) = some (s.iterated now count p o) := by
  simp only [ParserSys.step, hpc, hi]
  rfl

theorem ParserSys.step_iterate_none {s : ParserSys c} {count : Nat} (hpc : s.pc = .loop count) (hi : s.parser.iterate = none)
    (now : UInt64) : s.step (.iterate now) = some { s with pc := .idle, returned := s.returned ++ [count] } := by
  simp only [ParserSys.step, hpc, hi]

/-- The parser system against the scan of the bytes fed so far. -/
structure Sim (s : ParserSys c) (fed : List UInt8) (ps : List (Piece SkipReason UInt8)) : Prop where
  bounded : s.parser.ring.Bounded
  tracks : s.parser.Tracks ps
  log : List.Forall₂ Outcome.Describes s.outcomes ps
  scan : wire.scan fed = (ps ++ (wire.scan s.parser.ring.contents).1, (wire.scan s.parser.ring.contents).2)

theorem Sim.init (c : Capacity) : Sim (ParserSys.init c) [] [] where
  bounded := ByteRingBuffer.bounded_empty c
  tracks := ⟨⟨rfl, rfl, rfl, by simp [seqNums, frames]⟩, rfl, rfl⟩
  log := .nil
  scan := by simp [ParserSys.init, Parser.fresh, ByteRingBuffer.contents_empty]

/-- Feeding bytes extends the stream by those the ring takes. -/
theorem Sim.feed {s : ParserSys c} {fed : List UInt8} {ps : List (Piece SkipReason UInt8)} (h : Sim s fed ps)
    (data : List UInt8) (t : UInt64) :
    Sim { s with parser := s.parser.feed data t } (fed ++ data.take (c.val - s.parser.ring.contents.length)) ps := by
  obtain ⟨-, hcon, hbd⟩ := ByteRingBuffer.write_spec h.bounded data
  refine ⟨hbd, ⟨⟨h.tracks.seq.gaps, h.tracks.seq.total, h.tracks.seq.init, h.tracks.seq.expected⟩, h.tracks.parsed,
    h.tracks.errors⟩, h.log, ?_⟩
  have hc : (s.parser.feed data t).ring.contents =
    s.parser.ring.contents ++ data.take (c.val - s.parser.ring.contents.length) := hcon
  rw [hc, Framer.scan_append fed, Framer.scan_append s.parser.ring.contents, h.scan]
  simp

/-- Feeding bytes that fit extends the stream by all of them. -/
theorem Sim.feed_fits {s : ParserSys c} {fed : List UInt8} {ps : List (Piece SkipReason UInt8)} (h : Sim s fed ps)
    {data : List UInt8} {t : UInt64} (hfit : s.FeedFits (.feed data t)) :
    Sim { s with parser := s.parser.feed data t } (fed ++ data) ps := by
  have hle : data.length ≤ c.val - s.parser.ring.contents.length := by
    rw [ByteRingBuffer.length_contents, ← ByteRingBuffer.writable_toNat h.bounded]
    exact hfit
  have := h.feed data t
  rwa [List.take_of_length_le hle] at this

/-- Where the scan waits, an iteration returns from `process`. -/
theorem Sim.iterate_wait {s : ParserSys c} {fed : List UInt8} {ps : List (Piece SkipReason UInt8)} {count : Nat}
    (h : Sim s fed ps) (hpc : s.pc = .loop count) (hv : verdict s.parser.ring.contents = .wait) (now : UInt64) :
    s.step (.iterate now) = some { s with pc := .idle, returned := s.returned ++ [count] } :=
  ParserSys.step_iterate_none hpc (Parser.iterate_wait h.bounded hv) now

/-- Where the scan moves on, an iteration goes over one piece and stays in the loop. -/
theorem Sim.iterate_advance {s : ParserSys c} {fed : List UInt8} {ps : List (Piece SkipReason UInt8)} {count n : Nat}
    (h : Sim s fed ps) (hpc : s.pc = .loop count) (ha : (verdict s.parser.ring.contents).advance = some n) (now : UInt64) :
    ∃ s₁ count₁ pc, s.step (.iterate now) = some s₁ ∧ s₁.pc = .loop count₁ ∧
      s₁.parser.ring.contents = s.parser.ring.contents.drop n ∧ Sim s₁ fed (ps ++ [pc]) := by
  obtain ⟨p', o, hi, hcon, hbd, -, hd, htr⟩ := Parser.iterate_spec h.bounded h.tracks ha
  have hscan := Framer.scan_advance (F := wire) ha
  have hstep := ParserSys.step_iterate_some hpc hi now
  have hfed : wire.scan fed = (ps ++ [⟨verdict s.parser.ring.contents, s.parser.ring.contents.take n⟩] ++
      (wire.scan p'.ring.contents).1, (wire.scan p'.ring.contents).2) := by
    rw [h.scan, hscan, hcon, List.append_assoc]
    rfl
  exact ⟨_, count + o.counted, _, hstep, rfl, hcon, hbd, htr, List.rel_append h.log (.cons hd .nil), hfed⟩

/-- A step of `process` goes over a piece of the scan, or over none. -/
theorem Sim.process_step {s s' : ParserSys c} {fed : List UInt8} {ps : List (Piece SkipReason UInt8)} {e : ParserEvent}
    (h : Sim s fed ps) (he : ∀ data t, e ≠ .feed data t) (hs : s.step e = some s') : ∃ ps', Sim s' fed ps' := by
  cases e with
  | feed data t => exact absurd rfl (he data t)
  | call =>
    cases hpc : s.pc with
    | loop count => simp [ParserSys.step, hpc] at hs
    | idle =>
      simp only [ParserSys.step, hpc, Option.some.injEq] at hs
      subst hs
      exact ⟨ps, h.bounded, h.tracks, h.log, h.scan⟩
  | iterate now =>
    cases hpc : s.pc with
    | idle => simp [ParserSys.step, hpc] at hs
    | loop count =>
      cases ha : (verdict s.parser.ring.contents).advance with
      | none =>
        rw [h.iterate_wait hpc (Verdict.advance_eq_none.mp ha)] at hs
        cases hs
        exact ⟨ps, h.bounded, h.tracks, h.log, h.scan⟩
      | some n =>
        obtain ⟨s₁, -, pc, hs₁, -, -, h₁⟩ := h.iterate_advance hpc ha now
        rw [hs₁] at hs
        cases hs
        exact ⟨_, h₁⟩

/-- Every run without overflow keeps the parser in step with the scan. -/
theorem Sim.exec {es : List ParserEvent} {s s' : ParserSys c} {fed : List UInt8} {ps : List (Piece SkipReason UInt8)}
    (h : Sim s fed ps) (hno : ParserSys.NoOverflow s es) (hs : Run.exec ParserSys.step s es = some s') :
    ∃ ps', Sim s' (fed ++ fedBytes es) ps' := by
  induction es generalizing s fed ps with
  | nil =>
    cases hs
    exact ⟨ps, by simpa [fedBytes] using h⟩
  | cons e es ih =>
    obtain ⟨s₁, hs₁, hs'⟩ := Run.exec_cons_eq_some.mp hs
    obtain ⟨hfit, hno'⟩ := hno
    rw [hs₁] at hno'
    cases e with
    | feed data t =>
      cases hs₁
      have := ih (h.feed_fits hfit) hno' hs'
      simpa [fedBytes, List.append_assoc] using this
    | call =>
      obtain ⟨ps₁, h₁⟩ := h.process_step (fun _ _ he => by cases he) hs₁
      simpa [fedBytes] using ih h₁ hno' hs'
    | iterate now =>
      obtain ⟨ps₁, h₁⟩ := h.process_step (fun _ _ he => by cases he) hs₁
      simpa [fedBytes] using ih h₁ hno' hs'

/-- A whole call of `process`, with the clock readings its iterations take. -/
def processCall (nows : List UInt64) : List ParserEvent := .call :: nows.map .iterate

/-- From the head of its loop, with nothing fed any more, `process` goes over what is left of the scan and returns. -/
theorem Sim.drain {s : ParserSys c} {fed : List UInt8} {ps : List (Piece SkipReason UInt8)} {nows : List UInt64}
    {count : Nat} (h : Sim s fed ps) (hpc : s.pc = .loop count)
    (hn : nows.length = (wire.scan s.parser.ring.contents).1.length + 1) :
    ∃ s', Run.exec ParserSys.step s (nows.map .iterate) = some s' ∧ s'.pc = .idle ∧ Sim s' fed (wire.scan fed).1 ∧
      s'.parser.ring.contents = (wire.scan fed).2 := by
  induction nows generalizing s ps count with
  | nil => simp at hn
  | cons now nows ih =>
    cases ha : (verdict s.parser.ring.contents).advance with
    | none =>
      have hv := Verdict.advance_eq_none.mp ha
      have hscan : wire.scan s.parser.ring.contents = ([], s.parser.ring.contents) := Framer.scan_wait hv
      have hnil : nows = [] := List.eq_nil_of_length_eq_zero (by simpa [hscan] using hn)
      subst hnil
      have hfed : wire.scan fed = (ps, s.parser.ring.contents) := by rw [h.scan, hscan, List.append_nil]
      refine ⟨_, Run.exec_cons_eq_some.mpr ⟨_, h.iterate_wait hpc hv now, rfl⟩, rfl, ?_, ?_⟩
      · rw [hfed]
        exact ⟨h.bounded, h.tracks, h.log, h.scan⟩
      · rw [hfed]
    | some n =>
      obtain ⟨s₁, count₁, pc, hstep, hpc₁, hcon, h₁⟩ := h.iterate_advance hpc ha now
      have hn' : nows.length = (wire.scan s₁.parser.ring.contents).1.length + 1 := by
        rw [Framer.scan_advance (F := wire) ha] at hn
        rw [hcon]
        simpa using hn
      obtain ⟨s', hs', hrest⟩ := ih h₁ hpc₁ hn'
      exact ⟨s', Run.exec_cons_eq_some.mpr ⟨s₁, hstep, hs'⟩, hrest⟩

/-- A call of `process` with nothing fed in the meantime goes over the whole scan and returns, after one iteration for each
piece left and one that breaks. -/
theorem Sim.process {s : ParserSys c} {fed : List UInt8} {ps : List (Piece SkipReason UInt8)} {nows : List UInt64}
    (h : Sim s fed ps) (hpc : s.pc = .idle) (hn : nows.length = (wire.scan s.parser.ring.contents).1.length + 1) :
    ∃ s', Run.exec ParserSys.step s (processCall nows) = some s' ∧ s'.pc = .idle ∧ Sim s' fed (wire.scan fed).1 ∧
      s'.parser.ring.contents = (wire.scan fed).2 := by
  have h₁ : Sim { s with pc := .loop 0 } fed ps := ⟨h.bounded, h.tracks, h.log, h.scan⟩
  obtain ⟨s', hs', hrest⟩ := h₁.drain rfl hn
  exact ⟨s', Run.exec_cons_eq_some.mpr ⟨_, by simp [ParserSys.step, hpc], hs'⟩, hrest⟩

/-! ## What the log says -/

/-- A message without its receive time. -/
def ParsedMessage.withoutRecvTime (pm : ParsedMessage) : ParsedMessage := { pm with recvTimeNs := 0 }

namespace ParserScanAux

theorem frameMessage_zero {w : List UInt8} {t : UInt64} :
    (frameMessage w t).map ParsedMessage.withoutRecvTime = frameMessage w 0 := by
  simp only [frameMessage]
  split_ifs <;> rfl

theorem frameMessage_of_not_counts {w : List UInt8} (h : frameCounts w = false) (t : UInt64) : frameMessage w t = none := by
  simp only [frameCounts, Bool.or_eq_false_iff, decide_eq_false_iff_not] at h
  simp [frameMessage, h.1, UInt16.not_lt.mp h.2]

/-- What a piece of the scan hands to the callback, without the receive time. -/
def pieceMessage (pc : Piece SkipReason UInt8) : Option ParsedMessage :=
  match pc.verdict with
  | .take _ => frameMessage pc.bytes 0
  | _ => none

/-- An outcome that describes a piece hands over what the piece does, and is as long. -/
theorem describes_message {o : Outcome} {pc : Piece SkipReason UInt8} (h : o.Describes pc) :
    o.message.map ParsedMessage.withoutRecvTime = pieceMessage pc ∧ o.size = pc.bytes.length := by
  cases o with
  | unknownType t => exact ⟨by simp [Outcome.message, pieceMessage, h.1], h.2.symm⟩
  | checksumError a b => exact ⟨by simp [Outcome.message, pieceMessage, h.1], h.2.symm⟩
  | outOfRange w =>
    obtain ⟨hv, hb, hc⟩ := h
    exact ⟨by simp [Outcome.message, pieceMessage, hv, hb, frameMessage_of_not_counts hc], by rw [hb]; rfl⟩
  | heartbeat w =>
    obtain ⟨hv, hb, -, hm⟩ := h
    exact ⟨by simp [Outcome.message, pieceMessage, hv, hb, hm], by rw [hb]; rfl⟩
  | dispatched w pm =>
    obtain ⟨hv, hb, hm⟩ := h
    refine ⟨?_, by rw [hb]; rfl⟩
    simp only [Outcome.message, pieceMessage, hv, hb, ← frameMessage_zero (t := pm.recvTimeNs), hm]

end ParserScanAux

/-- The messages handed to the callback are those of the pieces scanned. -/
theorem messages_of_log {os : List Outcome} {ps : List (Piece SkipReason UInt8)}
    (h : List.Forall₂ Outcome.Describes os ps) :
    (os.filterMap Outcome.message).map ParsedMessage.withoutRecvTime = (frames ps).filterMap (frameMessage · 0) := by
  have hpiece : (frames ps).filterMap (frameMessage · 0) = ps.filterMap pieceMessage := by
    rw [frames, List.filterMap_filterMap]
    apply List.filterMap_congr
    intro pc _
    unfold pieceMessage
    cases pc.verdict <;> rfl
  rw [hpiece, List.map_filterMap]
  clear hpiece
  induction h with
  | nil => rfl
  | cons hd _ ih => rw [List.filterMap_cons, List.filterMap_cons, (describes_message hd).1, ih]

/-- The messages handed to the callback, with their places in the stream, are the placed frames of the pieces scanned. -/
theorem places_of_log {os : List Outcome} {ps : List (Piece SkipReason UInt8)}
    (h : List.Forall₂ Outcome.Describes os ps) (off : Nat) :
    ((ParserSys.place off os).filterMap fun x =>
        x.2.message.map fun pm => (x.1, x.1 + x.2.size, pm.withoutRecvTime)) =
      (Framer.placed off ps).filterMap fun x => (frameMessage x.2 0).map fun pm => (x.1, x.1 + x.2.length, pm) := by
  induction h generalizing off with
  | nil => rfl
  | @cons o pc os ps hd _ ih =>
    obtain ⟨hm, hsize⟩ := describes_message hd
    have hmap : (o.message.map fun pm => (off, off + o.size, pm.withoutRecvTime)) =
        (pieceMessage pc).map fun pm => (off, off + pc.bytes.length, pm) := by
      rw [← hm, hsize, Option.map_map]
      rfl
    rw [ParserSys.place, List.filterMap_cons, hmap, hsize, ih]
    unfold pieceMessage
    cases hv : pc.verdict with
    | wait => simp [Framer.placed, hv]
    | skip why => simp [Framer.placed, hv]
    | take n =>
      simp only [Framer.placed, hv, List.filterMap_cons]

end MarketFeed
