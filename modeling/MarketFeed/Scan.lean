import MarketFeed.Lib.Framing
import MarketFeed.Lemmas.Checksum
import MarketFeed.Parser

/-!
# What the parser is for: scanning a byte stream

The reference the parser is compared with works on a list of bytes and knows nothing of rings, chunks or calls. `verdict` looks
at the front of the list: it waits while the header, or the message the header announces, is not there; it skips a byte when the
type word is unknown or the checksum is wrong; otherwise it takes the message. With it, `wire` is a framer in the sense of
`Framing`, and `scanResult` is what a scan of a whole stream hands to the callback, counts and leaves over.
-/

namespace MarketFeed

open Bytes Framing

/-- Why a byte is skipped. -/
inductive SkipReason where
  | unknownType
  | badChecksum
  deriving DecidableEq, Repr

/-- What the front of a stream calls for. -/
def verdict (bs : List UInt8) : Verdict SkipReason :=
  if bs.length < headerSize then .wait
  else
    let n := totalSizeForType (MsgHeader.ofBytes bs).msgType
    if n = 0 then .skip .unknownType
    else if bs.length < n then .wait
    else if verifyChecksum (bs.take n) n then .take n
    else .skip .badChecksum

namespace ScanAux

theorem verdict_wait_short {bs : List UInt8} (h : bs.length < headerSize) : verdict bs = .wait := by
  simp [verdict, h]

/-- The verdict once the header is there. -/
theorem verdict_of_header {bs : List UInt8} (h : headerSize ≤ bs.length) :
    verdict bs =
      if totalSizeForType (MsgHeader.ofBytes bs).msgType = 0 then .skip .unknownType
      else if bs.length < totalSizeForType (MsgHeader.ofBytes bs).msgType then .wait
      else if verifyChecksum (bs.take (totalSizeForType (MsgHeader.ofBytes bs).msgType))
          (totalSizeForType (MsgHeader.ofBytes bs).msgType) then .take (totalSizeForType (MsgHeader.ofBytes bs).msgType)
      else .skip .badChecksum := by
  simp [verdict, Nat.not_lt.mpr h]

/-- A verdict that moves on has a header to go by. -/
theorem header_of_ne_wait {bs : List UInt8} (h : verdict bs ≠ .wait) : headerSize ≤ bs.length := by
  by_contra hlt
  exact h (verdict_wait_short (by omega))

/-- A message that is taken is complete, verified and of a known type. -/
theorem verdict_take {bs : List UInt8} {n : Nat} (h : verdict bs = .take n) :
    headerSize ≤ bs.length ∧ n ≤ bs.length ∧ totalSizeForType (MsgHeader.ofBytes bs).msgType = n ∧ n ≠ 0 ∧
      verifyChecksum (bs.take n) n = true := by
  have hh := header_of_ne_wait (by rw [h]; simp)
  rw [verdict_of_header hh] at h
  split_ifs at h with h2 h3 h4
  simp only [Verdict.take.injEq] at h
  subst h
  exact ⟨hh, by omega, rfl, h2, h4⟩

theorem verdict_stable {bs : List UInt8} (cs : List UInt8) (h : verdict bs ≠ .wait) : verdict (bs ++ cs) = verdict bs := by
  have hh := header_of_ne_wait h
  have hh' : headerSize ≤ (bs ++ cs).length := by rw [List.length_append]; omega
  rw [verdict_of_header hh] at h ⊢
  rw [verdict_of_header hh', MsgHeader.ofBytes_append cs hh]
  generalize totalSizeForType (MsgHeader.ofBytes bs).msgType = n at *
  by_cases h0 : n = 0
  · simp [h0]
  · by_cases hn : bs.length < n
    · simp [h0, hn] at h
    · have hn' : ¬(bs ++ cs).length < n := by rw [List.length_append]; omega
      rw [if_neg h0, if_neg h0, if_neg hn, if_neg hn', List.take_append_of_le_length (by omega)]

theorem verdict_advance_pos {bs : List UInt8} {n : Nat} (h : (verdict bs).advance = some n) : 0 < n := by
  cases hv : verdict bs with
  | wait =>
    rw [hv] at h
    cases h
  | skip why =>
    rw [hv] at h
    cases h
    exact Nat.one_pos
  | take m =>
    rw [hv] at h
    cases h
    exact Nat.pos_of_ne_zero (verdict_take hv).2.2.2.1

theorem verdict_advance_le {bs : List UInt8} {n : Nat} (h : (verdict bs).advance = some n) : n ≤ bs.length := by
  cases hv : verdict bs with
  | wait =>
    rw [hv] at h
    cases h
  | skip why =>
    rw [hv] at h
    cases h
    have hheader := header_of_ne_wait (by rw [hv]; simp)
    exact Nat.le_trans (by decide) hheader
  | take m =>
    rw [hv] at h
    cases h
    exact (verdict_take hv).2.1

end ScanAux

open ScanAux

/-- The framer of the market-data stream. -/
def wire : Framer SkipReason UInt8 where
  verdict := verdict
  advance_pos := verdict_advance_pos
  advance_le := verdict_advance_le
  stable := fun cs h => verdict_stable cs h

/-! ## What a scan comes to -/

/-- What a message taken off the stream hands to the callback: nothing for a heartbeat or an out-of-range symbol. -/
def frameMessage (window : List UInt8) (recvTimeNs : UInt64) : Option ParsedMessage :=
  let hdr := MsgHeader.ofBytes window
  if hdr.msgType = msgHeartbeat ∨ hdr.symbolId ≥ maxSymbols then none
  else some (Parser.buildMessage hdr window recvTimeNs)

/-- A message counts as parsed when it is a heartbeat or its symbol is in range. -/
def frameCounts (window : List UInt8) : Bool :=
  let hdr := MsgHeader.ofBytes window
  hdr.msgType = msgHeartbeat || hdr.symbolId < maxSymbols

/-- The messages among the pieces of a scan. -/
def frames (ps : List (Piece SkipReason UInt8)) : List (List UInt8) :=
  ps.filterMap fun p =>
    match p.verdict with
    | .take _ => some p.bytes
    | _ => none

/-- The sequence numbers of a list of messages. -/
def seqNums (ws : List (List UInt8)) : List UInt32 := ws.map fun w => (MsgHeader.ofBytes w).seqNum

/-- The sizes of the gaps in a list of sequence numbers: where a number is above the successor of the one before it, as 32-bit
numbers, by how much. -/
def gapSizes : List UInt32 → List Nat
  | a :: b :: rest => if b > a + 1 then (b - (a + 1)).toNat :: gapSizes (b :: rest) else gapSizes (b :: rest)
  | _ => []

/-- The number of bytes skipped for their checksum. -/
def badChecksums (ps : List (Piece SkipReason UInt8)) : Nat :=
  ps.countP fun p => p.verdict = .skip .badChecksum

/-- What a scan of a stream comes to. The messages carry no receive time. -/
structure ScanResult where
  messages : List ParsedMessage
  msgsParsed : Nat
  checksumErrors : Nat
  sequenceGaps : Nat
  totalGapSize : Nat
  rest : List UInt8

/-- The reference: the stream scanned at once. -/
def scanResult (bs : List UInt8) : ScanResult :=
  let r := wire.scan bs
  let ws := frames r.1
  { messages := ws.filterMap (frameMessage · 0)
    msgsParsed := ws.countP frameCounts
    checksumErrors := badChecksums r.1
    sequenceGaps := (gapSizes (seqNums ws)).length
    totalGapSize := (gapSizes (seqNums ws)).sum
    rest := r.2 }

end MarketFeed
