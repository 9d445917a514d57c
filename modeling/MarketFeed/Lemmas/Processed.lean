import MarketFeed.TickGenerator
import MarketFeed.Theorems.Refinement

/-!
# A stream fed and processed

What several results start from: a parser that has been fed a stream from a fresh start, in any chunks with `process` running
anywhere in between (`FedWith`), and what holds once a last `process` has returned (`Ends`). The result of scanning a stream of
messages is in `scanResult_stream`.
-/

namespace MarketFeed

open Framing

variable {c : Capacity}

/-- The system after a run that has fed these bytes, in any chunks with `process` running anywhere, in which no `feed` overflowed
the ring; `process` is not running. -/
def ParserSys.FedWith (s : ParserSys c) (bytes : List UInt8) : Prop :=
  ∃ es, fedBytes es = bytes ∧ Run.exec ParserSys.step (ParserSys.init c) es = some s ∧
    ParserSys.NoOverflow (ParserSys.init c) es ∧ s.pc = .idle

/-- A last call of `process` returns, after a number of iterations that does not depend on the clock, in a state with `P`. -/
def ParserSys.Ends (s : ParserSys c) (P : ParserSys c → Prop) : Prop :=
  ∃ k, ∀ nows : List UInt64, nows.length = k → ∃ s', Run.exec ParserSys.step s (processCall nows) = some s' ∧ s'.pc = .idle ∧ P s'

theorem ParserSys.Ends.mono {s : ParserSys c} {P Q : ParserSys c → Prop} (h : s.Ends P) (hPQ : ∀ t, P t → Q t) : s.Ends Q := by
  obtain ⟨k, hk⟩ := h
  refine ⟨k, fun nows hn => ?_⟩
  obtain ⟨t, ht, hpc, hP⟩ := hk nows hn
  exact ⟨t, ht, hpc, hPQ t hP⟩

/-- A parser that has been fed some bytes ends by showing the result of their scan. -/
theorem ParserSys.FedWith.ends {s : ParserSys c} {bytes : List UInt8} (h : s.FedWith bytes) :
    s.Ends fun t => Shows t (scanResult bytes) := by
  obtain ⟨es, hfed, hrun, hno, hidle⟩ := h
  obtain ⟨ps, hsim⟩ := (Sim.init c).exec hno hrun
  rw [List.nil_append, hfed] at hsim
  refine ⟨(wire.scan s.parser.ring.contents).1.length + 1, fun nows hn => ?_⟩
  obtain ⟨t, ht, hpc, hsim', hrest⟩ := hsim.process hidle hn
  exact ⟨t, ht, hpc, hsim'.shows hrest⟩

/-! ## The scan of a stream of messages -/

/-- The sequence number in the header. -/
def Msg.seqNum (m : Msg) : UInt32 := m.header.seqNum

namespace ProcessedAux

/-- The frames of a scanned stream of messages are the messages. -/
theorem frames_stream (ms : List Msg) : frames (wire.scan (stream ms)).1 = ms.map Msg.bytes := by
  have hscan := scan_stream ms []
  have hnil : wire.scan [] = ([], []) := Framer.scanAux_nil 0
  rw [List.append_nil, hnil, List.append_nil] at hscan
  rw [hscan, frames, List.filterMap_map, ← List.filterMap_eq_map]
  rfl

/-- What a stream of messages comes to: every trade and quote, nothing skipped, nothing left. -/
theorem scanResult_stream (ms : List Msg) :
    (scanResult (stream ms)).messages = ms.filterMap (Msg.parsed 0) ∧ (scanResult (stream ms)).msgsParsed = ms.length ∧
      (scanResult (stream ms)).checksumErrors = 0 ∧ (scanResult (stream ms)).rest = [] := by
  have hscan := scan_stream ms []
  have hnil : wire.scan [] = ([], []) := Framer.scanAux_nil 0
  rw [List.append_nil, hnil, List.append_nil] at hscan
  refine ⟨?_, ?_, ?_, ?_⟩
  · simp only [scanResult, frames_stream, List.filterMap_map]
    apply List.filterMap_congr
    intro m _
    exact m.frameMessage_bytes 0
  · simp only [scanResult, frames_stream, List.countP_map]
    rw [List.countP_eq_length]
    intro m _
    exact m.frameCounts_bytes
  · simp only [scanResult, hscan, badChecksums, List.countP_map]
    rw [List.countP_eq_zero]
    intro m _
    simp
  · simp only [scanResult, hscan]

/-- The sequence numbers that a stream of messages brings are those of the messages. -/
theorem seqNums_stream (ms : List Msg) : seqNums (frames (wire.scan (stream ms)).1) = ms.map Msg.seqNum := by
  rw [frames_stream, seqNums, List.map_map]
  apply List.map_congr_left
  intro m _
  exact congrArg MsgHeader.seqNum m.ofBytes_bytes

end ProcessedAux

open ProcessedAux

/-- The gap counters of a parser that has gone over a stream of messages. -/
theorem Shows.gaps {s : ParserSys c} {ms : List Msg} (h : Shows s (scanResult (stream ms))) :
    s.parser.sequenceGaps = UInt64.ofNat (gapSizes (ms.map Msg.seqNum)).length ∧
      s.parser.totalGapSize = UInt64.ofNat (gapSizes (ms.map Msg.seqNum)).sum := by
  rw [h.sequenceGaps, h.totalGapSize, ← seqNums_stream]
  exact ⟨rfl, rfl⟩

end MarketFeed
