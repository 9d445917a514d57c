import MarketFeed.Lemmas.ParserScan

/-!
# The parser refines the scan, whatever the fragmentation

For any bytes, cut into `feed` calls in any way, with `process` calls anywhere and bytes arriving between the iterations of their
loops: once a last `process` has run, the parser has handed over, counted and left over what the scan of the whole stream does.
-/

namespace MarketFeed

variable {c : Capacity}

/-- What the parser shows of a scan: the messages without their receive times, the four counters and the bytes left. -/
structure Shows (s : ParserSys c) (r : ScanResult) : Prop where
  messages : s.dispatched.map ParsedMessage.withoutRecvTime = r.messages
  msgsParsed : s.parser.msgsParsed = UInt64.ofNat r.msgsParsed
  checksumErrors : s.parser.checksumErrors = UInt64.ofNat r.checksumErrors
  sequenceGaps : s.parser.sequenceGaps = UInt64.ofNat r.sequenceGaps
  totalGapSize : s.parser.totalGapSize = UInt64.ofNat r.totalGapSize
  rest : s.parser.ring.contents = r.rest

/-- A parser that has gone over the whole scan shows its result. -/
theorem Sim.shows {s : ParserSys c} {fed : List UInt8} (h : Sim s fed (wire.scan fed).1)
    (hr : s.parser.ring.contents = (wire.scan fed).2) : Shows s (scanResult fed) where
  messages := messages_of_log h.log
  msgsParsed := h.tracks.parsed
  checksumErrors := h.tracks.errors
  sequenceGaps := h.tracks.seq.gaps
  totalGapSize := h.tracks.seq.total
  rest := hr

/-- After any run of `feed` calls and `process` calls, interleaved down to the iterations of `process`, in which no `feed`
overflows the ring, a last call of `process` returns, and the parser shows the result of scanning all bytes fed at once. The
number of its iterations depends on the bytes alone, not on the clock. -/
theorem process_refines_scan (es : List ParserEvent) (s : ParserSys c)
    (hrun : Run.exec ParserSys.step (ParserSys.init c) es = some s)
    (hno : ParserSys.NoOverflow (ParserSys.init c) es) (hidle : s.pc = .idle) :
    ∃ n, ∀ nows : List UInt64, nows.length = n → ∃ s', Run.exec ParserSys.step s (processCall nows) = some s' ∧
      s'.pc = .idle ∧ Shows s' (scanResult (fedBytes es)) := by
  obtain ⟨ps, hsim⟩ := (Sim.init c).exec hno hrun
  rw [List.nil_append] at hsim
  refine ⟨(Framing.Framer.scan wire s.parser.ring.contents).1.length + 1, fun nows hn => ?_⟩
  obtain ⟨s', hs', hpc, hsim', hrest⟩ := hsim.process hidle hn
  exact ⟨s', hs', hpc, hsim'.shows hrest⟩

namespace RefinementAux

/-- A heartbeat with sequence number 7 behind a stray byte, fed in two parts: the first `process` call skips the stray byte and
waits, and the second part arrives between two of its iterations. -/
def splitRun : List ParserEvent :=
  [.feed [9, 3, 0, 7, 0, 0, 0, 0, 0, 0, 0, 0, 0, 0, 0, 0, 0] 1, .call, .iterate 2,
    .feed [3, 0, 7, 0] 3, .iterate 4, .iterate 5]

end RefinementAux

open RefinementAux in
/-- The run `splitRun` meets the hypotheses of `process_refines_scan`. -/
theorem process_refines_scan_splitRun :
    ∃ s, Run.exec ParserSys.step (ParserSys.init recvBufSize) splitRun = some s ∧
      ∃ n, ∀ nows : List UInt64, nows.length = n → ∃ s', Run.exec ParserSys.step s (processCall nows) = some s' ∧
        s'.pc = .idle ∧ Shows s' (scanResult (fedBytes splitRun)) := by
  have hrun : ∃ s, Run.exec ParserSys.step (ParserSys.init recvBufSize) splitRun = some s ∧
      ParserSys.NoOverflow (ParserSys.init recvBufSize) splitRun ∧ s.pc = .idle := by decide +kernel
  obtain ⟨s, hrun, hno, hidle⟩ := hrun
  exact ⟨s, hrun, process_refines_scan splitRun s hrun hno hidle⟩

end MarketFeed
