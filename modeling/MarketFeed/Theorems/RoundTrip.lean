import MarketFeed.Lemmas.Processed

/-!
# Encode and decode

Messages built as the server builds them, concatenated and fed to a fresh parser in any way without overflow, come out of the
callback as they went in.
-/

namespace MarketFeed

open Framing

variable {c : Capacity}

open ProcessedAux

/-- Any list of messages, encoded and fed in any chunks with `process` running anywhere in between and no overflow: after a last
`process` the callback has had exactly the trades and the quotes, in order and with every field as it was encoded, every message
is counted, heartbeats included, no checksum failed, and the ring is empty. -/
theorem encode_decode (ms : List Msg) (es : List ParserEvent) (s : ParserSys c) (hfed : fedBytes es = stream ms)
    (hrun : Run.exec ParserSys.step (ParserSys.init c) es = some s)
    (hno : ParserSys.NoOverflow (ParserSys.init c) es) (hidle : s.pc = .idle) :
    ∃ n, ∀ nows : List UInt64, nows.length = n → ∃ s', Run.exec ParserSys.step s (processCall nows) = some s' ∧
      s'.pc = .idle ∧ s'.dispatched.map ParsedMessage.withoutRecvTime = ms.filterMap (Msg.parsed 0) ∧
      s'.parser.msgsParsed = UInt64.ofNat ms.length ∧ s'.parser.checksumErrors = 0 ∧ s'.parser.ring.contents = [] := by
  obtain ⟨h1, h2, h3, h4⟩ := scanResult_stream ms
  have hends := ParserSys.FedWith.ends ⟨es, hfed, hrun, hno, hidle⟩
  refine hends.mono (fun t ht => ⟨ht.messages.trans h1, ?_, ?_, ht.rest.trans h4⟩)
  · rw [ht.msgsParsed, h2]
  · rw [ht.checksumErrors, h3]
    rfl

namespace RoundTripAux

/-- A trade, a heartbeat and a quote. -/
def sample : List Msg :=
  [.trade (.ofIndex 7) 4294967295 1000 ⟨4641240890982006784, 200⟩, .heartbeat 0 0 1001,
    .quote (.ofIndex 499) 1 1002 ⟨4636737291354636288, 1000, 4636772475726725120, 500⟩]

/-- The three messages fed in two chunks that cut the heartbeat, with a `process` call in between. -/
def sampleRun : List ParserEvent :=
  [.feed ((stream sample).take 40) 1, .call, .iterate 2, .feed ((stream sample).drop 40) 3, .iterate 4, .iterate 5,
    .iterate 6]

end RoundTripAux

open RoundTripAux in
/-- The run `sampleRun` meets the hypotheses of `encode_decode`. -/
theorem encode_decode_sample :
    ∃ s, Run.exec ParserSys.step (ParserSys.init recvBufSize) sampleRun = some s ∧
      ∃ n, ∀ nows : List UInt64, nows.length = n → ∃ s', Run.exec ParserSys.step s (processCall nows) = some s' ∧
        s'.pc = .idle ∧ s'.dispatched.map ParsedMessage.withoutRecvTime = sample.filterMap (Msg.parsed 0) ∧
        s'.parser.msgsParsed = UInt64.ofNat sample.length ∧ s'.parser.checksumErrors = 0 ∧
        s'.parser.ring.contents = [] := by
  have hrun : ∃ s, Run.exec ParserSys.step (ParserSys.init recvBufSize) sampleRun = some s ∧ fedBytes sampleRun = stream sample ∧
      ParserSys.NoOverflow (ParserSys.init recvBufSize) sampleRun ∧ s.pc = .idle := by decide +kernel
  obtain ⟨s, hrun, hfed, hno, hidle⟩ := hrun
  exact ⟨s, hrun, encode_decode sample sampleRun s hfed hrun hno hidle⟩

end MarketFeed
