import MarketFeed.Lib.Run
import MarketFeed.Protocol
import MarketFeed.RingBuffer

/-!
# The parser

`Parser` of `include/client/parser.h` and `src/client/parser.cpp`. `feed` copies received bytes into the ring; `process` loops
over the ring and dispatches messages. The loop body is one function, `Parser.iterate`: `none` is a `break`, and otherwise it
gives the parser after the iteration and what the iteration came to (an `Outcome`, with the bytes it consumed).

`ParserSys` is the parser with the program counter of the thread that runs `process`: bytes may be fed between any two
iterations of the loop. The messages handed to the callback and the samples handed to the latency tracker are read off its log.

The member `state_` is written and never read, and is left out.
-/

namespace MarketFeed

/-! ## Data -/

/-- The payload union of `ParsedMessage`. -/
inductive Payload where
  | trade (p : TradePayload)
  | quote (p : QuotePayload)
  deriving DecidableEq, Repr

/-- `ParsedMessage`. -/
structure ParsedMessage where
  msgType : UInt16
  seqNum : UInt32
  timestampNs : UInt64
  symbolId : UInt16
  recvTimeNs : UInt64
  payload : Payload
  deriving DecidableEq, Repr

/-- `Parser`, over a ring of any capacity. -/
structure Parser (c : Capacity) where
  ring : ByteRingBuffer c
  expectedSeq : UInt32
  seqInitialized : Bool
  scratch : List UInt8
  batchRecvTimeNs : UInt64
  msgsParsed : UInt64
  checksumErrors : UInt64
  sequenceGaps : UInt64
  totalGapSize : UInt64

/-- `RECV_BUF_SIZE`, 8 MB. -/
def recvBufSize : Capacity := ⟨8 * 1024 * 1024, 23, by decide, by decide⟩

/-- What one iteration of the loop of `process` came to. The last three have taken a message off the ring: `window` holds its
bytes. -/
inductive Outcome where
  | unknownType (msgType : UInt16)
  | checksumError (seqNum : UInt32) (symbolId : UInt16)
  | outOfRange (window : List UInt8)
  | heartbeat (window : List UInt8)
  | dispatched (window : List UInt8) (pm : ParsedMessage)
  deriving DecidableEq, Repr

namespace Outcome

/-- The number of bytes the iteration consumed. -/
def size : Outcome → Nat
  | .unknownType _ => 1
  | .checksumError _ _ => 1
  | .outOfRange w => w.length
  | .heartbeat w => w.length
  | .dispatched w _ => w.length

/-- The message handed to the callback, if there is one. -/
def message : Outcome → Option ParsedMessage
  | .dispatched _ pm => some pm
  | _ => none

/-- What the iteration adds to `count`. -/
def counted : Outcome → Nat
  | .heartbeat _ => 1
  | .dispatched _ _ => 1
  | _ => 0

end Outcome

/-! ## Feeding and resetting -/

namespace Parser

variable {c : Capacity}

/-- A new parser. -/
def fresh (c : Capacity) : Parser c where
  ring := ByteRingBuffer.empty c
  expectedSeq := 0
  seqInitialized := false
  scratch := List.replicate (maxMsgSize + 4) 0
  batchRecvTimeNs := 0
  msgsParsed := 0
  checksumErrors := 0
  sequenceGaps := 0
  totalGapSize := 0

/-- `feed`: what the ring does not take is dropped. -/
def feed (p : Parser c) (data : List UInt8) (recvTimeNs : UInt64) : Parser c :=
  { p with batchRecvTimeNs := recvTimeNs, ring := (p.ring.write data).1 }

/-- `reset_stats`. -/
def resetStats (p : Parser c) : Parser c :=
  { p with
    msgsParsed := 0
    checksumErrors := 0
    sequenceGaps := 0
    totalGapSize := 0
    seqInitialized := false
    expectedSeq := 0
    ring := p.ring.reset }

/-! ## Processing -/

/-- Phase 5, sequence gap detection. -/
def detectGap (p : Parser c) (hdr : MsgHeader) : Parser c :=
  let p :=
    if p.seqInitialized then
      if hdr.seqNum ≠ p.expectedSeq then
        if hdr.seqNum > p.expectedSeq then
          let gap := hdr.seqNum - p.expectedSeq
          { p with sequenceGaps := p.sequenceGaps + 1, totalGapSize := p.totalGapSize + gap.toUInt64 }
        else p
      else p
    else { p with seqInitialized := true }
  { p with expectedSeq := hdr.seqNum + 1 }

/-- Phase 7, the message built from the header and the scratch buffer. It is reached for trades and quotes only. -/
def buildMessage (hdr : MsgHeader) (scratch : List UInt8) (recvTimeNs : UInt64) : ParsedMessage where
  msgType := hdr.msgType
  seqNum := hdr.seqNum
  timestampNs := hdr.timestampNs
  symbolId := hdr.symbolId
  recvTimeNs := recvTimeNs
  payload :=
    if hdr.msgType = msgTrade then .trade (TradePayload.ofBytes (scratch.drop headerSize))
    else .quote (QuotePayload.ofBytes (scratch.drop headerSize))

/-- Phases 5 to 7, for a message of `totalSize` bytes that lies verified in the scratch buffer and is consumed. -/
def accept (p : Parser c) (hdr : MsgHeader) (totalSize : Nat) : Parser c × Outcome :=
  let window := p.scratch.take totalSize
  let p := p.detectGap hdr
  if hdr.symbolId ≥ maxSymbols ∧ hdr.msgType ≠ msgHeartbeat then (p, .outOfRange window)
  else if hdr.msgType = msgHeartbeat then ({ p with msgsParsed := p.msgsParsed + 1 }, .heartbeat window)
  else
    let pm := buildMessage hdr p.scratch p.batchRecvTimeNs
    ({ p with msgsParsed := p.msgsParsed + 1 }, .dispatched window pm)

/-- One iteration of the loop of `process`. -/
def iterate (p : Parser c) : Option (Parser c × Outcome) :=
  -- Phase 1: need at least a header
  if p.ring.readable.toNat < headerSize then none
  else
    let hdr := MsgHeader.ofBytes (p.ring.peek headerSize)
    let payloadSize := payloadSizeForType hdr.msgType
    if payloadSize < 0 then some ({ p with ring := p.ring.consume 1 }, .unknownType hdr.msgType)
    else
      let totalSize := headerSize + payloadSize.toNat + checksumSize
      -- Phase 2: need the whole message; the ring is asked again
      if p.ring.readable.toNat < totalSize then none
      else
        let peeked := p.ring.peek totalSize
        let p := { p with scratch := peeked ++ p.scratch.drop peeked.length }
        -- Phase 3: a bad checksum costs one byte
        if !verifyChecksum p.scratch totalSize then
          some ({ p with checksumErrors := p.checksumErrors + 1, ring := p.ring.consume 1 },
            .checksumError hdr.seqNum hdr.symbolId)
        else
          -- Phase 4
          some ({ p with ring := p.ring.consume totalSize }.accept hdr totalSize)

end Parser

/-- The latency sample that `process` records for a dispatched message when the monotonic clock reads `now`: samples of 10 ms
or more are left out. -/
def latencySample (now : UInt64) (pm : ParsedMessage) : Option UInt64 :=
  if pm.timestampNs > 0 then
    let lat := if pm.recvTimeNs > 0 ∧ now ≥ pm.recvTimeNs then now - pm.recvTimeNs else 0
    if lat < 10000000 then some lat else none
  else none

/-! ## The parser and the thread that runs it -/

/-- Where the parse thread is: outside `process`, or at the head of its loop with the local `count`. -/
inductive ProcessPc where
  | idle
  | loop (count : Nat)
  deriving DecidableEq, Repr

/-- The parser, the parse thread, and what it has done so far: the outcome of every iteration, the latency samples and the
values `process` returned. -/
structure ParserSys (c : Capacity) where
  parser : Parser c
  pc : ProcessPc
  outcomes : List Outcome
  samples : List UInt64
  returned : List Nat

/-- `feed` is the network thread's; `call` enters `process` and `iterate` runs its loop body once, with the reading of the
monotonic clock that the body takes when it dispatches. -/
inductive ParserEvent where
  | feed (data : List UInt8) (recvTimeNs : UInt64)
  | call
  | iterate (now : UInt64)
  deriving DecidableEq, Repr

namespace ParserSys

variable {c : Capacity}

def init (c : Capacity) : ParserSys c :=
  { parser := Parser.fresh c, pc := .idle, outcomes := [], samples := [], returned := [] }

/-- One step of the two threads. -/
def step (s : ParserSys c) : ParserEvent → Option (ParserSys c)
  | .feed data t => some { s with parser := s.parser.feed data t }
  | .call =>
    match s.pc with
    | .idle => some { s with pc := .loop 0 }
    | .loop _ => none
  | .iterate now =>
    match s.pc with
    | .idle => none
    | .loop count =>
      match s.parser.iterate with
      | none => some { s with pc := .idle, returned := s.returned ++ [count] }
      | some (p, o) =>
        some { s with
          parser := p
          pc := .loop (count + o.counted)
          outcomes := s.outcomes ++ [o]
          samples := s.samples ++ (o.message.bind (latencySample now)).toList }

/-- The messages handed to the callback, in order. -/
def dispatched (s : ParserSys c) : List ParsedMessage := s.outcomes.filterMap Outcome.message

/-- Outcomes with the offset in the consumed stream at which each starts. -/
def place : Nat → List Outcome → List (Nat × Outcome)
  | _, [] => []
  | off, o :: os => (off, o) :: place (off + o.size) os

/-- The messages handed to the callback, each with the offsets in the stream where its bytes start and end. -/
def dispatchedAt (s : ParserSys c) : List (Nat × Nat × ParsedMessage) :=
  (place 0 s.outcomes).filterMap fun x => x.2.message.map fun pm => (x.1, x.1 + x.2.size, pm)

/-- A `feed` that does not find less room than it has bytes. -/
def FeedFits (s : ParserSys c) : ParserEvent → Prop
  | .feed data _ => data.length ≤ s.parser.ring.writable.toNat
  | _ => True

instance (s : ParserSys c) : (e : ParserEvent) → Decidable (s.FeedFits e)
  | .feed data _ => inferInstanceAs (Decidable (data.length ≤ s.parser.ring.writable.toNat))
  | .call => isTrue trivial
  | .iterate _ => isTrue trivial

/-- No `feed` of the run overflows the ring. -/
def NoOverflow : ParserSys c → List ParserEvent → Prop := Run.Along step FeedFits

instance (s : ParserSys c) (es : List ParserEvent) : Decidable (s.NoOverflow es) :=
  inferInstanceAs (Decidable (Run.Along step FeedFits s es))

end ParserSys

/-- The bytes that a run feeds, in order. -/
def fedBytes (es : List ParserEvent) : List UInt8 :=
  es.flatMap fun e =>
    match e with
    | .feed data _ => data
    | _ => []

end MarketFeed
