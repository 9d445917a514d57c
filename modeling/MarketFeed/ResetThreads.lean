import MarketFeed.Parser
import MarketFeed.RingThreads

/-!
# The ring buffer, its two threads, and a third that resets it

As `FeedHandler::start` starts them: the network thread runs `Parser::feed`, that is `write`; the parse thread runs
`Parser::process`; and the thread in `FeedHandler::run` may call `reset_stats` at any time, which stores 0 to `read_pos_` and then to
`write_pos_`. The steps of `write`, `readable` and `peek` are those of `RingSys`. Here the parse thread does not call them freely: it
calls what `process` calls, and `consume` adds what `process` decided before, whatever has become of the positions since.

Of `process` this is the part that touches the ring. What it does with a message it has taken off is in `Parser.accept`.
-/

namespace MarketFeed

variable {c : Capacity}

/-! ## Data -/

/-- The size of a message of a known type, as `process` adds it up. -/
def messageSize (msgType : UInt16) : Nat := headerSize + (payloadSizeForType msgType).toNat + checksumSize

/-- Where `process` is: outside, or at the call of the ring it is in or has just come back from. -/
inductive ProcessStage where
  | outside
  | needHeader
  | peekHeader
  | needMessage (msgType : UInt16)
  | peekMessage (msgType : UInt16)
  deriving DecidableEq

/-- Where the thread of `FeedHandler::run` is in `reset`. -/
inductive ResetPc where
  | idle
  | betweenStores
  deriving DecidableEq

/-- What `process` looked at: how many bytes it took to be there, the bytes that `peek` copied, and the bytes that had been written
and not consumed. -/
structure Look where
  wanted : Nat
  copied : List UInt8
  waiting : List UInt8
  deriving DecidableEq

/-- The bytes that `process` looked at are written ones, the oldest not consumed. -/
def Look.Written (l : Look) : Prop := l.copied.length = l.wanted ∧ l.copied <+: l.waiting

/-- The ring with its two threads, where `process` is, the destination of its last `peek`, `scratch_`, where `reset` is, and the record
of what `process` looked at. The bytes accepted and consumed are counted from the last reset on. -/
structure ResetSys (c : Capacity) where
  sys : RingSys c
  stage : ProcessStage
  dst : List UInt8
  scratch : List UInt8
  ui : ResetPc
  looks : List Look

/-- The steps of the parse thread: inside a call of the ring, a load; between two calls, what `process` does until the next one.
`uninit` are the bytes of the local header before `peek` has filled it. -/
inductive ParseEvent where
  | loadWritePos
  | loadReadPos
  | loadByte
  | resume (uninit : List UInt8)
  deriving DecidableEq

/-- The two stores of `reset`. -/
inductive UiEvent where
  | storeReadPos
  | storeWritePos
  deriving DecidableEq

/-- A step of one of the three threads. -/
inductive ResetEvent where
  | network (e : ProducerEvent)
  | parse (e : ParseEvent)
  | ui (e : UiEvent)
  deriving DecidableEq

namespace ResetSys

/-- Before the threads start. -/
def init (c : Capacity) : ResetSys c :=
  { sys := .init c, stage := .outside, dst := [], scratch := List.replicate (maxMsgSize + 4) 0, ui := .idle, looks := [] }

/-! ## The parse thread -/

/-- What the last `readable` returned. -/
def lastReadable (s : ResetSys c) : UInt64 := s.sys.readables.getLast?.getD 0

/-- `process` goes on to a call of the ring. -/
def call (s : ResetSys c) (stage : ProcessStage) (call : ConsumerCall) : ResetSys c :=
  { s with stage := stage, dst := [], sys := { s.sys with consumer := .sizing call none none } }

/-- `consume(n)`: the addition is made whatever is in the ring. -/
def consume (s : ResetSys c) (n : Nat) : ResetSys c :=
  { s with
    sys := { s.sys with
      ring := s.sys.ring.consume n
      peeked := s.sys.peeked.drop n
      consumed := s.sys.consumed ++ s.sys.peeked.take n } }

/-- The record of what `peek` has copied for `process`. -/
def look (s : ResetSys c) (wanted : Nat) : ResetSys c :=
  { s with looks := s.looks ++ [⟨wanted, s.dst, s.sys.accepted.drop s.sys.consumed.length⟩] }

/-- `process` from a call of the ring that has returned up to the next one. -/
def resume (s : ResetSys c) (uninit : List UInt8) : ResetSys c :=
  match s.stage with
  | .outside => s.call .needHeader .readable
  | .needHeader =>
    if s.lastReadable.toNat < headerSize then { s with stage := .outside }
    else s.call .peekHeader (.peek headerSize)
  | .peekHeader =>
    let hdr := MsgHeader.ofBytes (s.dst ++ uninit.drop s.dst.length)
    if payloadSizeForType hdr.msgType < 0 then ((s.look headerSize).consume 1).call .needHeader .readable
    else (s.look headerSize).call (.needMessage hdr.msgType) .readable
  | .needMessage msgType =>
    if s.lastReadable.toNat < messageSize msgType then { s with stage := .outside }
    else s.call (.peekMessage msgType) (.peek (messageSize msgType))
  | .peekMessage msgType =>
    let scratch := s.dst ++ s.scratch.drop s.dst.length
    let s := { s.look (messageSize msgType) with scratch := scratch }
    if !verifyChecksum scratch (messageSize msgType) then (s.consume 1).call .needHeader .readable
    else (s.consume (messageSize msgType)).call .needHeader .readable

/-- A step of the parse thread. -/
def parseStep (s : ResetSys c) : ParseEvent → Option (ResetSys c)
  | .loadWritePos => (s.sys.consumerStep .loadWritePos).map fun t => { s with sys := t }
  | .loadReadPos => (s.sys.consumerStep .loadReadPos).map fun t => { s with sys := t }
  | .loadByte =>
    match s.sys.consumer with
    | .copying _ len rp dst =>
      let b := s.sys.ring.buf (copySlot c rp len dst.length)
      (s.sys.consumerStep .loadByte).map fun t => { s with sys := t, dst := dst ++ [b] }
    | _ => none
  | .resume uninit => if s.sys.consumer = .idle then some (s.resume uninit) else none

/-! ## The other two -/

/-- A step of the network thread. -/
def networkStep (s : ResetSys c) (e : ProducerEvent) : Option (ResetSys c) :=
  (s.sys.producerStep e).map fun t => { s with sys := t }

/-- A step of the thread that resets. With the second store the count of the bytes starts again. -/
def uiStep (s : ResetSys c) : UiEvent → Option (ResetSys c)
  | .storeReadPos =>
    match s.ui with
    | .idle => some { s with sys := { s.sys with ring := { s.sys.ring with readPos := 0 } }, ui := .betweenStores }
    | .betweenStores => none
  | .storeWritePos =>
    match s.ui with
    | .idle => none
    | .betweenStores =>
      some { s with
        sys := { s.sys with ring := { s.sys.ring with writePos := 0 }, reports := [], peeked := [], consumed := [] }
        ui := .idle }

/-- A step of one of the three threads. -/
def step (s : ResetSys c) : ResetEvent → Option (ResetSys c)
  | .network e => s.networkStep e
  | .parse e => s.parseStep e
  | .ui e => s.uiStep e

end ResetSys

end MarketFeed
