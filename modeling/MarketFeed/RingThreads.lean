import MarketFeed.Lib.Run
import MarketFeed.RingBuffer

/-!
# The ring buffer between two threads

The calls of `ByteRingBuffer` cut into the steps that touch shared memory: a load of a position, the copy of one byte, the
addition to a position. The network thread is the producer and runs `write`; the parse thread is the consumer and runs
`readable`, `peek`, `consume` and `read`. A run is any interleaving of their steps.

In `writable` and `readable` the two positions are operands of one subtraction, so they may be loaded in either order, and other
steps may come between the two loads.
-/

namespace MarketFeed

variable {c : Capacity}

/-- A finished `write`: the bytes passed, the free space when it loaded `read_pos_`, and what it returned. -/
structure WriteReport where
  src : List UInt8
  free : Nat
  returned : Nat
  deriving DecidableEq

/-- Where the producer is in `write`. `free` records the free space at the load of `read_pos_`; the code does not look at it. -/
inductive ProducerPc where
  | idle
  | sizing (src : List UInt8) (wp rp : Option UInt64) (free : Nat)
  | locating (src : List UInt8) (len free : Nat)
  | copying (src : List UInt8) (len free wp i : Nat)
  deriving DecidableEq

/-- The consumer's calls that start with `readable`. -/
inductive ConsumerCall where
  | readable
  | peek (len : Nat)
  | read (len : Nat)
  deriving DecidableEq

/-- Where the consumer is in its call. -/
inductive ConsumerPc where
  | idle
  | sizing (call : ConsumerCall) (wp rp : Option UInt64)
  | locating (call : ConsumerCall) (len : Nat)
  | copying (call : ConsumerCall) (len rp : Nat) (dst : List UInt8)
  | consuming (dst : List UInt8)
  deriving DecidableEq

/-- The ring buffer, its two threads, and the record of what they did: the finished `write`s, the longest run of bytes that
`peek` copied out and no `consume` has passed yet, the bytes consumed, and the results of `readable`. -/
structure RingSys (c : Capacity) where
  ring : ByteRingBuffer c
  producer : ProducerPc
  consumer : ConsumerPc
  reports : List WriteReport
  peeked : List UInt8
  consumed : List UInt8
  readables : List UInt64

/-- The steps of the producer. -/
inductive ProducerEvent where
  | write (src : List UInt8)
  | loadWritePos
  | loadReadPos
  | storeByte
  | publish
  deriving DecidableEq

/-- The steps of the consumer. -/
inductive ConsumerEvent where
  | call (call : ConsumerCall)
  | consume (n : Nat)
  | loadWritePos
  | loadReadPos
  | loadByte
  | publish
  deriving DecidableEq

/-- A step of either thread. -/
inductive RingEvent where
  | producer (e : ProducerEvent)
  | consumer (e : ConsumerEvent)
  deriving DecidableEq

/-- The slot of the `i`-th byte of a copy of `len` bytes that starts in slot `start`, split at the end of the buffer. -/
def copySlot (c : Capacity) (start len i : Nat) : Nat :=
  let tail := c.val - start
  if len ≤ tail then start + i else if i < tail then start + i else i - tail

/-- The store of one byte. -/
def ByteRingBuffer.store (r : ByteRingBuffer c) (slot : Nat) (b : UInt8) : ByteRingBuffer c :=
  { r with buf := Function.update r.buf slot b }

@[simp] theorem ByteRingBuffer.store_buf (r : ByteRingBuffer c) (slot : Nat) (b : UInt8) :
    (r.store slot b).buf = Function.update r.buf slot b := rfl

/-- `write_pos_.fetch_add(len)`. -/
def ByteRingBuffer.publish (r : ByteRingBuffer c) (len : Nat) : ByteRingBuffer c :=
  { r with writePos := r.writePos + UInt64.ofNat len }

namespace RingSys

/-- Before the threads start. -/
def init (c : Capacity) : RingSys c :=
  { ring := .empty c, producer := .idle, consumer := .idle, reports := [], peeked := [], consumed := [], readables := [] }

/-- The concatenation of the prefixes that `write` reported as accepted. -/
def accepted (s : RingSys c) : List UInt8 := s.reports.flatMap (fun r => r.src.take r.returned)

/-! ## The producer -/

/-- `write` after a load of `writable`: with both positions there, the length is cut to the free space. -/
def sized (s : RingSys c) (src : List UInt8) (wp rp : Option UInt64) (free : Nat) : RingSys c :=
  match wp, rp with
  | some w, some r =>
    let avail := (UInt64.ofNat c.val - (w - r)).toNat
    let len := if src.length > avail then avail else src.length
    if len = 0 then { s with producer := .idle, reports := s.reports ++ [⟨src, free, 0⟩] }
    else { s with producer := .locating src len free }
  | _, _ => { s with producer := .sizing src wp rp free }

/-- A step of the producer. -/
def producerStep (s : RingSys c) : ProducerEvent → Option (RingSys c)
  | .write src =>
    match s.producer with
    | .idle => some { s with producer := .sizing src none none 0 }
    | _ => none
  | .loadWritePos =>
    match s.producer with
    | .sizing src none rp free => some (s.sized src (some s.ring.writePos) rp free)
    | .locating src len free =>
      some { s with producer := .copying src len free (s.ring.writePos &&& c.mask).toNat 0 }
    | _ => none
  | .loadReadPos =>
    match s.producer with
    | .sizing src wp none _ => some (s.sized src wp (some s.ring.readPos) (c.val - s.ring.readable.toNat))
    | _ => none
  | .storeByte =>
    match s.producer with
    | .copying src len free wp i =>
      if i < len then
        let slot := copySlot c wp len i
        some { s with
          ring := s.ring.store slot (src[i]?.getD 0)
          producer := .copying src len free wp (i + 1) }
      else none
    | _ => none
  | .publish =>
    match s.producer with
    | .copying src len free _ i =>
      if i = len then
        some { s with
          ring := s.ring.publish len
          producer := .idle
          reports := s.reports ++ [⟨src, free, len⟩] }
      else none
    | _ => none

/-! ## The consumer -/

/-- The end of `peek`, on its own or inside `read`. -/
def peekDone (s : RingSys c) (call : ConsumerCall) (dst : List UInt8) : RingSys c :=
  match call with
  | .read _ => { s with consumer := .consuming dst }
  | _ => { s with consumer := .idle, peeked := if s.peeked.length ≤ dst.length then dst else s.peeked }

/-- A call after a load of `readable`: with both positions there, `readable` returns, and the others cut the length. -/
def counted (s : RingSys c) (call : ConsumerCall) (wp rp : Option UInt64) : RingSys c :=
  match wp, rp with
  | some w, some r =>
    match call with
    | .readable => { s with consumer := .idle, readables := s.readables ++ [w - r] }
    | .peek len | .read len =>
      let avail := (w - r).toNat
      let len := if len > avail then avail else len
      if len = 0 then s.peekDone call [] else { s with consumer := .locating call len }
  | _, _ => { s with consumer := .sizing call wp rp }

/-- A step of the consumer. `consume(n)` is only called for bytes that a `peek` has returned. -/
def consumerStep (s : RingSys c) : ConsumerEvent → Option (RingSys c)
  | .call call =>
    match s.consumer with
    | .idle => some { s with consumer := .sizing call none none }
    | _ => none
  | .consume n =>
    match s.consumer with
    | .idle =>
      if n ≤ s.peeked.length then
        some { s with
          ring := s.ring.consume n
          peeked := s.peeked.drop n
          consumed := s.consumed ++ s.peeked.take n }
      else none
    | _ => none
  | .loadWritePos =>
    match s.consumer with
    | .sizing call none rp => some (s.counted call (some s.ring.writePos) rp)
    | _ => none
  | .loadReadPos =>
    match s.consumer with
    | .sizing call wp none => some (s.counted call wp (some s.ring.readPos))
    | .locating call len => some { s with consumer := .copying call len (s.ring.readPos &&& c.mask).toNat [] }
    | _ => none
  | .loadByte =>
    match s.consumer with
    | .copying call len rp dst =>
      let dst' := dst ++ [s.ring.buf (copySlot c rp len dst.length)]
      if dst'.length = len then some (s.peekDone call dst') else some { s with consumer := .copying call len rp dst' }
    | _ => none
  | .publish =>
    match s.consumer with
    | .consuming dst =>
      some { s with
        ring := s.ring.consume dst.length
        consumer := .idle
        peeked := s.peeked.drop dst.length
        consumed := s.consumed ++ dst }
    | _ => none

/-- A step of either thread. -/
def step (s : RingSys c) : RingEvent → Option (RingSys c)
  | .producer e => s.producerStep e
  | .consumer e => s.consumerStep e

/-- The next store of the producer, if it is at one, does not go into the slot of a byte between the two positions. -/
def NoOverwrite (s : RingSys c) : Prop :=
  ∀ src len free wp i, s.producer = .copying src len free wp i → i < len →
    ∀ k < s.ring.readable.toNat, copySlot c wp len i ≠ ((s.ring.readPos + UInt64.ofNat k) &&& c.mask).toNat

end RingSys

end MarketFeed
