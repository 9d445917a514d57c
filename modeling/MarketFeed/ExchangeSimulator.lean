import MarketFeed.Lib.Run
import MarketFeed.TickGenerator

/-!
# The tick loop of the exchange

`tick_loop` of `src/server/exchange_simulator.cpp`: batches of ticks, each batch followed by a heartbeat if the last one is a second
ago. Ticks and heartbeats take their numbers from one 32-bit counter; with fault injection on, the counter skips two numbers before
a tick whose number would end in 99. `generate_tick` turns a symbol's price process into a trade or a quote; which one, and with
what prices and quantities, is drawn from a random generator, and is an argument here. Rate limiting is left out.
-/

namespace MarketFeed

/-- The number of symbols of a generator: at least one, and no more than `MAX_SYMBOLS`. -/
structure NumSymbols where
  val : UInt32
  pos : 0 < val
  le : val ≤ maxSymbols.toUInt32

/-- What the price process of a symbol and the random generator come to in a tick. -/
inductive Draw where
  | quote (payload : QuotePayload)
  | trade (payload : TradePayload)
  deriving DecidableEq, Repr

theorem NumSymbols.lt_maxSymbols (n : NumSymbols) {sym : UInt16} (h : sym.toUInt32 < n.val) : sym < maxSymbols := by
  have hle := n.le
  rw [UInt32.lt_iff_toNat_lt, UInt16.toNat_toUInt32] at h
  rw [UInt32.le_iff_toNat_le, UInt16.toNat_toUInt32] at hle
  rw [UInt16.lt_iff_toNat_lt]
  omega

/-- `generate_tick`: nothing for a symbol that is not there. -/
def generateTick (n : NumSymbols) (symbolId : UInt16) (seqNum : UInt32) (nowNs : UInt64) (draw : Draw) : Option Msg :=
  if h : symbolId.toUInt32 < n.val then
    match draw with
    | .quote payload => some (.quote ⟨symbolId, n.lt_maxSymbols h⟩ seqNum nowNs payload)
    | .trade payload => some (.trade ⟨symbolId, n.lt_maxSymbols h⟩ seqNum nowNs payload)
  else none

/-- A message handed to the callback, and for the record whether numbers were skipped just before it. -/
structure Emitted where
  injected : Bool
  msg : Msg
  deriving DecidableEq

/-- Where `tick_loop` is: at the head of its loop, or in a batch with the index `b`. -/
inductive TickLoopPc where
  | head
  | batch (b batchSize : UInt32)
  deriving DecidableEq, Repr

/-- The locals of `tick_loop`, the fields of the simulator that it uses, and the messages emitted. -/
structure TickLoop (n : NumSymbols) where
  running : Bool
  symbolIdx : UInt32
  seq : UInt32
  lastHeartbeatNs : UInt64
  ticksGenerated : UInt64
  pc : TickLoopPc
  emitted : List Emitted

/-- The steps: `stop`; the start of a batch, at a tick rate; a tick, with fault injection on or off at that moment; the end of a
batch, at a reading of the monotonic clock. `nowNs` is the wall clock that goes into the message. -/
inductive TickEvent where
  | stop
  | batch (rate : UInt32)
  | tick (fault : Bool) (draw : Draw) (nowNs : UInt64)
  | endBatch (now nowNs : UInt64)
  deriving DecidableEq

namespace TickLoop

variable {n : NumSymbols}

/-- `start`. -/
def init (n : NumSymbols) : TickLoop n :=
  { running := true, symbolIdx := 0, seq := 0, lastHeartbeatNs := 0, ticksGenerated := 0, pc := .head, emitted := [] }

/-- The body of the batch loop. -/
def tick (s : TickLoop n) (fault : Bool) (draw : Draw) (nowNs : UInt64) : TickLoop n :=
  let injected := fault && s.seq % 100 = 99
  let seq := if injected then s.seq + 2 else s.seq
  let sym := (s.symbolIdx % n.val).toUInt16
  { s with
    emitted := s.emitted ++ ((generateTick n sym seq nowNs draw).map fun m => ⟨injected, m⟩).toList
    seq := seq + 1
    ticksGenerated := s.ticksGenerated + 1
    symbolIdx := s.symbolIdx + 1 }

/-- The heartbeat behind a batch. -/
def heartbeat (s : TickLoop n) (now nowNs : UInt64) : TickLoop n :=
  if now - s.lastHeartbeatNs ≥ 1000000000 then
    { s with
      emitted := s.emitted ++ [⟨false, .heartbeat 0 s.seq nowNs⟩]
      seq := s.seq + 1
      lastHeartbeatNs := now }
  else s

/-- A step of the loop, or a `stop` from outside. -/
def step (s : TickLoop n) : TickEvent → Option (TickLoop n)
  | .stop => some { s with running := false }
  | .batch rate =>
    match s.pc with
    | .head =>
      if s.running then
        let rate := if rate = 0 then 1 else rate
        some { s with pc := .batch 0 (max 1 (rate / 100)) }
      else none
    | .batch _ _ => none
  | .tick fault draw nowNs =>
    match s.pc with
    | .batch b batchSize =>
      if b < batchSize ∧ s.running then some { s.tick fault draw nowNs with pc := .batch (b + 1) batchSize } else none
    | .head => none
  | .endBatch now nowNs =>
    match s.pc with
    | .batch b batchSize =>
      if b < batchSize ∧ s.running then none else some { s.heartbeat now nowNs with pc := .head }
    | .head => none

end TickLoop

namespace ExchangeSimulatorAux

/-- A symbol index taken modulo the number of symbols is a symbol. -/
theorem symbol_lt (n : NumSymbols) (i : UInt32) : (i % n.val).toUInt16.toUInt32 < n.val := by
  have hpos := n.pos
  have hle := n.le
  rw [UInt32.lt_iff_toNat_lt, UInt32.toNat_zero] at hpos
  rw [UInt32.le_iff_toNat_le] at hle
  have h500 : maxSymbols.toUInt32.toNat = 500 := by decide
  have hmod : (i % n.val).toNat < n.val.toNat := by
    rw [UInt32.toNat_mod]
    exact Nat.mod_lt _ hpos
  rw [UInt32.lt_iff_toNat_lt, UInt16.toNat_toUInt32, UInt32.toNat_toUInt16]
  omega

end ExchangeSimulatorAux

/-- How often numbers were skipped between the first and the last of some messages. -/
def injections (es : List Emitted) : Nat := es.tail.countP Emitted.injected

end MarketFeed
