import MarketFeed.ExchangeSimulator
import MarketFeed.Xoshiro

/-!
# The price processes

`TickGenerator` of `src/server/tick_generator.cpp`: the price processes of the symbols and the random numbers that drive them; and
`tick_loop` as it calls it, with the fields of `ExchangeSimulator` that both use (`TickThread`). What a tick makes of prices and random
numbers, which `TickLoop` leaves open, is all here.

A `double` is any type with the operations that the code uses (`Doubles`); nothing is assumed of them, but each is evaluated by itself, as
the source writes it (no two of them are contracted into one). A `generate_tick` whose loop in
`box_muller` has not ended after `fuel` draws is no step.
-/

namespace MarketFeed

/-- The operations on `double` that the generator uses; `ulp` is `0x1.0p-53`. -/
class Doubles (D : Type) extends Add D, Sub D, Mul D, Div D, Neg D, OfScientific D where
  ofUInt64 : UInt64 → D
  toUInt32 : D → UInt32
  toBits : D → UInt64
  lt : D → D → Bool
  isFinite : D → Bool
  sqrt : D → D
  exp : D → D
  log : D → D
  cos : D → D
  sin : D → D
  round : D → D
  abs : D → D
  pi : D
  ulp : D

/-- The `double` of Lean. -/
instance : Doubles Float where
  ofUInt64 := UInt64.toFloat
  toUInt32 := Float.toUInt32
  toBits := Float.toBits
  lt a b := decide (a < b)
  isFinite := Float.isFinite
  sqrt := Float.sqrt
  exp := Float.exp
  log := Float.log
  cos := Float.cos
  sin := Float.sin
  round := Float.round
  abs := Float.abs
  pi := 3.14159265358979323846
  ulp := 1.1102230246251565e-16

open Doubles

variable {D : Type} [Doubles D]

/-- `std::max` of two doubles. -/
def maxDouble (a b : D) : D := if lt a b then b else a

/-! ## Random numbers -/

/-- A result of `uniform01`, from its mantissa. -/
def ofMantissa (mantissa : UInt64) : D := ofUInt64 mantissa * ulp

/-- `NormalPair`. -/
structure NormalPair (D : Type) where
  z0 : D
  z1 : D

/-- `box_muller`. -/
def boxMuller (fuel : Nat) (rng : Xoshiro256pp) : Option (NormalPair D × Xoshiro256pp) :=
  (rng.drawU1 fuel).map fun (u1, rng) =>
    let (u2, rng) := rng.uniform01
    let mag : D := sqrt (-2.0 * log (ofMantissa u1))
    ({ z0 := mag * cos (2.0 * pi * ofMantissa u2), z1 := mag * sin (2.0 * pi * ofMantissa u2) }, rng)

/-! ## Processes -/

/-- `TICK_SIZE`. -/
def tickSize : D := 0.05

/-- `round_tick`. -/
def roundTick (price : D) : D := round (price / tickSize) * tickSize

/-- `SymbolProcess`. -/
structure SymbolProcess (D : Type) where
  symbolId : UInt16
  price : D
  initialPrice : D
  mu : D
  sigma : D
  spreadPct : D

namespace SymbolProcess

/-- The body of the constructor's loop. -/
def new (i : Nat) (rng : Xoshiro256pp) : SymbolProcess D × Xoshiro256pp :=
  let (u, rng) := rng.uniform01
  let initialPrice : D := 100.0 + ofMantissa u * 4900.0
  let (u, rng) := rng.uniform01
  let mu : D := (ofMantissa u - 0.5) * 0.04
  let (u, rng) := rng.uniform01
  let sigma : D := 0.01 + ofMantissa u * 0.05
  let (u, rng) := rng.uniform01
  let spreadPct : D := 0.0005 + ofMantissa u * 0.0015
  ({ symbolId := UInt16.ofNat i, price := roundTick initialPrice, initialPrice, mu, sigma, spreadPct }, rng)

/-- The processes of the symbols from `i` on. -/
def newFrom : Nat → Nat → Xoshiro256pp → List (SymbolProcess D)
  | _, 0, _ => []
  | i, k + 1, rng =>
    let (p, rng) := new i rng
    p :: newFrom (i + 1) k rng

/-- The price after a time `dt`, with the floor guard. -/
def move (proc : SymbolProcess D) (dt eps : D) : SymbolProcess D :=
  let exponent := (proc.mu - 0.5 * proc.sigma * proc.sigma) * dt + proc.sigma * eps * sqrt dt
  let newPrice := proc.price * exp exponent
  { proc with price := if lt newPrice 1.0 || !isFinite newPrice then proc.initialPrice else newPrice }

end SymbolProcess

/-- `TickGenerator`. -/
structure TickGenerator (D : Type) where
  processes : List (SymbolProcess D)
  rng : Xoshiro256pp
  tickRate : UInt32
  hasSpareNormal : Bool
  spareNormal : D

namespace TickGenerator

/-- The constructor. -/
def new (numSymbols : Nat) (seed : UInt64) : TickGenerator D where
  processes := SymbolProcess.newFrom 0 numSymbols (.ofSeed (seed ^^^ 0xabcdef1234567890))
  rng := .ofSeed seed
  tickRate := 100000
  hasSpareNormal := false
  spareNormal := 0.0

/-- `next_normal`. -/
def nextNormal (fuel : Nat) (g : TickGenerator D) : Option (D × TickGenerator D) :=
  if g.hasSpareNormal then some (g.spareNormal, { g with hasSpareNormal := false })
  else
    (boxMuller fuel g.rng).map fun (pair, rng) =>
      (pair.z0, { g with rng := rng, spareNormal := pair.z1, hasSpareNormal := true })

/-- `rng_.uniform01()`. -/
def uniform01 (g : TickGenerator D) : D × TickGenerator D :=
  let (mantissa, rng) := g.rng.uniform01
  (ofMantissa mantissa, { g with rng := rng })

/-- A quantity drawn from a log-normal distribution. -/
def volume (lvEps : D) : UInt32 := toUInt32 (maxDouble 1.0 (exp (6.21 + 0.8 * lvEps)))

/-- The branch of `generate_tick` for a quote, to the callback of `emit_quote`. -/
def generateQuote (fuel : Nat) (g : TickGenerator D) (proc : SymbolProcess D) (eps : D) (seqNum : UInt32) (nowNs : UInt64) :
    Option (TickGenerator D × List UInt8) :=
  let spreadEff := if lt 2.0 (abs eps) then proc.spreadPct * 1.5 else proc.spreadPct
  let half := proc.price * spreadEff / 2.0
  let bid := roundTick (proc.price - half)
  let ask := roundTick (proc.price + half)
  let ask := if lt (ask - bid) tickSize then bid + tickSize else ask
  (g.nextNormal fuel).bind fun (lvEps, g) =>
    let bidQty := volume lvEps
    (g.nextNormal fuel).map fun (lvEps, g) =>
      let askQty := volume lvEps
      (g, emitQuote proc.symbolId seqNum nowNs ⟨toBits bid, bidQty, toBits ask, askQty⟩)

/-- The branch for a trade, to the callback of `emit_trade`. -/
def generateTrade (fuel : Nat) (g : TickGenerator D) (proc : SymbolProcess D) (eps : D) (seqNum : UInt32) (nowNs : UInt64) :
    Option (TickGenerator D × List UInt8) :=
  let spreadEff := proc.spreadPct
  let half := proc.price * spreadEff / 2.0
  let (u, g) := g.uniform01
  let tradePrice := roundTick (proc.price + (u - 0.5) * half * 2.0)
  (g.nextNormal fuel).map fun (lvEps, g) =>
    let qty := volume lvEps
    let qty := if lt 1.5 (abs eps) then toUInt32 (ofUInt64 qty.toUInt64 * (1.0 + abs eps - 1.5)) else qty
    let qty := min qty 1000000
    (g, emitTrade proc.symbolId seqNum nowNs ⟨toBits tradePrice, qty⟩)

/-- `generate_tick`, with what it hands to the callback: nothing for a symbol that is not there. -/
def generateTick (fuel : Nat) (g : TickGenerator D) (symbolId : UInt16) (seqNum : UInt32) (nowNs : UInt64) :
    Option (TickGenerator D × List (List UInt8)) :=
  match g.processes[symbolId.toNat]? with
  | none => some (g, [])
  | some proc =>
    let dt : D := 1.0 / ofUInt64 (max 1 (g.tickRate / UInt32.ofNat g.processes.length)).toUInt64
    (g.nextNormal fuel).bind fun (eps, g) =>
      let proc := proc.move dt eps
      let g := { g with processes := g.processes.set symbolId.toNat proc }
      let (r, g) := g.uniform01
      -- 70% quotes, 30% trades
      let emitted :=
        if lt r 0.70 then g.generateQuote fuel proc eps seqNum nowNs else g.generateTrade fuel proc eps seqNum nowNs
      emitted.map fun (g, msg) => (g, [msg])

end TickGenerator

/-! ## The tick thread -/

/-- The generator and the fields of `ExchangeSimulator` that `tick_loop` uses, its locals, and what its callback has handed to
`broadcast`. -/
structure TickThread (D : Type) where
  tickGen : TickGenerator D
  running : Bool
  tickRate : UInt32
  faultInjection : Bool
  ticksGenerated : UInt64
  msgsBroadcast : UInt64
  lastHeartbeatNs : UInt64
  numSymbols : UInt32
  symbolIdx : UInt32
  seq : UInt32
  pc : TickLoopPc
  broadcast : List (List UInt8)

/-- The steps: `stop`, `set_tick_rate` and `enable_fault_injection` from outside; the start of a batch, a tick, and the end of a batch. -/
inductive TickThreadEvent where
  | stop
  | setTickRate (tps : UInt32)
  | enableFaultInjection (enable : Bool)
  | batch
  | tick (fuel : Nat) (nowNs : UInt64)
  | endBatch (now nowNs : UInt64)
  deriving DecidableEq, Repr

namespace TickThread

/-- `start`, on a simulator that has been constructed with so many symbols. -/
def init (numSymbols : Nat) (seed : UInt64) : TickThread D :=
  let tickGen : TickGenerator D := .new numSymbols seed
  { tickGen
    running := true
    tickRate := 100000
    faultInjection := false
    ticksGenerated := 0
    msgsBroadcast := 0
    lastHeartbeatNs := 0
    numSymbols := UInt32.ofNat tickGen.processes.length
    symbolIdx := 0
    seq := 0
    pc := .head
    broadcast := [] }

/-- The callback that `start` sets, for each of some messages. -/
def callback (s : TickThread D) (msgs : List (List UInt8)) : TickThread D :=
  { s with broadcast := s.broadcast ++ msgs, msgsBroadcast := s.msgsBroadcast + UInt64.ofNat msgs.length }

/-- The body of the batch loop. -/
def tick (s : TickThread D) (fuel : Nat) (nowNs : UInt64) : Option (TickThread D) :=
  let seq := if s.faultInjection && s.seq % 100 = 99 then s.seq + 2 else s.seq
  let sym := (s.symbolIdx % s.numSymbols).toUInt16
  (s.tickGen.generateTick fuel sym seq nowNs).map fun (tickGen, msgs) =>
    { s.callback msgs with
      tickGen := tickGen
      seq := seq + 1
      ticksGenerated := s.ticksGenerated + 1
      symbolIdx := s.symbolIdx + 1 }

/-- The heartbeat behind a batch. -/
def heartbeat (s : TickThread D) (now nowNs : UInt64) : TickThread D :=
  if now - s.lastHeartbeatNs ≥ 1000000000 then
    { s.callback [generateHeartbeat 0 s.seq nowNs] with seq := s.seq + 1, lastHeartbeatNs := now }
  else s

/-- A step. -/
def step (s : TickThread D) : TickThreadEvent → Option (TickThread D)
  | .stop => some { s with running := false }
  | .setTickRate tps => some { s with tickRate := tps, tickGen := { s.tickGen with tickRate := tps } }
  | .enableFaultInjection enable => some { s with faultInjection := enable }
  | .batch =>
    match s.pc with
    | .head =>
      if s.running then
        let rate := if s.tickRate = 0 then 1 else s.tickRate
        some { s with pc := .batch 0 (max 1 (rate / 100)) }
      else none
    | .batch _ _ => none
  | .tick fuel nowNs =>
    match s.pc with
    | .batch b batchSize =>
      if b < batchSize ∧ s.running then (s.tick fuel nowNs).map fun s => { s with pc := .batch (b + 1) batchSize } else none
    | .head => none
  | .endBatch now nowNs =>
    match s.pc with
    | .batch b batchSize =>
      if b < batchSize ∧ s.running then none else some { s.heartbeat now nowNs with pc := .head }
    | .head => none

end TickThread

end MarketFeed
