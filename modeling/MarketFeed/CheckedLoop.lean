import MarketFeed.ExchangeSimulator

/-!
# The arithmetic of the tick loop

The options of `src/server/main.cpp` that reach `tick_loop`, and the loop once more with its divisions checked and its rate limiting:
the remainder by the number of symbols, the division by the rate, the time that a batch should take, and the `timespec` handed to
`clock_nanosleep`. The loop itself is `TickLoop`.
-/

namespace MarketFeed

/-! ## Options -/

/-- What `main` passes on: the number of symbols, which it caps, and the tick rate, which is any `uint32_t`. -/
structure TickConfig where
  numSymbols : UInt32
  le : numSymbols ≤ maxSymbols.toUInt32
  tickRate : UInt32

/-- `DEFAULT_SYMBOLS`. -/
def defaultSymbols : UInt32 := 100

/-- An option of the command line, with what `atoi` makes of its argument. -/
inductive ServerOption where
  | s (value : Int32)
  | r (value : Int32)
  deriving DecidableEq, Repr

/-- Before the options are read. -/
def TickConfig.initial : TickConfig := { numSymbols := defaultSymbols, le := by decide, tickRate := 100000 }

/-- The cap on the number of symbols. -/
def capSymbols (n : UInt32) : UInt32 := if n > maxSymbols.toUInt32 then maxSymbols.toUInt32 else n

theorem capSymbols_le (n : UInt32) : capSymbols n ≤ maxSymbols.toUInt32 := by
  unfold capSymbols
  split <;> rename_i h
  · exact UInt32.le_refl _
  · exact UInt32.not_lt.mp h

/-- One option. -/
def TickConfig.option (c : TickConfig) : ServerOption → TickConfig
  | .s value => { c with numSymbols := capSymbols value.toUInt32, le := capSymbols_le _ }
  | .r value => { c with tickRate := value.toUInt32 }

/-- The options that `main` reads. -/
def mainConfig (options : List ServerOption) : TickConfig := options.foldl TickConfig.option .initial

/-! ## The loop -/

namespace TickConfig

theorem one_pos : (0 : UInt32) < 1 := by decide

theorem one_le_maxSymbols : (1 : UInt32) ≤ maxSymbols.toUInt32 := by decide

/-- The symbols of the generator. Without any, no tick gets as far as the generator, and the symbol here stands for nothing. -/
def symbols (c : TickConfig) : NumSymbols :=
  if h : c.numSymbols = 0 then { val := 1, pos := one_pos, le := one_le_maxSymbols }
  else { val := c.numSymbols, pos := UInt32.pos_iff_ne_zero.mpr h, le := c.le }

/-- `rate` in the loop. -/
def rate (c : TickConfig) : UInt32 := if c.tickRate = 0 then 1 else c.tickRate

/-- `ns_per_tick`. -/
def nsPerTick (c : TickConfig) : UInt64 := 1000000000 / c.rate.toUInt64

/-- `batch_size`. -/
def batchSize (c : TickConfig) : UInt32 := max 1 (c.rate / 100)

/-- `expected`. -/
def expected (c : TickConfig) : UInt64 := c.nsPerTick * c.batchSize.toUInt64

end TickConfig

/-- Arithmetic that is not defined. -/
inductive ArithmeticFault where
  | divisionByZero
  | remainderByZero
  deriving DecidableEq, Repr

/-- The loop with the clock reading at the start of the batch, and for the record what it passed on: for each call of `generate_tick`
the symbol id and the number of messages that came of it, and the `tv_nsec` of each sleep. -/
structure CheckedLoop (c : TickConfig) where
  loop : TickLoop c.symbols
  batchStart : UInt64
  ticks : List (UInt16 × Nat)
  sleeps : List UInt64

/-- The steps of `TickEvent`, with the readings of the monotonic clock around a batch. -/
inductive CheckedEvent where
  | stop
  | batch (batchStart : UInt64)
  | tick (fault : Bool) (draw : Draw) (nowNs : UInt64)
  | endBatch (now nowNs batchEnd : UInt64)

namespace CheckedLoop

variable {c : TickConfig}

def init (c : TickConfig) : CheckedLoop c := { loop := .init _, batchStart := 0, ticks := [], sleeps := [] }

/-- The rate limiting: a sleep for the rest of the time that the batch should take. -/
def limit (s : CheckedLoop c) (batchEnd : UInt64) : CheckedLoop c :=
  let elapsed := batchEnd - s.batchStart
  if elapsed < c.expected then { s with sleeps := s.sleeps ++ [c.expected - elapsed] } else s

/-- A step of the loop, or a `stop` from outside. Nothing follows undefined arithmetic, and the clock does not run backwards. -/
def step : Except ArithmeticFault (CheckedLoop c) → CheckedEvent → Option (Except ArithmeticFault (CheckedLoop c))
  | .error _, _ => none
  | .ok s, .stop => (s.loop.step .stop).map fun l => .ok { s with loop := l }
  | .ok s, .batch batchStart => (s.loop.step (.batch c.tickRate)).map fun l =>
      if c.rate = 0 then .error .divisionByZero else .ok { s with loop := l, batchStart }
  | .ok s, .tick fault draw nowNs => (s.loop.step (.tick fault draw nowNs)).map fun l =>
      if c.numSymbols = 0 then .error .remainderByZero
      else
        let sym := (s.loop.symbolIdx % c.numSymbols).toUInt16
        .ok { s with loop := l, ticks := s.ticks ++ [(sym, l.emitted.length - s.loop.emitted.length)] }
  | .ok s, .endBatch now nowNs batchEnd =>
      if batchEnd < s.batchStart then none
      else (s.loop.step (.endBatch now nowNs)).map fun l => .ok ({ s with loop := l }.limit batchEnd)

end CheckedLoop

end MarketFeed
