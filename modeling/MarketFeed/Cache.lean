import MarketFeed.Lib.Run
import MarketFeed.Protocol

/-!
# The symbol cache

`SymbolCache` of `src/common/cache.cpp`: an entry per symbol, each a `MarketState` behind a sequence counter. Prices are doubles
that the cache stores, tests for zero and averages, and never looks into otherwise, so they are an opaque type with these
operations (`Prices`).

An update is a list of stores, one per field, in the order in which the code makes them.
-/

namespace MarketFeed

/-- What the cache does with prices: `0.0`, `p == 0.0` and `(bid + ask) * 0.5`. -/
structure Prices (P : Type) where
  zero : P
  isZero : P → Bool
  mid : P → P → P

/-- `MarketState`. -/
structure MarketState (P : Type) where
  bestBid : P
  bestAsk : P
  bidQuantity : UInt32
  askQuantity : UInt32
  lastTradedPrice : P
  lastTradedQuantity : UInt32
  lastUpdateTime : UInt64
  updateCount : UInt64
  openPrice : P
  deriving DecidableEq, Repr

/-- `MarketState{}`. -/
def MarketState.empty {P : Type} (prices : Prices P) : MarketState P :=
  { bestBid := prices.zero, bestAsk := prices.zero, bidQuantity := 0, askQuantity := 0, lastTradedPrice := prices.zero,
    lastTradedQuantity := 0, lastUpdateTime := 0, updateCount := 0, openPrice := prices.zero }

/-! ## Updates -/

/-- A store of the writer to one field. -/
inductive FieldStore (P : Type) where
  | bestBid (p : P)
  | bestAsk (p : P)
  | bidQuantity (q : UInt32)
  | askQuantity (q : UInt32)
  | lastTradedPrice (p : P)
  | lastTradedQuantity (q : UInt32)
  | lastUpdateTime (t : UInt64)
  | updateCount
  | openPrice (p : P)
  deriving DecidableEq, Repr

/-- The state after a store. `open_price` is written only while it is zero. -/
def FieldStore.apply {P : Type} (prices : Prices P) (m : MarketState P) : FieldStore P → MarketState P
  | .bestBid p => { m with bestBid := p }
  | .bestAsk p => { m with bestAsk := p }
  | .bidQuantity q => { m with bidQuantity := q }
  | .askQuantity q => { m with askQuantity := q }
  | .lastTradedPrice p => { m with lastTradedPrice := p }
  | .lastTradedQuantity q => { m with lastTradedQuantity := q }
  | .lastUpdateTime t => { m with lastUpdateTime := t }
  | .updateCount => { m with updateCount := m.updateCount + 1 }
  | .openPrice p => if prices.isZero m.openPrice then { m with openPrice := p } else m

/-- A call of `update_quote` or `update_trade` for the entry. -/
inductive Update (P : Type) where
  | quote (bidPrice : P) (bidQty : UInt32) (askPrice : P) (askQty : UInt32) (tsNs : UInt64)
  | trade (price : P) (qty : UInt32) (tsNs : UInt64)
  deriving DecidableEq, Repr

/-- The stores between `seqlock_write_begin` and `seqlock_write_end`. -/
def Update.stores {P : Type} (prices : Prices P) : Update P → List (FieldStore P)
  | .quote bidPrice bidQty askPrice askQty tsNs =>
    [.bestBid bidPrice, .bestAsk askPrice, .bidQuantity bidQty, .askQuantity askQty, .lastUpdateTime tsNs, .updateCount,
      .openPrice (prices.mid bidPrice askPrice)]
  | .trade price qty tsNs =>
    [.lastTradedPrice price, .lastTradedQuantity qty, .lastUpdateTime tsNs, .updateCount, .openPrice price]

/-- The state after some stores. -/
def applyStores {P : Type} (prices : Prices P) (m : MarketState P) (stores : List (FieldStore P)) : MarketState P :=
  stores.foldl (FieldStore.apply prices) m

/-- The state of an entry after whole updates. -/
def stateAfter {P : Type} (prices : Prices P) (us : List (Update P)) : MarketState P :=
  us.foldl (fun m u => applyStores prices m (u.stores prices)) (.empty prices)

/-! ## The copy of a reader -/

/-- The fields, as the copy `s = e.state` goes through them. -/
inductive Field where
  | bestBid
  | bestAsk
  | bidQuantity
  | askQuantity
  | lastTradedPrice
  | lastTradedQuantity
  | lastUpdateTime
  | updateCount
  | openPrice
  deriving DecidableEq, Repr

/-- The copy of one field. -/
def Field.copy {P : Type} (src dst : MarketState P) : Field → MarketState P
  | .bestBid => { dst with bestBid := src.bestBid }
  | .bestAsk => { dst with bestAsk := src.bestAsk }
  | .bidQuantity => { dst with bidQuantity := src.bidQuantity }
  | .askQuantity => { dst with askQuantity := src.askQuantity }
  | .lastTradedPrice => { dst with lastTradedPrice := src.lastTradedPrice }
  | .lastTradedQuantity => { dst with lastTradedQuantity := src.lastTradedQuantity }
  | .lastUpdateTime => { dst with lastUpdateTime := src.lastUpdateTime }
  | .updateCount => { dst with updateCount := src.updateCount }
  | .openPrice => { dst with openPrice := src.openPrice }

/-- All fields, in the order of the struct. -/
def Field.all : List Field :=
  [.bestBid, .bestAsk, .bidQuantity, .askQuantity, .lastTradedPrice, .lastTradedQuantity, .lastUpdateTime, .updateCount,
    .openPrice]

/-- The copy of some fields. -/
def copyFields {P : Type} (src dst : MarketState P) (fields : List Field) : MarketState P :=
  fields.foldl (fun dst f => f.copy src dst) dst

theorem copyFields_all {P : Type} (src dst : MarketState P) : copyFields src dst Field.all = src := by
  simp only [copyFields, Field.all, List.foldl_cons, List.foldl_nil, Field.copy]

/-! ## One writer and one reader -/

/-- Where the writer is in an update: the counter loaded in `seqlock_write_begin`, the stores still to make, the counter loaded in
`seqlock_write_end`. -/
inductive WriterPc (P : Type) where
  | idle
  | beginning (u : Update P) (seq : UInt32)
  | storing (u : Update P) (rest : List (FieldStore P))
  | ending (u : Update P) (seq : UInt32)
  deriving DecidableEq

/-- Where the reader is in the do-while loop of `get_snapshot`. `continue` goes to `condition`. -/
inductive ReaderPc where
  | idle
  | top
  | test
  | copying (rest : List Field)
  | second
  | condition
  deriving DecidableEq

/-- The locals of `get_snapshot`, and for the record how many updates had been completed when it was called and when it last loaded
`seq1`. -/
structure Reader (P : Type) where
  pc : ReaderPc
  s : MarketState P
  seq1 : UInt32
  seq2 : UInt32
  before : Nat
  at1 : Nat
  deriving DecidableEq

/-- What a call of `get_snapshot` returned, and how many updates had been completed when it was called and when it returned. -/
structure Snapshot (P : Type) where
  state : MarketState P
  before : Nat
  after : Nat
  deriving DecidableEq

/-- An entry with its writer and a reader, the completed updates and the snapshots returned. -/
structure CacheSys (P : Type) where
  seq : UInt32
  state : MarketState P
  writer : WriterPc P
  reader : Reader P
  completed : List (Update P)
  returned : List (Snapshot P)
  deriving DecidableEq

/-- The steps: the call of an update, with its first load; the writer's next step; the call of `get_snapshot`; the reader's next step.
`seq1` and `seq2` are not initialised and start with whatever was on the stack. The `MarketState` is zeroed by its member initialisers;
it is left open here, which adds runs and takes none away. -/
inductive CacheEvent (P : Type) where
  | update (u : Update P)
  | write
  | getSnapshot (s : MarketState P) (seq1 seq2 : UInt32)
  | read

namespace CacheSys

variable {P : Type} (prices : Prices P)

/-- A new entry. -/
def init : CacheSys P :=
  { seq := 0
    state := .empty prices
    writer := .idle
    reader := { pc := .idle, s := .empty prices, seq1 := 0, seq2 := 0, before := 0, at1 := 0 }
    completed := []
    returned := [] }

/-- The next step of the writer. -/
def writeStep (s : CacheSys P) : Option (CacheSys P) :=
  match s.writer with
  | .idle => none
  | .beginning u seq => some { s with seq := seq + 1, writer := .storing u (u.stores prices) }
  | .storing u (f :: rest) => some { s with state := f.apply prices s.state, writer := .storing u rest }
  | .storing u [] => some { s with writer := .ending u s.seq }
  | .ending u seq => some { s with seq := seq + 1, writer := .idle, completed := s.completed ++ [u] }

/-- The next step of the reader. -/
def readStep (s : CacheSys P) : Option (CacheSys P) :=
  match s.reader.pc with
  | .idle => none
  | .top => some { s with reader := { s.reader with seq1 := s.seq, at1 := s.completed.length, pc := .test } }
  | .test =>
    if s.reader.seq1 &&& 1 ≠ 0 then some { s with reader := { s.reader with pc := .condition } }
    else some { s with reader := { s.reader with pc := .copying Field.all } }
  | .copying (f :: rest) =>
    some { s with reader := { s.reader with s := f.copy s.state s.reader.s, pc := .copying rest } }
  | .copying [] => some { s with reader := { s.reader with pc := .second } }
  | .second => some { s with reader := { s.reader with seq2 := s.seq, pc := .condition } }
  | .condition =>
    if s.reader.seq1 ≠ s.reader.seq2 then some { s with reader := { s.reader with pc := .top } }
    else
      some { s with
        reader := { s.reader with pc := .idle }
        returned := s.returned ++ [⟨s.reader.s, s.reader.before, s.completed.length⟩] }

/-- A step of either thread. -/
def step (s : CacheSys P) : CacheEvent P → Option (CacheSys P)
  | .update u =>
    match s.writer with
    | .idle => some { s with writer := .beginning u s.seq }
    | _ => none
  | .write => s.writeStep prices
  | .getSnapshot local1 seq1 seq2 =>
    match s.reader.pc with
    | .idle => some { s with reader := { pc := .top, s := local1, seq1, seq2, before := s.completed.length, at1 := 0 } }
    | _ => none
  | .read => s.readStep

/-- The odd test does not find `seq1` odd and equal to `seq2`, which at that point is left over from the iteration before or, in
the first one, not initialised. -/
def SeqsDiffer (s : CacheSys P) : CacheEvent P → Prop
  | .read => s.reader.pc = .test → s.reader.seq1 &&& 1 ≠ 0 → s.reader.seq1 ≠ s.reader.seq2
  | _ => True

instance (s : CacheSys P) (e : CacheEvent P) : Decidable (s.SeqsDiffer e) :=
  match e with
  | .read => inferInstanceAs (Decidable (s.reader.pc = .test → s.reader.seq1 &&& 1 ≠ 0 → s.reader.seq1 ≠ s.reader.seq2))
  | .update _ => isTrue trivial
  | .write => isTrue trivial
  | .getSnapshot _ _ _ => isTrue trivial

end CacheSys

end MarketFeed
