import MarketFeed.Parser
import MarketFeed.SymbolCache

/-!
# From the parser to the display

The parse thread of the client, whose callback in `FeedHandler` updates the symbol cache, and the thread of the `Visualizer`, which
builds frames from the cache. The network thread may feed the parser, and the user may reset its statistics, at any time between two
iterations of `process`. The stores of an update and the steps of `get_snapshot` are those of `CacheSys`, made on an entry of the cache.

Every index that the code uses into an array is logged before the access. Out of bounds the model reads zero and writes nothing.
What a frame looks like is left out; its accesses are not.
-/

namespace MarketFeed

/-! ## Data -/

/-- What the callback and the display do with prices beside what the cache does: the payload's bytes as a price, and `p > 0.0`. -/
structure DisplayPrices (P : Type) extends Prices P where
  ofBits : UInt64 → P
  isPositive : P → Bool

/-- An array that the code indexes: `entries_` of the cache, `open_price_` and `open_set_` of the visualizer, and the names of the
first symbols in `build_frame`. -/
inductive DisplayArray where
  | entries
  | openPrice
  | openSet
  | nseNames
  deriving DecidableEq, Repr

/-- `TOP_N_SYMBOLS`. -/
def topNSymbols : Nat := 20

/-- The number of names in `nse_names`. -/
def nseNamesSize : Nat := 20

/-- The number of elements of an array, with a cache of so many symbols. -/
def DisplayArray.size (numSymbols : UInt16) : DisplayArray → Nat
  | .entries => numSymbols.toNat
  | .openPrice => maxSymbols.toNat
  | .openSet => maxSymbols.toNat
  | .nseNames => nseNamesSize

/-- `Row` of `build_frame`. -/
structure Row (P : Type) where
  id : UInt16
  state : MarketState P
  deriving DecidableEq

/-- Where the parse thread is in the callback: outside, at the call of an update, or in the update of an entry. -/
inductive CallbackPc (P : Type) where
  | idle
  | called (call : CacheCall P)
  | updating (symbolId : UInt16) (pc : WriterPc P)
  deriving DecidableEq

/-- Where the thread of the visualizer is: between two frames; at the head of the loop over the symbols; in `get_snapshot`; before the
sort; or in the loop over the rows that are left. -/
inductive FramePc (P : Type) where
  | outside
  | scanning (i : UInt16) (rows : List (Row P))
  | snapshot (i : UInt16) (rows : List (Row P)) (reader : Reader P)
  | sorting (rows : List (Row P))
  | rendering (rows : List (Row P))
  deriving DecidableEq

/-- The client from the parser to the display, and all the indices used so far. -/
structure DisplaySys (c : Capacity) (P : Type) where
  parser : ParserSys c
  cache : SymbolCache P
  callback : CallbackPc P
  frame : FramePc P
  openPrice : Vector P maxSymbols.toNat
  openSet : Vector Bool maxSymbols.toNat
  accesses : List (DisplayArray × Nat)

/-- A step: `feed` of the network thread; `reset_stats` by the user; of the parse thread, the call of `process`, an iteration of its
loop, and the next step of the callback; of the visualizer, the next step of `build_frame`, with the uninitialised locals of
`get_snapshot` and the order of the rows that the sort finds. -/
inductive DisplayEvent where
  | feed (data : List UInt8) (recvTimeNs : UInt64)
  | resetStats
  | process
  | iterate (now : UInt64)
  | callback
  | frame (seq1 seq2 : UInt32) (order : List Nat)
  deriving DecidableEq, Repr

/-- The callback that `FeedHandler` sets. -/
def callback {P : Type} (prices : DisplayPrices P) (pm : ParsedMessage) : Option (CacheCall P) :=
  match pm.payload with
  | .quote q =>
    if pm.msgType = msgQuote then
      some (.updateQuote pm.symbolId (prices.ofBits q.bidPrice) q.bidQty (prices.ofBits q.askPrice) q.askQty pm.timestampNs)
    else none
  | .trade t =>
    if pm.msgType = msgTrade then some (.updateTrade pm.symbolId (prices.ofBits t.price) t.quantity pm.timestampNs) else none

namespace DisplaySys

variable {c : Capacity} {P : Type} (prices : DisplayPrices P)

/-- The client before it is connected, with the number of symbols from the command line. -/
def init (c : Capacity) (numSymbols : UInt16) : DisplaySys c P :=
  { parser := .init c
    cache := .new prices.toPrices numSymbols
    callback := .idle
    frame := .outside
    openPrice := Vector.replicate _ prices.zero
    openSet := Vector.replicate _ false
    accesses := [] }

/-- An access to an array. -/
def access (s : DisplaySys c P) (a : DisplayArray) (i : Nat) : DisplaySys c P := { s with accesses := s.accesses ++ [(a, i)] }

/-- An entry of the cache. -/
def entry (s : DisplaySys c P) (i : Nat) : CacheEntry P :=
  if h : i < s.cache.numSymbols.toNat then s.cache.entries[i] else { seq := 0, state := .empty prices.toPrices }

/-- A change of an entry. -/
def setEntry (s : DisplaySys c P) (i : Nat) (e : CacheEntry P) : DisplaySys c P :=
  { s with cache := { s.cache with entries := s.cache.entries.setIfInBounds i e } }

/-! ## The parse thread -/

/-- A call of `process`, or an iteration of its loop. A message that the iteration dispatches is handed to the callback, and the next
iteration waits for it. -/
def processStep (s : DisplaySys c P) (e : ParserEvent) : Option (DisplaySys c P) :=
  match s.callback with
  | .idle =>
    let message := match e with
      | .iterate _ => s.parser.parser.iterate.bind fun x => x.2.message
      | _ => none
    (s.parser.step e).map fun parser =>
      { s with
        parser := parser
        callback := match message.bind (MarketFeed.callback prices) with
          | some call => .called call
          | none => .idle }
  | _ => none

/-- The next step of the callback: the range check of the update, with its first load, and its other steps. -/
def callbackStep (s : DisplaySys c P) : Option (DisplaySys c P) :=
  match s.callback with
  | .idle => none
  | .called call =>
    if call.symbolId ≥ s.cache.numSymbols then some { s with callback := .idle }
    else
      let e := s.entry prices call.symbolId.toNat
      some { s.access .entries call.symbolId.toNat with callback := .updating call.symbolId (.beginning call.toUpdate e.seq) }
  | .updating symbolId pc =>
    let e := s.entry prices symbolId.toNat
    let view : CacheSys P := { CacheSys.init prices.toPrices with seq := e.seq, state := e.state, writer := pc }
    (view.writeStep prices.toPrices).map fun view =>
      { s.setEntry symbolId.toNat { seq := view.seq, state := view.state } with
        callback := match view.writer with
          | .idle => .idle
          | pc => .updating symbolId pc }

/-! ## The visualizer -/

/-- A store to `open_price_`. -/
def storeOpenPrice (s : DisplaySys c P) (id : Nat) (p : P) : DisplaySys c P :=
  { s.access .openPrice id with openPrice := s.openPrice.setIfInBounds id p }

/-- A store to `open_set_`. -/
def storeOpenSet (s : DisplaySys c P) (id : Nat) : DisplaySys c P :=
  { s.access .openSet id with openSet := s.openSet.setIfInBounds id true }

/-- A row of the frame: what it does with the first price seen, and its name. -/
def renderRow (s : DisplaySys c P) (row : Row P) : DisplaySys c P :=
  let id := row.id.toNat
  let openPrice := s.openPrice[id]?.getD prices.zero
  let first := prices.isZero openPrice && prices.isPositive row.state.lastTradedPrice
  let s := s.access .openPrice id
  let s := if first then (s.storeOpenPrice id row.state.lastTradedPrice).storeOpenSet id else s
  let openPrice := if first then row.state.lastTradedPrice else openPrice
  let s :=
    if prices.isZero openPrice && prices.isPositive row.state.bestBid then
      (s.storeOpenPrice id (prices.mid row.state.bestBid row.state.bestAsk)).access .openPrice id
    else s
  if id < nseNamesSize then s.access .nseNames id else s

/-- The next step of `build_frame`. -/
def frameStep (s : DisplaySys c P) (seq1 seq2 : UInt32) (order : List Nat) : Option (DisplaySys c P) :=
  match s.frame with
  | .outside => some { s with frame := .scanning 0 [] }
  | .scanning i rows =>
    if i < s.cache.numSymbols then
      -- `get_update_count`, and with a count the call of `get_snapshot`
      let s := s.access .entries i.toNat
      if s.cache.getUpdateCount i = 0 then some { s with frame := .scanning (i + 1) rows }
      else
        let reader : Reader P := { pc := .top, s := .empty prices.toPrices, seq1, seq2, before := 0, at1 := 0 }
        some { s.access .entries i.toNat with frame := .snapshot i rows reader }
    else some { s with frame := .sorting rows }
  | .snapshot i rows reader =>
    let e := s.entry prices i.toNat
    let view : CacheSys P := { CacheSys.init prices.toPrices with seq := e.seq, state := e.state, reader := reader }
    view.readStep.map fun view =>
      { s with frame := match view.returned with
          | [] => .snapshot i rows view.reader
          | snapshot :: _ => .scanning (i + 1) (rows ++ [{ id := i, state := snapshot.state }]) }
  | .sorting rows =>
    -- the sort leaves rows of the same count in any order
    let sorted := order.filterMap (rows[·]?)
    if order.Perm (List.range rows.length) ∧ sorted.Pairwise (fun a b => a.state.updateCount ≥ b.state.updateCount) then
      some { s with frame := .rendering (sorted.take topNSymbols) }
    else none
  | .rendering [] => some { s with frame := .outside }
  | .rendering (row :: rows) => some { s.renderRow prices row with frame := .rendering rows }

/-- A step of one of the threads. -/
def step (s : DisplaySys c P) : DisplayEvent → Option (DisplaySys c P)
  | .feed data t => (s.parser.step (.feed data t)).map fun parser => { s with parser }
  | .resetStats => some { s with parser := { s.parser with parser := s.parser.parser.resetStats } }
  | .process => s.processStep prices .call
  | .iterate now => s.processStep prices (.iterate now)
  | .callback => s.callbackStep prices
  | .frame seq1 seq2 order => s.frameStep prices seq1 seq2 order

end DisplaySys

/-! ## The steps of the callback -/

namespace DisplayAux

variable {c : Capacity} {P : Type} {prices : DisplayPrices P}

/-- What a write leaves in an entry. -/
theorem entry_setEntry (s : DisplaySys c P) (i j : Nat) (e : CacheEntry P) :
    (s.setEntry j e).entry prices i = if i = j ∧ i < s.cache.numSymbols.toNat then e else s.entry prices i := by
  unfold DisplaySys.entry DisplaySys.setEntry
  dsimp only
  by_cases hi : i < s.cache.numSymbols.toNat
  · rw [dif_pos hi, dif_pos hi, Vector.getElem_setIfInBounds]
    by_cases hij : i = j
    · rw [if_pos hij.symm, if_pos ⟨hij, hi⟩]
    · rw [if_neg (Ne.symm hij), if_neg fun h => hij h.1]
  · rw [dif_neg hi, dif_neg hi, if_neg fun h => hi h.2]

/-- `get_update_count` reads the count of the entry. -/
theorem getUpdateCount_eq (prices : DisplayPrices P) (s : DisplaySys c P) (i : UInt16) :
    s.cache.getUpdateCount i = (s.entry prices i.toNat).state.updateCount := by
  unfold SymbolCache.getUpdateCount DisplaySys.entry
  split <;> rfl

/-- Within the bounds a checked write is a write. -/
theorem setIfInBounds_eq_set {α : Type} {n i : Nat} {xs : Vector α n} (hi : i < n) (x : α) :
    xs.setIfInBounds i x = xs.set i x hi :=
  Vector.ext fun j hj => by rw [Vector.getElem_setIfInBounds, Vector.getElem_set]

/-- The callback gets from one state to the other with no step of another thread between its own. -/
def Calls (prices : DisplayPrices P) (s t : DisplaySys c P) : Prop :=
  ∃ m, Run.exec (DisplaySys.step prices) s (List.replicate m .callback) = some t

/-- One step of the callback more. -/
theorem Calls.cons {s s' t : DisplaySys c P} (h : s.callbackStep prices = some s') (h' : Calls prices s' t) : Calls prices s t := by
  obtain ⟨m, hm⟩ := h'
  exact ⟨m + 1, Run.exec_cons_eq_some.mpr ⟨s', h, hm⟩⟩

/-- The entry and the place of the callback after a step of an update. -/
def updated (s : DisplaySys c P) (i : UInt16) (e : CacheEntry P) (pc : CallbackPc P) : DisplaySys c P :=
  { s.setEntry i.toNat e with callback := pc }

/-- The later write of an entry stands. -/
theorem updated_updated (s : DisplaySys c P) (i : UInt16) (e e' : CacheEntry P) (pc pc' : CallbackPc P) :
    updated (updated s i e pc) i e' pc' = updated s i e' pc' := by
  unfold updated DisplaySys.setEntry
  dsimp only
  rw [Vector.setIfInBounds_setIfInBounds]

/-- The entry is what has been written. -/
theorem entry_updated (s : DisplaySys c P) {i : UInt16} (hi : i.toNat < s.cache.numSymbols.toNat) (e : CacheEntry P)
    (pc : CallbackPc P) : (updated s i e pc).entry prices i.toNat = e :=
  (entry_setEntry s i.toNat i.toNat e).trans (if_pos ⟨rfl, hi⟩)

/-- A step of an update is a step of the writer of the entry. -/
theorem callbackStep_updated (s : DisplaySys c P) {i : UInt16} (hi : i.toNat < s.cache.numSymbols.toNat) (e : CacheEntry P)
    (pc : WriterPc P) :
    (updated s i e (.updating i pc)).callbackStep prices =
      (({ CacheSys.init prices.toPrices with seq := e.seq, state := e.state, writer := pc } : CacheSys P).writeStep
        prices.toPrices).map fun view =>
          updated s i { seq := view.seq, state := view.state } (match view.writer with
            | .idle => .idle
            | pc => .updating i pc) := by
  have hentry : (updated s i e (.updating i pc)).entry prices i.toNat = e := entry_updated s hi e _
  unfold DisplaySys.callbackStep
  change Option.map _ _ = _
  rw [hentry]
  congr 1
  funext view
  exact updated_updated s i e _ _ _

/-- The stores of an update that are left, and the second step of the counter. -/
theorem calls_storing (s : DisplaySys c P) {i : UInt16} (hi : i.toNat < s.cache.numSymbols.toNat) (u : Update P)
    (rest : List (FieldStore P)) (e : CacheEntry P) :
    Calls prices (updated s i e (.updating i (.storing u rest)))
      (updated s i { seq := e.seq + 1, state := applyStores prices.toPrices e.state rest } .idle) := by
  induction rest generalizing e with
  | nil => exact .cons (callbackStep_updated s hi e _) (.cons (callbackStep_updated s hi e _) ⟨0, rfl⟩)
  | cons f rest ih =>
    exact .cons (callbackStep_updated s hi e _) (ih { seq := e.seq, state := f.apply prices.toPrices e.state })

end DisplayAux

open DisplayAux

/-- The steps of the callback, one after the other, are a call of the cache. -/
theorem exec_callback {c : Capacity} {P : Type} (prices : DisplayPrices P) {s : DisplaySys c P} {call : CacheCall P}
    (h : s.callback = .called call) :
    ∃ m t, Run.exec (DisplaySys.step prices) s (List.replicate m .callback) = some t ∧ t.callback = .idle ∧
      t.cache = s.cache.call prices.toPrices call := by
  have hcall : s.cache.call prices.toPrices call = s.cache.update prices.toPrices call.symbolId call.toUpdate := by
    cases call <;> rfl
  rw [hcall]
  unfold SymbolCache.update
  by_cases hi : call.symbolId.toNat < s.cache.numSymbols.toNat
  · rw [dif_pos hi]
    generalize he : s.entry prices call.symbolId.toNat = e
    have hentry : e = s.cache.entries[call.symbolId.toNat] := he.symm.trans (dif_pos hi)
    have hstart : s.callbackStep prices = some { s.access .entries call.symbolId.toNat with
        callback := .updating call.symbolId (.beginning call.toUpdate e.seq) } := by
      unfold DisplaySys.callbackStep
      rw [h, ← he]
      exact if_neg (UInt16.not_le.mpr (UInt16.lt_iff_toNat_lt.mpr hi))
    have hbegin : ({ s.access .entries call.symbolId.toNat with
        callback := .updating call.symbolId (.beginning call.toUpdate e.seq) } : DisplaySys c P).callbackStep prices =
          some (updated (s.access .entries call.symbolId.toNat) call.symbolId { seq := e.seq + 1, state := e.state }
            (.updating call.symbolId (.storing call.toUpdate (call.toUpdate.stores prices.toPrices)))) := by
      rw [← he]
      rfl
    obtain ⟨m, hm⟩ := Calls.cons hstart (.cons hbegin (calls_storing (s.access .entries _) hi _ _ _))
    refine ⟨m, _, hm, rfl, ?_⟩
    unfold CacheEntry.update updated DisplaySys.setEntry
    dsimp only
    rw [← hentry]
    exact congrArg _ (setIfInBounds_eq_set hi _)
  · rw [dif_neg hi]
    have hstart : s.callbackStep prices = some { s with callback := .idle } := by
      unfold DisplaySys.callbackStep
      rw [h]
      exact if_pos (UInt16.le_iff_toNat_le.mpr (Nat.not_lt.mp hi))
    exact ⟨1, _, Run.exec_cons_eq_some.mpr ⟨_, hstart, rfl⟩, rfl, rfl⟩

end MarketFeed
