import MarketFeed.Cache

/-!
# The cache of all symbols

`SymbolCache` with an entry for each of its symbols, and its operations as whole calls. The steps of a call, and what a reader sees of
an update in progress, are in `CacheSys`; a call of which nothing else sees the steps is a call of this module.
-/

namespace MarketFeed

/-- `CacheEntry`. -/
structure CacheEntry (P : Type) where
  seq : UInt32
  state : MarketState P
  deriving DecidableEq, Repr

/-- `SymbolCache`: as many entries as there are symbols. -/
structure SymbolCache (P : Type) where
  numSymbols : UInt16
  entries : Vector (CacheEntry P) numSymbols.toNat

variable {P : Type} (prices : Prices P)

/-- An update of the entry, from `seqlock_write_begin` to `seqlock_write_end`. -/
def CacheEntry.update (e : CacheEntry P) (u : Update P) : CacheEntry P :=
  { seq := e.seq + 1 + 1, state := applyStores prices e.state (u.stores prices) }

namespace SymbolCache

/-- The constructor. -/
def new (numSymbols : UInt16) : SymbolCache P :=
  { numSymbols, entries := Vector.replicate numSymbols.toNat { seq := 0, state := .empty prices } }

/-- What the two update functions have in common: the range check, and the update of the entry. -/
def update (c : SymbolCache P) (symbolId : UInt16) (u : Update P) : SymbolCache P :=
  if h : symbolId.toNat < c.numSymbols.toNat then
    { c with entries := c.entries.set symbolId.toNat (c.entries[symbolId.toNat].update prices u) h }
  else c

/-- `update_quote`. -/
def updateQuote (c : SymbolCache P) (symbolId : UInt16) (bidPrice : P) (bidQty : UInt32) (askPrice : P) (askQty : UInt32)
    (tsNs : UInt64) : SymbolCache P :=
  c.update prices symbolId (.quote bidPrice bidQty askPrice askQty tsNs)

/-- `update_trade`. -/
def updateTrade (c : SymbolCache P) (symbolId : UInt16) (price : P) (qty : UInt32) (tsNs : UInt64) : SymbolCache P :=
  c.update prices symbolId (.trade price qty tsNs)

/-- `get_snapshot` while no update is in progress. With an odd counter it would not return what it copies. -/
def getSnapshot (c : SymbolCache P) (symbolId : UInt16) : Option (MarketState P) :=
  if h : symbolId.toNat < c.numSymbols.toNat then
    let e := c.entries[symbolId.toNat]
    if e.seq &&& 1 ≠ 0 then none else some e.state
  else some (.empty prices)

/-- `get_update_count`. -/
def getUpdateCount (c : SymbolCache P) (symbolId : UInt16) : UInt64 :=
  if h : symbolId.toNat < c.numSymbols.toNat then c.entries[symbolId.toNat].state.updateCount else 0

end SymbolCache

/-! ## Calls -/

/-- A call of one of the update functions, with any symbol id. -/
inductive CacheCall (P : Type) where
  | updateQuote (symbolId : UInt16) (bidPrice : P) (bidQty : UInt32) (askPrice : P) (askQty : UInt32) (tsNs : UInt64)
  | updateTrade (symbolId : UInt16) (price : P) (qty : UInt32) (tsNs : UInt64)
  deriving DecidableEq, Repr

namespace CacheCall

/-- The symbol of a call. -/
def symbolId : CacheCall P → UInt16
  | updateQuote id _ _ _ _ _ => id
  | updateTrade id _ _ _ => id

/-- The update it makes. -/
def toUpdate : CacheCall P → Update P
  | updateQuote _ bidPrice bidQty askPrice askQty tsNs => .quote bidPrice bidQty askPrice askQty tsNs
  | updateTrade _ price qty tsNs => .trade price qty tsNs

end CacheCall

/-- A call. -/
def SymbolCache.call (c : SymbolCache P) : CacheCall P → SymbolCache P
  | .updateQuote id bidPrice bidQty askPrice askQty tsNs => c.updateQuote prices id bidPrice bidQty askPrice askQty tsNs
  | .updateTrade id price qty tsNs => c.updateTrade prices id price qty tsNs

/-- A sequence of calls. -/
def SymbolCache.calls (c : SymbolCache P) (cs : List (CacheCall P)) : SymbolCache P := cs.foldl (SymbolCache.call prices) c

/-! ## The steps of a call -/

/-- The steps of an update, one after the other, are the update of the entry. -/
theorem exec_update (s : CacheSys P) (hw : s.writer = .idle) (u : Update P) :
    Run.exec (CacheSys.step prices) s (.update u :: List.replicate ((u.stores prices).length + 3) .write) =
      some { s with
        seq := (CacheEntry.update prices ⟨s.seq, s.state⟩ u).seq
        state := (CacheEntry.update prices ⟨s.seq, s.state⟩ u).state
        completed := s.completed ++ [u] } := by
  obtain ⟨seq, state, writer, reader, completed, returned⟩ := s
  cases hw
  cases u with
  | quote bidPrice bidQty askPrice askQty tsNs => rfl
  | trade price qty tsNs => rfl

namespace SymbolCacheAux

/-- The entry with a reader that was called and loaded `seq1` with no step of the writer in between. -/
def reading (s : CacheSys P) (pc : ReaderPc) (copy : MarketState P) (seq2 : UInt32) : CacheSys P :=
  { s with reader := { pc, s := copy, seq1 := s.seq, seq2, before := s.completed.length, at1 := s.completed.length } }

theorem readStep_test (s : CacheSys P) (heven : s.seq &&& 1 = 0) (copy : MarketState P) (seq2 : UInt32) :
    CacheSys.step prices (reading s .test copy seq2) .read = some (reading s (.copying Field.all) copy seq2) :=
  if_neg (not_not.mpr heven)

theorem exec_copying (s : CacheSys P) (fields : List Field) (copy : MarketState P) (seq2 : UInt32) :
    Run.exec (CacheSys.step prices) (reading s (.copying fields) copy seq2) (List.replicate fields.length .read) =
      some (reading s (.copying []) (copyFields s.state copy fields) seq2) := by
  induction fields generalizing copy with
  | nil => rfl
  | cons f fields ih => exact Run.exec_cons_eq_some.mpr ⟨_, rfl, ih (f.copy s.state copy)⟩

theorem readStep_condition (s : CacheSys P) :
    CacheSys.step prices (reading s .condition s.state s.seq) .read =
      some { reading s .idle s.state s.seq with
        returned := s.returned ++ [⟨s.state, s.completed.length, s.completed.length⟩] } :=
  if_neg (not_not.mpr rfl)

end SymbolCacheAux

open SymbolCacheAux

/-- The steps of a reader, with no step of the writer between them, are a call of `get_snapshot`: what is copied is returned when the
counter is even. -/
theorem exec_getSnapshot (s : CacheSys P) (hr : s.reader.pc = .idle) (heven : s.seq &&& 1 = 0) (local1 : MarketState P)
    (seq1 seq2 : UInt32) :
    ∃ t, Run.exec (CacheSys.step prices) s (.getSnapshot local1 seq1 seq2 :: List.replicate 14 .read) = some t ∧
      t.returned.map Snapshot.state = s.returned.map Snapshot.state ++ [s.state] := by
  have htop : Run.exec (CacheSys.step prices) s [.getSnapshot local1 seq1 seq2, .read] = some (reading s .test local1 seq2) := by
    obtain ⟨seq, state, writer, reader, completed, returned⟩ := s
    obtain ⟨pc, copy, old1, old2, before, at1⟩ := reader
    cases hr
    rfl
  have hcopy := exec_copying prices s Field.all local1 seq2
  rw [copyFields_all] at hcopy
  have hend : Run.exec (CacheSys.step prices) (reading s (.copying []) s.state seq2) [.read, .read, .read] = _ :=
    Run.exec_cons_eq_some.mpr ⟨_, rfl, Run.exec_cons_eq_some.mpr ⟨_, rfl, Run.exec_cons_eq_some.mpr
      ⟨_, readStep_condition prices s, rfl⟩⟩⟩
  have hrest := Run.exec_cons_eq_some.mpr ⟨_, readStep_test prices s heven local1 seq2, (Run.exec_append hcopy).trans hend⟩
  exact ⟨_, (Run.exec_append htop).trans hrest, List.map_append⟩

end MarketFeed
