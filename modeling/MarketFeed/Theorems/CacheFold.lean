import MarketFeed.SymbolCache

/-!
# The cache holds the fold of each symbol's own updates

Quotes and trades write overlapping parts of an entry and `open_price` latches on a test of its value. What an entry holds is stated
field by field from the list of its updates (`latest`), and a snapshot after any calls for any symbols is that of its own symbol.
-/

namespace MarketFeed

variable {P : Type}

/-! ## What an entry is to hold -/

/-- The prices and quantities of a quote. -/
structure QuoteFields (P : Type) where
  bidPrice : P
  bidQty : UInt32
  askPrice : P
  askQty : UInt32

/-- The price and quantity of a trade. -/
structure TradeFields (P : Type) where
  price : P
  qty : UInt32

namespace Update

/-- The fields of an update that is a quote. -/
def quote? : Update P → Option (QuoteFields P)
  | quote bidPrice bidQty askPrice askQty _ => some { bidPrice, bidQty, askPrice, askQty }
  | trade _ _ _ => none

/-- The fields of an update that is a trade. -/
def trade? : Update P → Option (TradeFields P)
  | quote _ _ _ _ _ => none
  | trade price qty _ => some { price, qty }

/-- The time of an update. -/
def tsNs : Update P → UInt64
  | quote _ _ _ _ t => t
  | trade _ _ t => t

/-- The reference price of an update: the mid price of a quote, the price of a trade. -/
def reference (prices : Prices P) : Update P → P
  | quote bidPrice _ askPrice _ _ => prices.mid bidPrice askPrice
  | trade price _ _ => price

end Update

/-- The first reference price that does not pass the zero test, or the last one. -/
def openingPrice (prices : Prices P) (refs : List P) : P :=
  ((refs.find? (fun p => !prices.isZero p)).or refs.getLast?).getD prices.zero

/-- The latest of everything: the last quote, the last trade, the last time, the number of updates, the opening price. -/
def latest (prices : Prices P) (us : List (Update P)) : MarketState P :=
  let quote := (us.filterMap Update.quote?).getLast?
  let trade := (us.filterMap Update.trade?).getLast?
  { bestBid := (quote.map QuoteFields.bidPrice).getD prices.zero
    bestAsk := (quote.map QuoteFields.askPrice).getD prices.zero
    bidQuantity := (quote.map QuoteFields.bidQty).getD 0
    askQuantity := (quote.map QuoteFields.askQty).getD 0
    lastTradedPrice := (trade.map TradeFields.price).getD prices.zero
    lastTradedQuantity := (trade.map TradeFields.qty).getD 0
    lastUpdateTime := (us.getLast?.map Update.tsNs).getD 0
    updateCount := UInt64.ofNat us.length
    openPrice := openingPrice prices (us.map (Update.reference prices)) }

/-- The updates of a symbol among some calls. -/
def updatesOf (id : UInt16) (cs : List (CacheCall P)) : List (Update P) :=
  (cs.filter (fun c => c.symbolId = id)).map CacheCall.toUpdate

namespace CacheFoldAux

/-! ## One entry -/

/-- The latch: a price is taken while the one held passes the zero test. -/
theorem openingPrice_append (prices : Prices P) (hzero : prices.isZero prices.zero = true) (refs : List P) (p : P) :
    openingPrice prices (refs ++ [p]) =
      if prices.isZero (openingPrice prices refs) then p else openingPrice prices refs := by
  unfold openingPrice
  rw [List.find?_append]
  cases hfind : refs.find? (fun p => !prices.isZero p) with
  | some q =>
    have hq : prices.isZero q = false := by simpa using List.find?_some hfind
    simp [hq]
  | none =>
    -- all prices so far pass the test, so the one held does
    have hall : ∀ q ∈ refs, prices.isZero q = true := by
      intro q hq
      simpa using List.find?_eq_none.mp hfind q hq
    have hheld : prices.isZero (refs.getLast?.getD prices.zero) = true := by
      cases hlast : refs.getLast? with
      | none => exact hzero
      | some q => exact hall q (List.mem_of_getLast? hlast)
    cases hp : prices.isZero p <;> simp [hp, hheld]

theorem ofNat_succ (n : Nat) : UInt64.ofNat (n + 1) = UInt64.ofNat n + 1 := by
  apply UInt64.toNat_inj.mp
  simp

/-- One more update. -/
theorem latest_append (prices : Prices P) (hzero : prices.isZero prices.zero = true) (us : List (Update P)) (u : Update P) :
    latest prices (us ++ [u]) = applyStores prices (latest prices us) (u.stores prices) := by
  have hopen := openingPrice_append prices hzero (us.map (Update.reference prices))
  cases u with
  | quote bidPrice bidQty askPrice askQty tsNs =>
    cases hz : prices.isZero (openingPrice prices (us.map (Update.reference prices))) <;>
      simp [latest, Update.stores, applyStores, FieldStore.apply, Update.quote?, Update.trade?, Update.tsNs, Update.reference,
        ofNat_succ, hopen, hz]
  | trade price qty tsNs =>
    cases hz : prices.isZero (openingPrice prices (us.map (Update.reference prices))) <;>
      simp [latest, Update.stores, applyStores, FieldStore.apply, Update.quote?, Update.trade?, Update.tsNs, Update.reference,
        ofNat_succ, hopen, hz]

/-- The state of an entry is the latest of everything. -/
theorem stateAfter_eq_latest (prices : Prices P) (hzero : prices.isZero prices.zero = true) (us : List (Update P)) :
    stateAfter prices us = latest prices us := by
  induction us using List.reverseRecOn with
  | nil => rfl
  | append_singleton us u ih =>
    rw [latest_append prices hzero, ← ih]
    unfold stateAfter
    rw [List.foldl_append]
    rfl

/-! ## All entries -/

/-- An update of an entry is one more in its list, counted twice by the sequence counter. -/
theorem update_entry (prices : Prices P) (us : List (Update P)) (u : Update P) :
    CacheEntry.update prices ⟨UInt32.ofNat (2 * us.length), stateAfter prices us⟩ u =
      ⟨UInt32.ofNat (2 * (us ++ [u]).length), stateAfter prices (us ++ [u])⟩ := by
  have hseq : UInt32.ofNat (2 * us.length) + 1 + 1 = UInt32.ofNat (2 * (us ++ [u]).length) := by
    apply UInt32.toNat_inj.mp
    simp
    omega
  have hstate : applyStores prices (stateAfter prices us) (u.stores prices) = stateAfter prices (us ++ [u]) := by
    unfold stateAfter
    rw [List.foldl_append]
    rfl
  unfold CacheEntry.update
  rw [hseq, hstate]

theorem call_eq (prices : Prices P) (c : SymbolCache P) (call : CacheCall P) :
    c.call prices call = c.update prices call.symbolId call.toUpdate := by
  cases call <;> rfl

@[simp] theorem numSymbols_update (prices : Prices P) (c : SymbolCache P) (id : UInt16) (u : Update P) :
    (c.update prices id u).numSymbols = c.numSymbols := by
  unfold SymbolCache.update
  split <;> rfl

/-- An update changes the entry of its symbol, if there is one, and no other. -/
theorem getElem?_update (prices : Prices P) (c : SymbolCache P) (id : UInt16) (u : Update P) (k : Nat) :
    (c.update prices id u).entries[k]? =
      if k = id.toNat then c.entries[k]?.map (fun e => e.update prices u) else c.entries[k]? := by
  by_cases hid : id.toNat < c.numSymbols.toNat
  · have hupdate : c.update prices id u =
        { c with entries := c.entries.set id.toNat (c.entries[id.toNat].update prices u) hid } := dif_pos hid
    rw [hupdate]
    by_cases hk : k = id.toNat
    · subst hk
      simp [hid]
    · rw [if_neg hk, Vector.getElem?_set_ne _ (Ne.symm hk)]
  · have hupdate : c.update prices id u = c := dif_neg hid
    rw [hupdate]
    by_cases hk : k = id.toNat
    · subst hk
      simp [hid]
    · rw [if_neg hk]

theorem numSymbols_calls (prices : Prices P) (numSymbols : UInt16) (cs : List (CacheCall P)) :
    ((SymbolCache.new prices numSymbols).calls prices cs).numSymbols = numSymbols := by
  induction cs using List.reverseRecOn with
  | nil => rfl
  | append_singleton cs call ih =>
    unfold SymbolCache.calls at ih ⊢
    rw [List.foldl_append, List.foldl_cons, List.foldl_nil, call_eq, numSymbols_update, ih]

/-- After any calls, the entry of a symbol is what its own updates make of it. -/
theorem getElem?_calls (prices : Prices P) (numSymbols : UInt16) (cs : List (CacheCall P)) (id : UInt16) (hid : id < numSymbols) :
    ((SymbolCache.new prices numSymbols).calls prices cs).entries[id.toNat]? =
      some ⟨UInt32.ofNat (2 * (updatesOf id cs).length), stateAfter prices (updatesOf id cs)⟩ := by
  have hlt : id.toNat < numSymbols.toNat := UInt16.lt_iff_toNat_lt.mp hid
  induction cs using List.reverseRecOn with
  | nil => exact (Vector.getElem?_eq_getElem hlt).trans (congrArg some (Vector.getElem_replicate hlt))
  | append_singleton cs call ih =>
    have hcalls : (SymbolCache.new prices numSymbols).calls prices (cs ++ [call]) =
        ((SymbolCache.new prices numSymbols).calls prices cs).update prices call.symbolId call.toUpdate := by
      unfold SymbolCache.calls
      rw [List.foldl_append, List.foldl_cons, List.foldl_nil, call_eq]
    rw [hcalls, getElem?_update, ih]
    by_cases hown : call.symbolId = id
    · have hus : updatesOf id (cs ++ [call]) = updatesOf id cs ++ [call.toUpdate] := by
        simp [updatesOf, hown]
      rw [if_pos (congrArg UInt16.toNat hown).symm, hus, Option.map_some, update_entry]
    · have hus : updatesOf id (cs ++ [call]) = updatesOf id cs := by
        simp [updatesOf, hown]
      rw [if_neg (fun h => hown (UInt16.toNat_inj.mp h.symm)), hus]

/-- A counter that has been incremented an even number of times is even. -/
theorem ofNat_two_mul_and_one (n : Nat) : UInt32.ofNat (2 * n) &&& 1 = 0 := by
  apply UInt32.toNat_inj.mp
  rw [UInt32.toNat_and, UInt32.toNat_ofNat', UInt32.toNat_one, Nat.and_one_is_mod, UInt32.toNat_zero]
  omega

end CacheFoldAux

open CacheFoldAux

/-- For every number of symbols and every sequence of calls with any symbol ids, a snapshot of a symbol of the cache holds the latest of
everything from the symbol's own updates, whatever the other symbols got, and the sequence counter of its entry has counted its
updates twice. Of prices it is only assumed that the default passes the zero test. -/
theorem getSnapshot_calls (prices : Prices P) (hzero : prices.isZero prices.zero = true) (numSymbols : UInt16)
    (cs : List (CacheCall P)) (id : UInt16) (hid : id < numSymbols) :
    ((SymbolCache.new prices numSymbols).calls prices cs).getSnapshot prices id = some (latest prices (updatesOf id cs)) ∧
      ∃ e, ((SymbolCache.new prices numSymbols).calls prices cs).entries[id.toNat]? = some e ∧
        e.seq = UInt32.ofNat (2 * (updatesOf id cs).length) := by
  have hentry := getElem?_calls prices numSymbols cs id hid
  have hlt : id.toNat < ((SymbolCache.new prices numSymbols).calls prices cs).numSymbols.toNat := by
    rw [numSymbols_calls]
    exact UInt16.lt_iff_toNat_lt.mp hid
  refine ⟨?_, _, hentry, rfl⟩
  unfold SymbolCache.getSnapshot
  rw [dif_pos hlt]
  rw [Vector.getElem?_eq_getElem hlt] at hentry
  rw [Option.some.inj hentry]
  dsimp only
  rw [if_neg (not_not.mpr (ofNat_two_mul_and_one _)), stateAfter_eq_latest prices hzero]

namespace CacheFoldAux

/-- Prices in whole paise. -/
def paise : Prices Nat := { zero := 0, isZero := fun p => p == 0, mid := fun bid ask => (bid + ask) / 2 }

/-- A quote and two trades for symbol 1, the first at price zero, among calls for symbols 0 and 7. -/
def mixedCalls : List (CacheCall Nat) :=
  [.updateTrade 0 500 1 10, .updateTrade 1 0 5 11, .updateTrade 7 900 2 12, .updateQuote 1 100 3 104 4 13, .updateTrade 1 103 6 14]

end CacheFoldAux

/-- The calls `mixedCalls` on a cache of two symbols: the opening price of symbol 1 is the mid price of its quote. -/
theorem getSnapshot_calls_mixedCalls :
    ((SymbolCache.new paise 2).calls paise mixedCalls).getSnapshot paise 1 =
      some { bestBid := 100, bestAsk := 104, bidQuantity := 3, askQuantity := 4, lastTradedPrice := 103, lastTradedQuantity := 6,
             lastUpdateTime := 14, updateCount := 3, openPrice := 102 } := by
  rw [(getSnapshot_calls paise rfl 2 mixedCalls 1 (by decide)).1]
  decide

end MarketFeed
