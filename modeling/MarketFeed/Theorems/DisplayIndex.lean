import MarketFeed.Display
import MarketFeed.TickGenerator

/-!
# The display indexes its arrays in bounds

The cache may have more entries than the visualizer has prices. The entries beyond are never updated: `process` hands no symbol of
500 or more to the callback, whatever bytes it has been fed. So their count stays 0 and they get no row.
-/

namespace MarketFeed

namespace DisplayIndexAux

open DisplayAux

variable {c : Capacity} {P : Type} {prices : DisplayPrices P}

/-! ## The filter of the parser -/

/-- A message handed to the callback has a symbol in range. -/
theorem accept_message {p : Parser c} {hdr : MsgHeader} {totalSize : Nat} {pm : ParsedMessage}
    (h : (p.accept hdr totalSize).2.message = some pm) : pm.symbolId < maxSymbols := by
  unfold Parser.accept at h
  dsimp only at h
  split_ifs at h with hrange hheartbeat
  · cases h
  · cases h
  · cases h
    exact UInt16.not_le.mp fun hle => hrange ⟨hle, hheartbeat⟩

/-- A message that is dispatched has a symbol that the visualizer has a price for. -/
theorem iterate_message {p : Parser c} {pm : ParsedMessage} (h : (p.iterate.bind fun x => x.2.message) = some pm) :
    pm.symbolId < maxSymbols := by
  unfold Parser.iterate at h
  split at h
  · cases h
  · dsimp only at h
    split at h
    · cases h
    · split at h
      · cases h
      · split at h
        · cases h
        · exact accept_message h

/-- The call of the cache is for the symbol of the message. -/
theorem callback_symbolId {pm : ParsedMessage} {call : CacheCall P} (h : callback prices pm = some call) :
    call.symbolId = pm.symbolId := by
  unfold callback at h
  split at h <;> split_ifs at h <;> cases h <;> rfl

/-! ## The invariant -/

/-- A symbol that the visualizer has a price for and the cache an entry. -/
def Shown (numSymbols symbolId : UInt16) : Prop := symbolId < maxSymbols ∧ symbolId < numSymbols

/-- The symbol that the callback is at. -/
def CallbackOk (numSymbols : UInt16) : CallbackPc P → Prop
  | .idle => True
  | .called call => call.symbolId < maxSymbols
  | .updating symbolId _ => Shown numSymbols symbolId

/-- The symbols of the rows. -/
def FrameOk (numSymbols : UInt16) : FramePc P → Prop
  | .outside => True
  | .scanning _ rows => ∀ row ∈ rows, Shown numSymbols row.id
  | .snapshot i rows _ => Shown numSymbols i ∧ ∀ row ∈ rows, Shown numSymbols row.id
  | .sorting rows => ∀ row ∈ rows, Shown numSymbols row.id
  | .rendering rows => ∀ row ∈ rows, Shown numSymbols row.id

/-- The invariant. -/
structure DisplayInv (prices : DisplayPrices P) (numSymbols : UInt16) (s : DisplaySys c P) : Prop where
  numSymbols_eq : s.cache.numSymbols = numSymbols
  entries : ∀ i, maxSymbols.toNat ≤ i → (s.entry prices i).state.updateCount = 0
  callback : CallbackOk numSymbols s.callback
  frame : FrameOk numSymbols s.frame
  accesses : ∀ a ∈ s.accesses, a.2 < a.1.size numSymbols

/-- At the start nothing has been updated or accessed. -/
theorem DisplayInv.init (c : Capacity) (numSymbols : UInt16) : DisplayInv prices numSymbols (.init prices c numSymbols) where
  numSymbols_eq := rfl
  entries := fun i _ => by
    unfold DisplaySys.entry DisplaySys.init SymbolCache.new
    dsimp only
    split
    · rw [Vector.getElem_replicate]
      rfl
    · rfl
  callback := trivial
  frame := trivial
  accesses := nofun

/-- An access in bounds. -/
theorem DisplayInv.access {numSymbols : UInt16} {s : DisplaySys c P} (h : DisplayInv prices numSymbols s) {a : DisplayArray} {i : Nat}
    (hi : i < a.size numSymbols) : DisplayInv prices numSymbols (s.access a i) :=
  { h with
    accesses := fun b hb => by
      rcases List.mem_append.mp hb with hb | hb
      · exact h.accesses b hb
      · rw [List.mem_singleton.mp hb]
        exact hi }

/-! ## The parse thread -/

/-- A step of the parser keeps the invariant: what it leaves to the callback is in range. -/
theorem DisplayInv.processStep {numSymbols : UInt16} {s s' : DisplaySys c P} (h : DisplayInv prices numSymbols s) {e : ParserEvent}
    (hs : s.processStep prices e = some s') : DisplayInv prices numSymbols s' := by
  unfold DisplaySys.processStep at hs
  split at hs
  · obtain ⟨parser, -, rfl⟩ := Option.map_eq_some_iff.mp hs
    refine { h with callback := ?_ }
    dsimp only
    split
    · rename_i call hcall
      obtain ⟨pm, hpm, hcall⟩ := Option.bind_eq_some_iff.mp hcall
      change call.symbolId < maxSymbols
      rw [callback_symbolId hcall]
      split at hpm
      · exact iterate_message hpm
      · cases hpm
    · trivial
  · cases hs

/-- A step of the callback does: it accesses the entry of its symbol. -/
theorem DisplayInv.callbackStep {numSymbols : UInt16} {s s' : DisplaySys c P} (h : DisplayInv prices numSymbols s)
    (hs : s.callbackStep prices = some s') : DisplayInv prices numSymbols s' := by
  have hcallback := h.callback
  unfold DisplaySys.callbackStep at hs
  unfold CallbackOk at hcallback
  split at hs
  · cases hs
  · rename_i call hpc
    rw [hpc] at hcallback
    split_ifs at hs with hrange
    · cases hs
      exact { h with callback := trivial }
    · cases hs
      rw [h.numSymbols_eq] at hrange
      have hlt : call.symbolId < numSymbols := UInt16.not_le.mp hrange
      have hinv : DisplayInv prices numSymbols (s.access .entries call.symbolId.toNat) :=
        h.access (UInt16.lt_iff_toNat_lt.mp hlt)
      exact { hinv with callback := ⟨hcallback, hlt⟩ }
  · rename_i symbolId pc hpc
    rw [hpc] at hcallback
    obtain ⟨view, -, rfl⟩ := Option.map_eq_some_iff.mp hs
    refine ⟨h.numSymbols_eq, fun i hi => ?_, ?_, h.frame, h.accesses⟩
    · -- the entry updated is not one of those beyond
      change ((s.setEntry symbolId.toNat _).entry prices i).state.updateCount = 0
      have hne : i ≠ symbolId.toNat := (UInt16.lt_iff_toNat_lt.mp hcallback.1).trans_le hi |>.ne'
      rw [entry_setEntry, if_neg fun heq => hne heq.1]
      exact h.entries i hi
    · dsimp only
      split
      · trivial
      · exact hcallback

/-! ## The visualizer -/

/-- A store that is made or not. -/
theorem DisplayInv.ite {numSymbols : UInt16} {s t : DisplaySys c P} {p : Prop} [Decidable p]
    (hs : p → DisplayInv prices numSymbols s) (ht : DisplayInv prices numSymbols t) :
    DisplayInv prices numSymbols (if p then s else t) := by
  split_ifs with hp
  · exact hs hp
  · exact ht

/-- A store to `open_price_`, -/
theorem DisplayInv.storeOpenPrice {numSymbols : UInt16} {s : DisplaySys c P} (h : DisplayInv prices numSymbols s) {id : Nat}
    (hid : id < maxSymbols.toNat) (p : P) : DisplayInv prices numSymbols (s.storeOpenPrice id p) :=
  { h.access (a := .openPrice) hid with }

/-- or to `open_set_`. -/
theorem DisplayInv.storeOpenSet {numSymbols : UInt16} {s : DisplaySys c P} (h : DisplayInv prices numSymbols s) {id : Nat}
    (hid : id < maxSymbols.toNat) : DisplayInv prices numSymbols (s.storeOpenSet id) :=
  { h.access (a := .openSet) hid with }

/-- A row that is shown accesses both at its symbol. -/
theorem DisplayInv.renderRow {numSymbols : UInt16} {s : DisplaySys c P} (h : DisplayInv prices numSymbols s) {row : Row P}
    (hrow : Shown numSymbols row.id) : DisplayInv prices numSymbols (s.renderRow prices row) := by
  have hid : row.id.toNat < maxSymbols.toNat := UInt16.lt_iff_toNat_lt.mp hrow.1
  have hload := h.access (a := .openPrice) hid
  have hfirst : ∀ (p : Prop) [Decidable p], DisplayInv prices numSymbols
      (if p then ((s.access .openPrice row.id.toNat).storeOpenPrice row.id.toNat row.state.lastTradedPrice).storeOpenSet row.id.toNat
        else s.access .openPrice row.id.toNat) :=
    fun p _ => .ite (fun _ => (hload.storeOpenPrice hid _).storeOpenSet hid) hload
  have hmid := fun (p q : Prop) [Decidable p] [Decidable q] =>
    DisplayInv.ite (p := q) (fun _ => ((hfirst p).storeOpenPrice hid (prices.mid row.state.bestBid row.state.bestAsk)).access
      (a := .openPrice) hid) (hfirst p)
  exact .ite (fun hname => (hmid _ _).access (a := .nseNames) hname) (hmid _ _)

/-- A step of the visualizer keeps the invariant. -/
theorem DisplayInv.frameStep {numSymbols : UInt16} {s s' : DisplaySys c P} (h : DisplayInv prices numSymbols s) {seq1 seq2 : UInt32}
    {order : List Nat} (hs : s.frameStep prices seq1 seq2 order = some s') : DisplayInv prices numSymbols s' := by
  have hframe := h.frame
  unfold DisplaySys.frameStep at hs
  unfold FrameOk at hframe
  split at hs
  · cases hs
    exact { h with frame := nofun }
  · rename_i i rows hpc
    rw [hpc] at hframe
    split_ifs at hs with hi
    · rw [h.numSymbols_eq] at hi
      have hinv : DisplayInv prices numSymbols (s.access .entries i.toNat) := h.access (UInt16.lt_iff_toNat_lt.mp hi)
      dsimp only at hs
      split_ifs at hs with hcount
      · cases hs
        exact { hinv with frame := hframe }
      · cases hs
        -- an entry with a count is one of the first
        have hmax : i < maxSymbols := by
          by_contra hge
          refine hcount ((getUpdateCount_eq prices s i).trans ?_)
          exact h.entries i.toNat (UInt16.le_iff_toNat_le.mp (UInt16.not_lt.mp hge))
        have hinv' : DisplayInv prices numSymbols ((s.access .entries i.toNat).access .entries i.toNat) :=
          hinv.access (UInt16.lt_iff_toNat_lt.mp hi)
        exact { hinv' with frame := ⟨⟨hmax, hi⟩, hframe⟩ }
    · cases hs
      exact { h with frame := hframe }
  · rename_i i rows reader hpc
    rw [hpc] at hframe
    obtain ⟨view, -, rfl⟩ := Option.map_eq_some_iff.mp hs
    refine { h with frame := ?_ }
    dsimp only
    split
    · exact hframe
    · intro row hrow
      rcases List.mem_append.mp hrow with hrow | hrow
      · exact hframe.2 row hrow
      · rw [List.mem_singleton.mp hrow]
        exact hframe.1
  · rename_i rows hpc
    rw [hpc] at hframe
    dsimp only at hs
    split_ifs at hs
    cases hs
    refine { h with frame := fun row hrow => ?_ }
    obtain ⟨k, -, hk⟩ := List.mem_filterMap.mp (List.mem_of_mem_take hrow)
    exact hframe row (List.mem_of_getElem? hk)
  · cases hs
    exact { h with frame := trivial }
  · rename_i row rows hpc
    rw [hpc] at hframe
    cases hs
    have hinv := h.renderRow (hframe row List.mem_cons_self)
    exact { hinv with frame := fun r hr => hframe r (List.mem_cons_of_mem row hr) }

/-- Every step of the client does. -/
theorem DisplayInv.step {numSymbols : UInt16} {s s' : DisplaySys c P} (h : DisplayInv prices numSymbols s) {e : DisplayEvent}
    (hs : s.step prices e = some s') : DisplayInv prices numSymbols s' := by
  cases e with
  | feed data t =>
    simp only [DisplaySys.step] at hs
    obtain ⟨parser, -, rfl⟩ := Option.map_eq_some_iff.mp hs
    exact { h with }
  | resetStats =>
    cases hs
    exact { h with }
  | process => exact h.processStep hs
  | iterate now => exact h.processStep hs
  | callback => exact h.callbackStep hs
  | frame seq1 seq2 order => exact h.frameStep hs

end DisplayIndexAux

open DisplayIndexAux

/-- For every number of symbols on the command line, everything that is fed and every interleaving of the threads: in every state an
entry with a count is one that the cache and the visualizer both have, and every index used into an array was in bounds. -/
theorem display_indices {P : Type} (prices : DisplayPrices P) (c : Capacity) (numSymbols : UInt16) (es : List DisplayEvent)
    (s : DisplaySys c P) (h : Run.exec (DisplaySys.step prices) (.init prices c numSymbols) es = some s) :
    s.cache.numSymbols = numSymbols ∧
      (∀ i (hi : i < s.cache.numSymbols.toNat), s.cache.entries[i].state.updateCount ≠ 0 →
        i < min numSymbols.toNat maxSymbols.toNat) ∧
      ∀ a ∈ s.accesses, a.2 < a.1.size numSymbols := by
  have hinv : DisplayInv prices numSymbols s :=
    Run.exec_invariant (fun _ _ _ hi hs => hi.step hs) (DisplayInv.init c numSymbols) h
  refine ⟨hinv.numSymbols_eq, fun i hi hcount => ?_, hinv.accesses⟩
  have hentry : s.entry prices i = s.cache.entries[i] := dif_pos hi
  rw [lt_min_iff]
  refine ⟨hinv.numSymbols_eq ▸ hi, ?_⟩
  by_contra hge
  refine hcount ?_
  rw [← hentry]
  exact hinv.entries i (Nat.not_lt.mp hge)

namespace DisplayIndexAux

/-- Prices as the bits of doubles. The mean of two prices is not needed below. -/
def bitPrices : DisplayPrices UInt64 :=
  { zero := 0
    isZero := fun p => p == 0 || p == 0x8000000000000000
    mid := fun p _ => p
    ofBits := id
    isPositive := fun p => 0 < p && p ≤ 0x7FF0000000000000 }

/-- Trades of the second symbol and of the first one that the visualizer has no price for. -/
def trades : List UInt8 := emitTrade 1 1 5 ⟨0x4059000000000000, 10⟩ ++ emitTrade 500 2 6 ⟨0x4059000000000000, 10⟩

/-- Both trades are fed and processed, and a frame is built from a cache with two entries. -/
def frameRun : List DisplayEvent :=
  [.feed trades 9, .process, .iterate 10] ++ List.replicate 9 .callback ++ [.iterate 11] ++ List.replicate 21 (.frame 0 0 [0])

end DisplayIndexAux

/-- The run `frameRun`: the only price used is that of the second symbol. -/
theorem display_indices_frameRun :
    ∃ s, Run.exec (DisplaySys.step bitPrices) (.init bitPrices recvBufSize 2) frameRun = some s ∧
      s.accesses.filter (fun a => a.1 ≠ .entries) = [(.openPrice, 1), (.openPrice, 1), (.openSet, 1), (.nseNames, 1)] ∧
      ∀ a ∈ s.accesses, a.2 < a.1.size 2 := by
  have hrun : ∃ s, Run.exec (DisplaySys.step bitPrices) (.init bitPrices recvBufSize 2) frameRun = some s ∧
      s.accesses.filter (fun a => a.1 ≠ .entries) = [(.openPrice, 1), (.openPrice, 1), (.openSet, 1), (.nseNames, 1)] := by
    decide +kernel
  obtain ⟨s, hrun, haccesses⟩ := hrun
  exact ⟨s, hrun, haccesses, (display_indices bitPrices recvBufSize 2 frameRun s hrun).2.2⟩

end MarketFeed
