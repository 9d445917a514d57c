import MarketFeed.Lemmas.DisplayMirror

/-!
# What a frame shows

The visualizer goes over the cache while the parse thread updates it, one symbol after the other, so a frame is no snapshot of the whole
cache. Each of its rows is a state that the symbol had between two of its updates, and no older than the start of the frame; every symbol
that had been updated by then has a row; and those shown are the twenty of them with the most updates (`frame_shows_latest`). This holds
as long as the odd test of `get_snapshot` does what it is for (`DisplaySys.SeqsDiffer`).
-/

namespace MarketFeed

open SeqlockAux DisplayAux DisplayIndexAux DisplayMirrorAux

variable {c : Capacity} {P : Type} {prices : DisplayPrices P}

namespace DisplaySys

/-- How many of the updates dispatched for a symbol the callback is through with. -/
def updatesDone (prices : DisplayPrices P) (s : DisplaySys c P) (i : UInt16) : Nat :=
  (s.updatesOf prices i).length - (s.callback.pending i).length

/-- A state that the symbol was in between two updates, at one of the states of the client from `s₀` to `s`. -/
def HadSince (prices : DisplayPrices P) (s₀ s : DisplaySys c P) (i : UInt16) (m : MarketState P) : Prop :=
  ∃ k, s₀.updatesDone prices i ≤ k ∧ k ≤ s.updatesDone prices i ∧ m = stateAfter prices.toPrices ((s.updatesOf prices i).take k)

end DisplaySys

namespace FramesAux

/-! ## The number of updates -/

/-- Whether a store is the increment of the count. -/
def isCount : FieldStore P → Bool
  | .updateCount => true
  | _ => false

theorem updateCount_applyStores (m : MarketState P) (stores : List (FieldStore P)) :
    (applyStores prices.toPrices m stores).updateCount = m.updateCount + UInt64.ofNat (stores.countP isCount) := by
  induction stores generalizing m with
  | nil => simp [applyStores]
  | cons f rest ih =>
    have hcons : applyStores prices.toPrices m (f :: rest) = applyStores prices.toPrices (f.apply prices.toPrices m) rest := rfl
    rw [hcons, ih]
    cases f with
    | updateCount =>
      simp only [FieldStore.apply, List.countP_cons, isCount, if_true]
      rw [UInt64.ofNat_add, UInt64.add_assoc, UInt64.add_comm 1]
      rfl
    | openPrice p =>
      simp only [FieldStore.apply, List.countP_cons, isCount]
      split <;> simp
    | _ => simp [FieldStore.apply, isCount]

theorem countP_stores (u : Update P) : (u.stores prices.toPrices).countP isCount = 1 := by
  cases u <;> rfl

theorem updateCount_stateAfter (us : List (Update P)) :
    (stateAfter prices.toPrices us).updateCount = UInt64.ofNat us.length := by
  induction us using List.reverseRecOn with
  | nil => rfl
  | append_singleton us u ih =>
    have hlast : stateAfter prices.toPrices (us ++ [u]) =
        applyStores prices.toPrices (stateAfter prices.toPrices us) (u.stores prices.toPrices) := by
      simp [stateAfter]
    rw [hlast, updateCount_applyStores, ih, countP_stores, List.length_append, List.length_singleton, UInt64.ofNat_add]

/-- An entry with a completed update has a count, in the middle of the next one too. -/
theorem updateCount_ne_zero {v : CacheSys P} (h : WriterOk prices.toPrices v) (hpos : 0 < v.completed.length)
    (hfew : v.completed.length < 2 ^ 63) : v.state.updateCount ≠ 0 := by
  have hcount : ∃ k ≤ 1, v.state.updateCount = UInt64.ofNat (v.completed.length + k) := by
    have hmade : ∀ (u : Update P) (made rest : List (FieldStore P)), u.stores prices.toPrices = made ++ rest →
        v.state = applyStores prices.toPrices (stateAfter prices.toPrices v.completed) made →
        ∃ k ≤ 1, v.state.updateCount = UInt64.ofNat (v.completed.length + k) := by
      intro u made rest hstores hstate
      refine ⟨made.countP isCount, ?_, ?_⟩
      · rw [← @countP_stores P prices u, hstores, List.countP_append]
        exact Nat.le_add_right _ _
      · rw [hstate, updateCount_applyStores, updateCount_stateAfter, UInt64.ofNat_add]
    obtain ⟨-, h⟩ := h
    cases hw : v.writer with
    | idle =>
      rw [hw] at h
      exact ⟨0, Nat.zero_le _, by rw [h, updateCount_stateAfter, Nat.add_zero]⟩
    | beginning u seq =>
      rw [hw] at h
      exact ⟨0, Nat.zero_le _, by rw [h.2, updateCount_stateAfter, Nat.add_zero]⟩
    | storing u rest =>
      rw [hw] at h
      obtain ⟨made, hstores, hstate⟩ := h
      exact hmade u made rest hstores hstate
    | ending u seq =>
      rw [hw] at h
      exact hmade u _ [] (List.append_nil _).symm h.2
  obtain ⟨k, hk, hcount⟩ := hcount
  rw [hcount]
  intro hzero
  have hnat := congrArg UInt64.toNat hzero
  rw [UInt64.toNat_ofNat_of_lt' (by rw [UInt64.size]; omega)] at hnat
  have hz : (0 : UInt64).toNat = 0 := rfl
  omega

/-! ## The scan of the symbols -/

/-- No count of updates has come round to zero. -/
def Few (prices : DisplayPrices P) (s : DisplaySys c P) : Prop := ∀ i, (s.updatesOf prices i).length < 2 ^ 63

/-- Rows in the order of their symbols, one for each symbol below `n` that has been updated before. -/
structure Scanned (base : UInt16 → Nat) (n : Nat) (rows : List (Row P)) : Prop where
  ascending : (rows.map Row.id).Pairwise (· < ·)
  below : ∀ row ∈ rows, row.id.toNat < n
  all : ∀ j : UInt16, j.toNat < n → 0 < base j → j ∈ rows.map Row.id

/-- The rows of a frame, at each point of its making up to the sort. -/
def ScanOk (numSymbols : UInt16) (base : UInt16 → Nat) : FramePc P → Prop
  | .scanning i rows => i ≤ numSymbols ∧ Scanned base i.toNat rows
  | .snapshot i rows _ => Scanned base i.toNat rows
  | .sorting rows => Scanned base numSymbols.toNat rows
  | _ => True

/-- The invariant: each symbol's entry is mirrored, and the rows are those of the scan. -/
structure FrameInv (prices : DisplayPrices P) (numSymbols : UInt16) (base : UInt16 → Nat) (s : DisplaySys c P) : Prop where
  display : DisplayInv prices numSymbols s
  mirrored : ∀ i, i < numSymbols → ∃ v, Mirrors prices (base i) i s v ∧ SeqInv prices.toPrices v
  scan : Few prices s → ScanOk numSymbols base s.frame

theorem FrameInv.init (c : Capacity) (numSymbols : UInt16) :
    FrameInv prices numSymbols (fun _ => 0) (DisplaySys.init prices c numSymbols) where
  display := .init c numSymbols
  mirrored := by
    intro i hi
    have hentry : (DisplaySys.init prices c numSymbols).entry prices i.toNat = { seq := 0, state := .empty prices.toPrices } := by
      unfold DisplaySys.entry DisplaySys.init SymbolCache.new
      dsimp only
      rw [dif_pos (UInt16.lt_iff_toNat_lt.mp hi), Vector.getElem_replicate]
    refine ⟨.init prices.toPrices, ⟨?_, ?_, rfl, ?_, ?_, rfl, ?_, Nat.zero_le _⟩, .init prices.toPrices⟩
    · rw [hentry]
      rfl
    · rw [hentry]
      rfl
    · intro r hr
      cases hr
    · intro _
      rfl
    · intro row hrow
      cases hrow
  scan := fun _ => trivial

/-- One more row. -/
theorem Scanned.snoc {base : UInt16 → Nat} {i : UInt16} {rows : List (Row P)} (h : Scanned base i.toNat rows) (state : MarketState P) :
    Scanned base (i.toNat + 1) (rows ++ [{ id := i, state := state }]) := by
  refine ⟨?_, ?_, ?_⟩
  · rw [List.map_append, List.pairwise_append]
    refine ⟨h.ascending, List.pairwise_singleton _ _, ?_⟩
    intro a ha b hb
    obtain ⟨row, hrow, rfl⟩ := List.mem_map.mp ha
    rw [List.map_singleton, List.mem_singleton] at hb
    subst hb
    exact UInt16.lt_iff_toNat_lt.mpr (h.below row hrow)
  · intro row hrow
    rcases List.mem_append.mp hrow with hold | hnew
    · exact Nat.lt_succ_of_lt (h.below row hold)
    · rw [List.mem_singleton] at hnew
      subst hnew
      exact Nat.lt_succ_self _
  · intro j hj hbase
    rw [List.map_append]
    rcases Nat.lt_or_eq_of_le (Nat.le_of_lt_succ hj) with hlt | heq
    · exact List.mem_append_left _ (h.all j hlt hbase)
    · rw [UInt16.toNat_inj.mp heq]
      exact List.mem_append_right _ List.mem_cons_self

/-- A symbol without a row, that has not been updated before. -/
theorem Scanned.skip {base : UInt16 → Nat} {i : UInt16} {rows : List (Row P)} (h : Scanned base i.toNat rows) (hbase : base i = 0) :
    Scanned base (i.toNat + 1) rows := by
  refine ⟨h.ascending, ?_, ?_⟩
  · intro row hrow
    exact Nat.lt_succ_of_lt (h.below row hrow)
  · intro j hj hpos
    rcases Nat.lt_or_eq_of_le (Nat.le_of_lt_succ hj) with hlt | heq
    · exact h.all j hlt hpos
    · rw [UInt16.toNat_inj.mp heq, hbase] at hpos
      exact absurd hpos (Nat.lt_irrefl 0)

theorem toNat_succ {i n : UInt16} (h : i < n) : (i + 1).toNat = i.toNat + 1 := by
  have hlt := UInt16.lt_iff_toNat_lt.mp h
  have hn := n.toNat_lt
  rw [UInt16.toNat_add, UInt16.toNat_one]
  exact Nat.mod_eq_of_lt (by omega)

theorem succ_le {i n : UInt16} (h : i < n) : i + 1 ≤ n := by
  rw [UInt16.le_iff_toNat_le, toNat_succ h]
  exact UInt16.lt_iff_toNat_lt.mp h

/-- A step of the visualizer goes on with the scan. -/
theorem scanOk_frameStep {numSymbols : UInt16} {base : UInt16 → Nat} {s s' : DisplaySys c P} {seq1 seq2 : UInt32} {order : List Nat}
    (h : FrameInv prices numSymbols base s) (hfew : Few prices s) (hs : s.frameStep prices seq1 seq2 order = some s') :
    ScanOk numSymbols base s'.frame := by
  have hscan := h.scan hfew
  unfold DisplaySys.frameStep at hs
  cases hframe : s.frame with
  | outside =>
    rw [hframe] at hs
    cases hs
    refine ⟨UInt16.le_iff_toNat_le.mpr (Nat.zero_le _), .nil, ?_, ?_⟩
    · intro row hrow
      cases hrow
    · intro j hj
      exact absurd hj (Nat.not_lt_zero _)
  | scanning i rows =>
    rw [hframe] at hs hscan
    obtain ⟨hle, hscan⟩ := hscan
    dsimp only at hs
    split at hs
    · rename_i hi
      rw [h.display.numSymbols_eq] at hi
      split at hs
      · rename_i hcount
        cases hs
        refine ⟨succ_le hi, ?_⟩
        rw [toNat_succ hi]
        -- an entry updated before the frame would have a count
        refine hscan.skip ?_
        by_contra hbase
        obtain ⟨v, hv, hinv⟩ := h.mirrored i hi
        have hfew' := hfew i
        rw [hv.updates, List.length_append] at hfew'
        refine updateCount_ne_zero hinv.writer ?_ (by omega) ?_
        · exact Nat.lt_of_lt_of_le (Nat.pos_of_ne_zero hbase) hv.base_le
        · rw [hv.state]
          exact (getUpdateCount_eq prices s i).symm.trans hcount
      · cases hs
        exact hscan
    · rename_i hi
      cases hs
      rw [h.display.numSymbols_eq] at hi
      have hend : i = numSymbols := UInt16.le_antisymm hle (UInt16.not_lt.mp hi)
      rw [hend] at hscan
      exact hscan
  | snapshot i rows reader =>
    have hshown := h.display.frame
    rw [hframe] at hs hscan hshown
    obtain ⟨view, -, rfl⟩ := Option.map_eq_some_iff.mp hs
    dsimp only
    split
    · exact hscan
    · refine ⟨succ_le hshown.1.2, ?_⟩
      rw [toNat_succ hshown.1.2]
      exact Scanned.snoc hscan _
  | sorting rows =>
    rw [hframe] at hs
    dsimp only at hs
    split at hs
    · cases hs
      trivial
    · cases hs
  | rendering rows =>
    rw [hframe] at hs
    cases rows with
    | nil =>
      cases hs
      trivial
    | cons row rows =>
      cases hs
      trivial

/-! ## Steps and runs -/

/-- Messages are dispatched one after the other. -/
theorem dispatched_prefix {s s' : DisplaySys c P} {e : DisplayEvent} (hs : s.step prices e = some s') :
    s.parser.dispatched <+: s'.parser.dispatched := by
  have hprocess : ∀ e : ParserEvent, s.processStep prices e = some s' → s.parser.dispatched <+: s'.parser.dispatched := by
    intro e hs
    unfold DisplaySys.processStep at hs
    split at hs
    · obtain ⟨parser, hparser, rfl⟩ := Option.map_eq_some_iff.mp hs
      rw [dispatched_step hparser]
      exact List.prefix_append _ _
    · cases hs
  cases e with
  | feed data t =>
    simp only [DisplaySys.step] at hs
    obtain ⟨parser, hparser, rfl⟩ := Option.map_eq_some_iff.mp hs
    rw [dispatched_step hparser]
    exact List.prefix_append _ _
  | resetStats =>
    cases hs
    exact List.prefix_refl _
  | process => exact hprocess _ hs
  | iterate now => exact hprocess _ hs
  | callback =>
    simp only [DisplaySys.step, DisplaySys.callbackStep] at hs
    split at hs
    · cases hs
    · split at hs <;> cases hs <;> exact List.prefix_refl _
    · obtain ⟨view, -, rfl⟩ := Option.map_eq_some_iff.mp hs
      exact List.prefix_refl _
  | frame seq1 seq2 order =>
    simp only [DisplaySys.step, DisplaySys.frameStep] at hs
    split at hs
    · cases hs
      exact List.prefix_refl _
    · split at hs
      · split at hs <;> cases hs <;> exact List.prefix_refl _
      · cases hs
        exact List.prefix_refl _
    · obtain ⟨view, -, rfl⟩ := Option.map_eq_some_iff.mp hs
      exact List.prefix_refl _
    · split at hs <;> cases hs
      exact List.prefix_refl _
    · cases hs
      exact List.prefix_refl _
    · cases hs
      rename_i row rows _
      have hparser : (s.renderRow prices row).parser = s.parser := (renderRow_kept s row).2.2
      dsimp only
      rw [hparser]

theorem Few.before {s s' : DisplaySys c P} {e : DisplayEvent} (h : Few prices s') (hs : s.step prices e = some s') :
    Few prices s := by
  intro i
  obtain ⟨rest, hrest⟩ := dispatched_prefix hs
  refine Nat.lt_of_le_of_lt ?_ (h i)
  unfold DisplaySys.updatesOf
  rw [← hrest, List.filterMap_append, List.filter_append, List.map_append, List.length_append]
  exact Nat.le_add_right _ _

/-- The threads of the network and of the parser, and the user, leave the visualizer where it is. -/
theorem frame_kept {s s' : DisplaySys c P} {e : DisplayEvent} (he : ∀ seq1 seq2 order, e ≠ .frame seq1 seq2 order)
    (hs : s.step prices e = some s') : s'.frame = s.frame := by
  have hprocess : ∀ e : ParserEvent, s.processStep prices e = some s' → s'.frame = s.frame := by
    intro e hs
    unfold DisplaySys.processStep at hs
    split at hs
    · obtain ⟨parser, -, rfl⟩ := Option.map_eq_some_iff.mp hs
      rfl
    · cases hs
  cases e with
  | feed data t =>
    simp only [DisplaySys.step] at hs
    obtain ⟨parser, -, rfl⟩ := Option.map_eq_some_iff.mp hs
    rfl
  | resetStats =>
    cases hs
    rfl
  | process => exact hprocess _ hs
  | iterate now => exact hprocess _ hs
  | callback =>
    simp only [DisplaySys.step, DisplaySys.callbackStep] at hs
    split at hs
    · cases hs
    · split at hs <;> cases hs <;> rfl
    · obtain ⟨view, -, rfl⟩ := Option.map_eq_some_iff.mp hs
      rfl
  | frame seq1 seq2 order => exact absurd rfl (he seq1 seq2 order)

theorem FrameInv.step {numSymbols : UInt16} {base : UInt16 → Nat} {s s' : DisplaySys c P} {e : DisplayEvent}
    (h : FrameInv prices numSymbols base s) (hok : s.SeqsDiffer e) (hs : s.step prices e = some s') :
    FrameInv prices numSymbols base s' := by
  refine ⟨h.display.step hs, ?_, ?_⟩
  · intro i hi
    obtain ⟨v, hv, hinv⟩ := h.mirrored i hi
    refine mirrored_step hv hinv ?_ hok hs
    rw [h.display.numSymbols_eq]
    exact UInt16.lt_iff_toNat_lt.mp hi
  · intro hfew'
    have hfew := hfew'.before hs
    by_cases he : ∃ seq1 seq2 order, e = .frame seq1 seq2 order
    · obtain ⟨seq1, seq2, order, rfl⟩ := he
      exact scanOk_frameStep h hfew hs
    · have hkept : s'.frame = s.frame := by
        refine frame_kept ?_ hs
        intro seq1 seq2 order heq
        exact he ⟨seq1, seq2, order, heq⟩
      rw [hkept]
      exact h.scan hfew

/-! ## The sort -/

/-- The sort leaves the rows that there are. -/
theorem perm_sorted {α : Type*} {order : List Nat} {rows : List α} (h : order.Perm (List.range rows.length)) :
    (order.filterMap (rows[·]?)).Perm rows := by
  have hrows : (List.range rows.length).filterMap (rows[·]?) = rows := by
    clear h
    induction rows with
    | nil => rfl
    | cons row rows ih =>
      rw [List.length_cons, List.range_succ_eq_map, List.filterMap_cons, List.getElem?_cons_zero, List.filterMap_map]
      exact congrArg (row :: ·) ih
  have hperm := h.filterMap (rows[·]?)
  rw [hrows] at hperm
  exact hperm

/-- The rows left out come after those shown. -/
theorem le_of_left_out {rows : List (Row P)} (h : rows.Pairwise fun a b => a.state.updateCount ≥ b.state.updateCount) {n : Nat}
    {row : Row P} (hrow : row ∈ rows) (hout : row ∉ rows.take n) :
    (rows.take n).length = n ∧ ∀ r ∈ rows.take n, row.state.updateCount ≤ r.state.updateCount := by
  rw [← List.take_append_drop n rows] at h hrow
  have hrest : row ∈ rows.drop n := (List.mem_append.mp hrow).resolve_left hout
  constructor
  · have hpos := List.length_pos_of_mem hrest
    rw [List.length_drop] at hpos
    rw [List.length_take]
    omega
  · intro r hr
    exact (List.pairwise_append.mp h).2.2 r hr row hrest

/-- What is mirrored has completed the updates that the callback is through with. -/
theorem updatesDone_eq {s : DisplaySys c P} {base : Nat} {i : UInt16} {v : CacheSys P} (h : Mirrors prices base i s v) :
    s.updatesDone prices i = v.completed.length := by
  unfold DisplaySys.updatesDone
  rw [h.updates, List.length_append, Nat.add_sub_cancel]

/-- Between two frames everything can be counted from there. -/
theorem FrameInv.rebase {numSymbols : UInt16} {base : UInt16 → Nat} {s : DisplaySys c P} (h : FrameInv prices numSymbols base s)
    (hframe : s.frame = .outside) : FrameInv prices numSymbols (s.updatesDone prices) s := by
  refine ⟨h.display, ?_, ?_⟩
  · intro i hi
    obtain ⟨v, hv, hinv⟩ := h.mirrored i hi
    refine ⟨v, ⟨hv.seq, hv.state, hv.writer, ?_, hv.idle, hv.updates, ?_, ?_⟩, hinv⟩
    · intro r hr
      rw [hframe] at hr
      cases hr
    · intro row hrow
      rw [hframe] at hrow
      cases hrow
    · exact Nat.le_of_eq (updatesDone_eq hv)
  · intro _
    rw [hframe]
    trivial

/-- A row is a state that its symbol had since the frame was begun. -/
theorem hadSince_row {s₀ s : DisplaySys c P} {i : UInt16} {v : CacheSys P} (h : Mirrors prices (s₀.updatesDone prices i) i s v)
    (hinv : SeqInv prices.toPrices v) (hfew : s.updatesDone prices i < s₀.updatesDone prices i + 2 ^ 31) {row : Row P}
    (hrow : row ∈ s.frame.rows) (hid : row.id = i) : DisplaySys.HadSince prices s₀ s i row.state := by
  obtain ⟨r, hr, hstate, hbefore⟩ := h.rows row hrow hid
  obtain ⟨hafter, hwhole⟩ := hinv.returned r hr
  have hdone := updatesDone_eq h
  obtain ⟨k, hk, hk', heq⟩ := hwhole (by omega)
  refine ⟨k, Nat.le_trans hbefore hk, ?_, ?_⟩
  · rw [hdone]
    exact Nat.le_trans hk' hafter
  · rw [h.updates, List.take_append_of_le_length (Nat.le_trans hk' hafter), ← hstate]
    exact heq

end FramesAux

open FramesAux

/-- A frame begun in the state `s₀`, for every interleaving with the threads of the network and of the parser and with the user. It shows
twenty symbols at most, each once and in the order of their counts, and each as it was between two of its updates at some point since the
frame was begun. A symbol that had been updated by then is shown, unless twenty others are that had as many updates as this one had at
some point since. -/
theorem frame_shows_latest {P : Type} (prices : DisplayPrices P) (c : Capacity) (numSymbols : UInt16) (es es' : List DisplayEvent)
    (s₀ s s' : DisplaySys c P) (seq1 seq2 : UInt32) (order : List Nat) (rows shown : List (Row P))
    (h₀ : Run.exec (DisplaySys.step prices) (.init prices c numSymbols) es = some s₀)
    (hok₀ : Run.Along (DisplaySys.step prices) DisplaySys.SeqsDiffer (.init prices c numSymbols) es) (hframe : s₀.frame = .outside)
    (h : Run.exec (DisplaySys.step prices) s₀ es' = some s)
    (hok : Run.Along (DisplaySys.step prices) DisplaySys.SeqsDiffer s₀ es')
    (hfew : ∀ i, s.updatesDone prices i < s₀.updatesDone prices i + 2 ^ 31) (hcount : ∀ i, (s.updatesOf prices i).length < 2 ^ 63)
    (hrows : s.frame = .sorting rows) (hs : s.step prices (.frame seq1 seq2 order) = some s') (hshown : s'.frame = .rendering shown) :
    shown.length ≤ topNSymbols ∧ (shown.map Row.id).Nodup ∧
      shown.Pairwise (fun a b => a.state.updateCount ≥ b.state.updateCount) ∧
      (∀ row ∈ shown, row.id < numSymbols ∧ row.id < maxSymbols ∧ DisplaySys.HadSince prices s₀ s row.id row.state) ∧
      ∀ i < numSymbols, 0 < s₀.updatesDone prices i → i ∈ shown.map Row.id ∨
        shown.length = topNSymbols ∧ ∃ m, DisplaySys.HadSince prices s₀ s i m ∧ ∀ row ∈ shown, m.updateCount ≤ row.state.updateCount := by
  have hstep : ∀ (base : UInt16 → Nat) (s : DisplaySys c P) e s', FrameInv prices numSymbols base s → s.SeqsDiffer e →
      s.step prices e = some s' → FrameInv prices numSymbols base s' := fun _ _ _ _ hinv hok hs => hinv.step hok hs
  have hinv₀ := Run.exec_invariant_along (hstep _) (FrameInv.init c numSymbols) hok₀ h₀
  have hinv := Run.exec_invariant_along (hstep _) (hinv₀.rebase hframe) hok h
  have hscanned := hinv.scan hcount
  have hdisplay := hinv.display.frame
  rw [hrows] at hscanned hdisplay
  have hhad : ∀ row ∈ rows, DisplaySys.HadSince prices s₀ s row.id row.state := by
    intro row hrow
    obtain ⟨v, hv, hseq⟩ := hinv.mirrored row.id (hdisplay row hrow).2
    exact hadSince_row hv hseq (hfew row.id) (by rw [hrows]; exact hrow) rfl
  simp only [DisplaySys.step, DisplaySys.frameStep, hrows] at hs
  split at hs
  · rename_i hsort
    obtain ⟨horder, hsorted⟩ := hsort
    cases hs
    cases hshown
    have hperm := perm_sorted horder
    refine ⟨List.length_take_le _ _, ?_, hsorted.sublist (List.take_sublist _ _), ?_, ?_⟩
    · have hnodup : (rows.map Row.id).Nodup := hscanned.ascending.imp fun hlt => UInt16.ne_of_lt hlt
      exact ((hperm.map Row.id).nodup_iff.mpr hnodup).sublist ((List.take_sublist _ _).map _)
    · intro row hrow
      have hmem := hperm.mem_iff.mp (List.mem_of_mem_take hrow)
      exact ⟨(hdisplay row hmem).2, (hdisplay row hmem).1, hhad row hmem⟩
    · intro i hi hbase
      obtain ⟨row, hrow, rfl⟩ := List.mem_map.mp (hscanned.all i (UInt16.lt_iff_toNat_lt.mp hi) hbase)
      by_cases hin : row ∈ (order.filterMap (rows[·]?)).take topNSymbols
      · exact .inl (List.mem_map_of_mem hin)
      · obtain ⟨hlength, hle⟩ := le_of_left_out hsorted (hperm.mem_iff.mpr hrow) hin
        exact .inr ⟨hlength, row.state, hhad row hrow, hle⟩
  · cases hs

namespace FramesAux

/-- No more updates than messages. -/
theorem length_updatesOf_le (s : DisplaySys c P) (i : UInt16) : (s.updatesOf prices i).length ≤ s.parser.dispatched.length := by
  unfold DisplaySys.updatesOf
  rw [List.length_map]
  exact Nat.le_trans (List.length_filter_le _ _) (List.length_filterMap_le _ _)

/-- A trade of each of the first two symbols, and another one of the second. -/
def liveTrades : List UInt8 :=
  emitTrade 0 1 5 ⟨0x4059000000000000, 10⟩ ++ emitTrade 1 2 6 ⟨0x4059000000000000, 10⟩ ++
    emitTrade 1 3 7 ⟨0x4059000000000001, 20⟩

/-- All of it is fed, and the first two are processed. -/
def beforeFrame : List DisplayEvent :=
  [.feed liveTrades 9, .process, .iterate 10] ++ List.replicate 9 .callback ++ [.iterate 11] ++ List.replicate 9 .callback

/-- The last trade is processed between the snapshots of the two symbols. -/
def duringFrame : List DisplayEvent :=
  List.replicate 16 (.frame 0 0 []) ++ [.iterate 12] ++ List.replicate 9 .callback ++ List.replicate 17 (.frame 0 0 [])

end FramesAux

/-- The runs `beforeFrame` and `duringFrame`, with a third symbol that has no row. -/
theorem frame_shows_latest_liveRun :
    ∃ s₀ s s' shown, Run.exec (DisplaySys.step bitPrices) (.init bitPrices recvBufSize 3) beforeFrame = some s₀ ∧
      Run.exec (DisplaySys.step bitPrices) s₀ duringFrame = some s ∧ s.step bitPrices (.frame 0 0 [1, 0]) = some s' ∧
      s'.frame = .rendering shown ∧ shown.map (fun row => (row.id, row.state.updateCount)) = [(1, 2), (0, 1)] ∧
      ∀ row ∈ shown, DisplaySys.HadSince bitPrices s₀ s row.id row.state := by
  have hrun : ∃ s₀, Run.exec (DisplaySys.step bitPrices) (.init bitPrices recvBufSize 3) beforeFrame = some s₀ ∧
      Run.Along (DisplaySys.step bitPrices) DisplaySys.SeqsDiffer (.init bitPrices recvBufSize 3) beforeFrame ∧
      s₀.frame = .outside ∧ Run.Along (DisplaySys.step bitPrices) DisplaySys.SeqsDiffer s₀ duringFrame ∧
      ∃ s, Run.exec (DisplaySys.step bitPrices) s₀ duringFrame = some s ∧ s.parser.dispatched.length = 3 ∧
        s.frame = .sorting s.frame.rows ∧ ∃ s', s.step bitPrices (.frame 0 0 [1, 0]) = some s' ∧
          s'.frame = .rendering s'.frame.rows ∧
          s'.frame.rows.map (fun row => (row.id, row.state.updateCount)) = [(1, 2), (0, 1)] := by
    decide +kernel
  obtain ⟨s₀, h₀, hok₀, hframe, hok, s, h, hdispatched, hrows, s', hs, hshown, hids⟩ := hrun
  have hupdates : ∀ i, (s.updatesOf bitPrices i).length ≤ 3 := by
    intro i
    rw [← hdispatched]
    exact length_updatesOf_le s i
  have hdone : ∀ i, s.updatesDone bitPrices i ≤ 3 := by
    intro i
    exact Nat.le_trans (Nat.sub_le _ _) (hupdates i)
  have hlatest := frame_shows_latest bitPrices recvBufSize 3 beforeFrame duringFrame s₀ s s' 0 0 [1, 0] _ _ h₀ hok₀ hframe h hok
    (fun i => by have := hdone i; omega) (fun i => by have := hupdates i; omega) hrows hs hshown
  exact ⟨s₀, s, s', _, h₀, h, hs, hshown, hids, fun row hrow => (hlatest.2.2.2.1 row hrow).2.2⟩

end MarketFeed
