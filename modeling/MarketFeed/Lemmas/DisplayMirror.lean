import MarketFeed.Theorems.DisplayIndex
import MarketFeed.Theorems.Seqlock

/-!
# An entry of the cache, seen from the client

The parse thread and the visualizer go over all symbols; for one symbol, what they do to its entry is what the writer and the reader of
`CacheSys` do. `Mirrors` says so of a state of the client and a state of the entry with its writer and its reader, and each step of the
client is a step of the entry or none (`mirrored_step`). With this, what holds of every snapshot of an entry holds of every row of a
frame.
-/

namespace MarketFeed

open SeqlockAux DisplayAux

variable {c : Capacity} {P : Type}

/-! ## The parts of a symbol -/

/-- The update that a writer is at. -/
def WriterPc.pending : WriterPc P → List (Update P)
  | .idle => []
  | .beginning u _ => [u]
  | .storing u _ => [u]
  | .ending u _ => [u]

/-- The update of a symbol that the callback is at. -/
def CallbackPc.pending (i : UInt16) : CallbackPc P → List (Update P)
  | .idle => []
  | .called call => if call.symbolId = i then [call.toUpdate] else []
  | .updating symbolId pc => if symbolId = i then pc.pending else []

/-- The writer of a symbol's entry. -/
def CallbackPc.writer (i : UInt16) : CallbackPc P → WriterPc P
  | .updating symbolId pc => if symbolId = i then pc else .idle
  | _ => .idle

/-- The rows of a frame so far, or those left to show. -/
def FramePc.rows : FramePc P → List (Row P)
  | .outside => []
  | .scanning _ rows => rows
  | .snapshot _ rows _ => rows
  | .sorting rows => rows
  | .rendering rows => rows

/-- The symbol and the locals of the `get_snapshot` that the visualizer is in. -/
def FramePc.reader : FramePc P → Option (UInt16 × Reader P)
  | .snapshot i _ reader => some (i, reader)
  | _ => none

namespace DisplaySys

/-- The updates that the parser has dispatched for a symbol. -/
def updatesOf (prices : DisplayPrices P) (s : DisplaySys c P) (i : UInt16) : List (Update P) :=
  ((s.parser.dispatched.filterMap (MarketFeed.callback prices)).filter fun call => call.symbolId = i).map CacheCall.toUpdate

/-- The odd test of `get_snapshot` does not find `seq1` odd and equal to `seq2`. -/
def SeqsDiffer (s : DisplaySys c P) : DisplayEvent → Prop
  | .frame .. => ∀ x ∈ s.frame.reader, x.2.pc = .test → x.2.seq1 &&& 1 ≠ 0 → x.2.seq1 ≠ x.2.seq2
  | _ => True

instance (s : DisplaySys c P) : (e : DisplayEvent) → Decidable (s.SeqsDiffer e)
  | .frame .. => inferInstanceAs (Decidable (∀ x ∈ s.frame.reader, x.2.pc = .test → x.2.seq1 &&& 1 ≠ 0 → x.2.seq1 ≠ x.2.seq2))
  | .feed .. => isTrue trivial
  | .resetStats => isTrue trivial
  | .process => isTrue trivial
  | .iterate _ => isTrue trivial
  | .callback => isTrue trivial

end DisplaySys

/-- Two readers at the same point with the same locals. -/
structure SameReader (r r' : Reader P) : Prop where
  pc : r.pc = r'.pc
  s : r.s = r'.s
  seq1 : r.seq1 = r'.seq1
  seq2 : r.seq2 = r'.seq2

/-- The entry of a symbol in the client is this one, with the writer and the reader there are; every row of the symbol is a snapshot that
was returned, by a call made when `base` updates had been completed at least. -/
structure Mirrors (prices : DisplayPrices P) (base : Nat) (i : UInt16) (s : DisplaySys c P) (v : CacheSys P) : Prop where
  seq : v.seq = (s.entry prices i.toNat).seq
  state : v.state = (s.entry prices i.toNat).state
  writer : v.writer = s.callback.writer i
  reading : ∀ r, s.frame.reader = some (i, r) → SameReader v.reader r ∧ base ≤ v.reader.before
  idle : (∀ r, s.frame.reader ≠ some (i, r)) → v.reader.pc = .idle
  updates : s.updatesOf prices i = v.completed ++ s.callback.pending i
  rows : ∀ row ∈ s.frame.rows, row.id = i → ∃ r ∈ v.returned, r.state = row.state ∧ base ≤ r.before
  base_le : base ≤ v.completed.length

variable {prices : DisplayPrices P} {base : Nat} {i : UInt16} {s s' : DisplaySys c P} {v : CacheSys P}

/-- A step of the visualizer outside the `get_snapshot` of the symbol. -/
theorem Mirrors.frame (h : Mirrors prices base i s v) (hcache : s'.cache = s.cache) (hcallback : s'.callback = s.callback)
    (hparser : s'.parser = s.parser) (hold : ∀ r, s.frame.reader ≠ some (i, r)) (hnew : ∀ r, s'.frame.reader ≠ some (i, r))
    (hrows : ∀ row ∈ s'.frame.rows, row.id = i → row ∈ s.frame.rows) : Mirrors prices base i s' v := by
  have hentry : s'.entry prices i.toNat = s.entry prices i.toNat := by
    unfold DisplaySys.entry
    rw [hcache]
  refine ⟨?_, ?_, ?_, ?_, ?_, ?_, ?_, h.base_le⟩
  · rw [hentry]
    exact h.seq
  · rw [hentry]
    exact h.state
  · rw [hcallback]
    exact h.writer
  · intro r hr
    exact absurd hr (hnew r)
  · intro _
    exact h.idle hold
  · unfold DisplaySys.updatesOf
    rw [hparser, hcallback]
    exact h.updates
  · intro row hrow hid
    exact h.rows row (hrows row hrow hid) hid

namespace DisplayMirrorAux

/-! ## The parse thread -/

/-- What a step of the parser dispatches. -/
theorem dispatched_step {p p' : ParserSys c} {e : ParserEvent} (hs : p.step e = some p') :
    p'.dispatched = p.dispatched ++ (match e with
      | .iterate _ => p.parser.iterate.bind fun x => x.2.message
      | _ => none).toList := by
  cases e with
  | feed data t =>
    cases hs
    simp [ParserSys.dispatched]
  | call =>
    simp only [ParserSys.step] at hs
    split at hs
    · cases hs
      simp [ParserSys.dispatched]
    · cases hs
  | iterate now =>
    simp only [ParserSys.step] at hs
    split at hs
    · cases hs
    · split at hs
      · rename_i hnone
        cases hs
        simp [ParserSys.dispatched, hnone]
      · rename_i p₁ o hsome
        cases hs
        simp only [ParserSys.dispatched, List.filterMap_append, hsome, Option.bind_some]
        cases hmessage : o.message <;> simp [hmessage]

/-- What a message brings for a symbol is what the callback is called with. -/
theorem updates_message (message : Option ParsedMessage) :
    ((message.toList.filterMap (MarketFeed.callback prices)).filter fun call => call.symbolId = i).map CacheCall.toUpdate =
      CallbackPc.pending i (match message.bind (MarketFeed.callback prices) with
        | some call => .called call
        | none => .idle) := by
  cases message with
  | none => rfl
  | some pm =>
    cases hcall : MarketFeed.callback prices pm with
    | none => simp [hcall, CallbackPc.pending]
    | some call =>
      by_cases hid : call.symbolId = i
      · simp [hcall, CallbackPc.pending, hid]
      · simp [hcall, CallbackPc.pending, hid]

theorem mirrored_processStep {e : ParserEvent} (h : Mirrors prices base i s v) (hs : s.processStep prices e = some s') :
    Mirrors prices base i s' v := by
  unfold DisplaySys.processStep at hs
  split at hs
  · rename_i hcallback
    obtain ⟨parser, hparser, rfl⟩ := Option.map_eq_some_iff.mp hs
    have hupdates := h.updates
    have hwriter := h.writer
    rw [hcallback] at hupdates hwriter
    refine ⟨h.seq, h.state, ?_, h.reading, h.idle, ?_, h.rows, h.base_le⟩
    · rw [hwriter]
      dsimp only
      split <;> rfl
    · have hold : DisplaySys.updatesOf prices s i = v.completed := hupdates.trans (List.append_nil _)
      unfold DisplaySys.updatesOf at hold ⊢
      dsimp only
      rw [dispatched_step hparser, List.filterMap_append, List.filter_append, List.map_append, hold]
      exact congrArg _ (updates_message _)
  · cases hs

/-- The same writer on an entry that looks the same. -/
theorem writeStep_same {w w' : CacheSys P} (hseq : v.seq = w.seq) (hstate : v.state = w.state) (hwriter : v.writer = w.writer)
    (hs : w.writeStep prices.toPrices = some w') :
    ∃ v', v.writeStep prices.toPrices = some v' ∧ v'.seq = w'.seq ∧ v'.state = w'.state ∧ v'.writer = w'.writer ∧
      v'.reader = v.reader ∧ v'.returned = v.returned ∧ v'.completed ++ w'.writer.pending = v.completed ++ w.writer.pending ∧
      v.completed.length ≤ v'.completed.length := by
  unfold CacheSys.writeStep at hs ⊢
  rw [hwriter]
  cases hpc : w.writer with
  | idle =>
    rw [hpc] at hs
    cases hs
  | beginning u seq =>
    rw [hpc] at hs
    cases hs
    exact ⟨_, rfl, rfl, hstate, rfl, rfl, rfl, rfl, Nat.le_refl _⟩
  | storing u rest =>
    rw [hpc] at hs
    cases rest with
    | nil =>
      cases hs
      exact ⟨_, rfl, hseq, hstate, by rw [hseq], rfl, rfl, rfl, Nat.le_refl _⟩
    | cons f rest =>
      cases hs
      exact ⟨_, rfl, hseq, by rw [hstate], rfl, rfl, rfl, rfl, Nat.le_refl _⟩
  | ending u seq =>
    rw [hpc] at hs
    cases hs
    exact ⟨_, rfl, rfl, hstate, rfl, rfl, rfl, by simp [WriterPc.pending], by simp⟩

theorem mirrored_callbackStep (h : Mirrors prices base i s v) (hinv : SeqInv prices.toPrices v)
    (hi : i.toNat < s.cache.numSymbols.toNat) (hs : s.callbackStep prices = some s') :
    ∃ v', Mirrors prices base i s' v' ∧ SeqInv prices.toPrices v' := by
  have hupdates := h.updates
  have hwriter := h.writer
  unfold DisplaySys.callbackStep at hs
  cases hcallback : s.callback with
  | idle =>
    rw [hcallback] at hs
    cases hs
  | called call =>
    rw [hcallback] at hs hupdates hwriter
    dsimp only at hs
    split at hs
    · -- a symbol that the cache has no entry for
      rename_i hrange
      cases hs
      have hne : call.symbolId ≠ i := by
        rintro rfl
        exact absurd (UInt16.le_iff_toNat_le.mp hrange) (Nat.not_le.mpr hi)
      refine ⟨v, ⟨h.seq, h.state, hwriter, h.reading, h.idle, ?_, h.rows, h.base_le⟩, hinv⟩
      rw [CallbackPc.pending, if_neg hne] at hupdates
      exact hupdates
    · cases hs
      by_cases hid : call.symbolId = i
      · subst hid
        have hstep : v.step prices.toPrices (.update call.toUpdate) = some { v with writer := .beginning call.toUpdate v.seq } := by
          have hidle : v.writer = .idle := hwriter
          simp only [CacheSys.step, hidle]
        refine ⟨{ v with writer := .beginning call.toUpdate v.seq }, ⟨h.seq, h.state, ?_, h.reading, h.idle, ?_, h.rows, h.base_le⟩,
          SeqInv.step (e := .update call.toUpdate) hinv trivial hstep⟩
        · simp only [CallbackPc.writer, if_pos, h.seq]
        · rw [CallbackPc.pending, if_pos rfl] at hupdates
          simp only [CallbackPc.pending, if_pos, WriterPc.pending]
          exact hupdates
      · refine ⟨v, ⟨h.seq, h.state, ?_, h.reading, h.idle, ?_, h.rows, h.base_le⟩, hinv⟩
        · simp only [CallbackPc.writer, if_neg hid]
          exact hwriter
        · rw [CallbackPc.pending, if_neg hid] at hupdates
          simp only [CallbackPc.pending, if_neg hid]
          exact hupdates
  | updating symbolId pc =>
    rw [hcallback] at hs hupdates hwriter
    obtain ⟨view, hview, rfl⟩ := Option.map_eq_some_iff.mp hs
    by_cases hid : symbolId = i
    · subst hid
      rw [CallbackPc.writer, if_pos rfl] at hwriter
      rw [CallbackPc.pending, if_pos rfl] at hupdates
      obtain ⟨v', hv', hseq, hstate, hwriter', hreader, hreturned, hcompleted, hle⟩ := writeStep_same h.seq h.state hwriter hview
      have hentry : (s.setEntry symbolId.toNat { seq := view.seq, state := view.state }).entry prices symbolId.toNat =
          { seq := view.seq, state := view.state } := (entry_setEntry s _ _ _).trans (if_pos ⟨rfl, hi⟩)
      refine ⟨v', ⟨?_, ?_, ?_, ?_, ?_, ?_, ?_, Nat.le_trans h.base_le hle⟩, SeqInv.step (e := .write) hinv trivial hv'⟩
      · exact hseq.trans (congrArg CacheEntry.seq hentry).symm
      · exact hstate.trans (congrArg CacheEntry.state hentry).symm
      · rw [hwriter']
        dsimp only
        cases view.writer <;> simp [CallbackPc.writer]
      · rw [hreader]
        exact h.reading
      · rw [hreader]
        exact h.idle
      · refine hupdates.trans (hcompleted.symm.trans (congrArg _ ?_))
        dsimp only
        cases view.writer <;> simp [CallbackPc.pending, WriterPc.pending]
      · rw [hreturned]
        exact h.rows
    · have hentry : (s.setEntry symbolId.toNat { seq := view.seq, state := view.state }).entry prices i.toNat =
          s.entry prices i.toNat := by
        refine (entry_setEntry s _ _ _).trans (if_neg ?_)
        rintro ⟨heq, -⟩
        exact hid (UInt16.toNat_inj.mp heq.symm)
      rw [CallbackPc.writer, if_neg hid] at hwriter
      rw [CallbackPc.pending, if_neg hid] at hupdates
      refine ⟨v, ⟨?_, ?_, ?_, h.reading, h.idle, ?_, h.rows, h.base_le⟩, hinv⟩
      · exact h.seq.trans (congrArg CacheEntry.seq hentry).symm
      · exact h.state.trans (congrArg CacheEntry.state hentry).symm
      · rw [hwriter]
        dsimp only
        split
        · rfl
        · simp only [CallbackPc.writer, if_neg hid]
      · refine hupdates.trans (congrArg _ ?_)
        dsimp only
        split
        · rfl
        · simp only [CallbackPc.pending, if_neg hid]

/-! ## The visualizer -/

/-- The same reader on an entry that looks the same: it goes on, or it returns the same. -/
theorem readStep_same {w w' : CacheSys P} (hseq : v.seq = w.seq) (hstate : v.state = w.state) (hreader : SameReader v.reader w.reader)
    (hreturned : w.returned = []) (hs : w.readStep = some w') :
    ∃ v', v.readStep = some v' ∧ v'.seq = v.seq ∧ v'.state = v.state ∧ v'.writer = v.writer ∧ v'.completed = v.completed ∧
      (w'.returned = [] ∧ SameReader v'.reader w'.reader ∧ v'.reader.before = v.reader.before ∧ v'.returned = v.returned ∨
        ∃ r, w'.returned = [r] ∧ v'.reader.pc = .idle ∧
          v'.returned = v.returned ++ [⟨r.state, v.reader.before, v.completed.length⟩]) := by
  obtain ⟨hpc, hcopy, hseq1, hseq2⟩ := hreader
  unfold CacheSys.readStep at hs ⊢
  rw [hpc]
  cases hw : w.reader.pc with
  | idle =>
    rw [hw] at hs
    cases hs
  | top =>
    rw [hw] at hs
    cases hs
    exact ⟨_, rfl, rfl, rfl, rfl, rfl, .inl ⟨hreturned, ⟨rfl, hcopy, hseq, hseq2⟩, rfl, rfl⟩⟩
  | test =>
    rw [hw] at hs
    dsimp only at hs ⊢
    rw [hseq1]
    split at hs
    · rename_i hodd
      cases hs
      rw [if_pos hodd]
      exact ⟨_, rfl, rfl, rfl, rfl, rfl, .inl ⟨hreturned, ⟨rfl, hcopy, rfl, hseq2⟩, rfl, rfl⟩⟩
    · rename_i heven
      cases hs
      rw [if_neg heven]
      exact ⟨_, rfl, rfl, rfl, rfl, rfl, .inl ⟨hreturned, ⟨rfl, hcopy, rfl, hseq2⟩, rfl, rfl⟩⟩
  | copying rest =>
    rw [hw] at hs
    cases rest with
    | nil =>
      cases hs
      exact ⟨_, rfl, rfl, rfl, rfl, rfl, .inl ⟨hreturned, ⟨rfl, hcopy, hseq1, hseq2⟩, rfl, rfl⟩⟩
    | cons f rest =>
      cases hs
      exact ⟨_, rfl, rfl, rfl, rfl, rfl, .inl ⟨hreturned, ⟨rfl, by rw [hstate, hcopy], hseq1, hseq2⟩, rfl, rfl⟩⟩
  | second =>
    rw [hw] at hs
    cases hs
    exact ⟨_, rfl, rfl, rfl, rfl, rfl, .inl ⟨hreturned, ⟨rfl, hcopy, hseq1, hseq⟩, rfl, rfl⟩⟩
  | condition =>
    rw [hw] at hs
    dsimp only at hs ⊢
    rw [hseq1, hseq2]
    split at hs
    · rename_i hdiffer
      cases hs
      rw [if_pos hdiffer]
      exact ⟨_, rfl, rfl, rfl, rfl, rfl, .inl ⟨hreturned, ⟨rfl, hcopy, rfl, rfl⟩, rfl, rfl⟩⟩
    · rename_i hsame
      cases hs
      rw [if_neg hsame]
      refine ⟨_, rfl, rfl, rfl, rfl, rfl, .inr ⟨⟨w.reader.s, w.reader.before, w.completed.length⟩, ?_, rfl, ?_⟩⟩
      · rw [hreturned]
        rfl
      · rw [hcopy]

/-- A row shown leaves everything but the prices of the visualizer as it is. -/
theorem renderRow_kept (s : DisplaySys c P) (row : Row P) :
    (s.renderRow prices row).cache = s.cache ∧ (s.renderRow prices row).callback = s.callback ∧
      (s.renderRow prices row).parser = s.parser := by
  unfold DisplaySys.renderRow DisplaySys.storeOpenSet DisplaySys.storeOpenPrice DisplaySys.access
  dsimp only
  refine ⟨?_, ?_, ?_⟩ <;> split <;> split <;> split <;> rfl

/-- A step of the visualizer in the `get_snapshot` of the symbol. -/
theorem mirrored_reading {rows : List (Row P)} {reader : Reader P} {view : CacheSys P} (h : Mirrors prices base i s v)
    (hinv : SeqInv prices.toPrices v) (hframe : s.frame = .snapshot i rows reader)
    (hok : reader.pc = .test → reader.seq1 &&& 1 ≠ 0 → reader.seq1 ≠ reader.seq2)
    (hview : ({ CacheSys.init prices.toPrices with
        seq := (s.entry prices i.toNat).seq, state := (s.entry prices i.toNat).state, reader := reader } : CacheSys P).readStep =
      some view) :
    ∃ v', Mirrors prices base i { s with frame := match view.returned with
        | [] => .snapshot i rows view.reader
        | snapshot :: _ => .scanning (i + 1) (rows ++ [{ id := i, state := snapshot.state }]) } v' ∧
      SeqInv prices.toPrices v' := by
  obtain ⟨hsame, hbefore⟩ := h.reading reader (by rw [hframe]; rfl)
  have hrows := h.rows
  rw [hframe] at hrows
  have hok' : v.SeqsDiffer .read := by
    intro hpc
    rw [hsame.pc] at hpc
    rw [hsame.seq1, hsame.seq2]
    exact hok hpc
  obtain ⟨v', hv', hseq, hstate, hwriter, hcompleted, ⟨hnone, hreader, hbefore', hreturned⟩ | ⟨r, hone, hidle, hreturned⟩⟩ :=
    readStep_same h.seq h.state hsame rfl hview
  · refine ⟨v', ⟨?_, ?_, ?_, ?_, ?_, ?_, ?_, ?_⟩, hinv.readStep hok' hv'⟩
    · exact hseq.trans h.seq
    · exact hstate.trans h.state
    · exact hwriter.trans h.writer
    · intro r hr
      rw [hnone] at hr
      cases hr
      exact ⟨hreader, hbefore'.symm ▸ hbefore⟩
    · intro hr
      rw [hnone] at hr
      exact absurd rfl (hr view.reader)
    · rw [hcompleted]
      exact h.updates
    · rw [hnone, hreturned]
      exact hrows
    · rw [hcompleted]
      exact h.base_le
  · refine ⟨v', ⟨?_, ?_, ?_, ?_, ?_, ?_, ?_, ?_⟩, hinv.readStep hok' hv'⟩
    · exact hseq.trans h.seq
    · exact hstate.trans h.state
    · exact hwriter.trans h.writer
    · intro r' hr
      rw [hone] at hr
      cases hr
    · intro _
      exact hidle
    · rw [hcompleted]
      exact h.updates
    · rw [hone, hreturned]
      intro row hrow hid
      rcases List.mem_append.mp hrow with hold | hnew
      · obtain ⟨r', hr', hstate', hle⟩ := hrows row hold hid
        exact ⟨r', List.mem_append_left _ hr', hstate', hle⟩
      · rw [List.mem_singleton] at hnew
        subst hnew
        exact ⟨_, List.mem_append_right _ List.mem_cons_self, rfl, hbefore⟩
    · rw [hcompleted]
      exact h.base_le

/-- A step of the visualizer in its loop over the symbols; at the symbol itself, if it has been updated, the call of `get_snapshot`. -/
theorem mirrored_scanning {seq1 seq2 : UInt32} {order : List Nat} {j : UInt16} {rows : List (Row P)} (h : Mirrors prices base i s v)
    (hinv : SeqInv prices.toPrices v) (hframe : s.frame = .scanning j rows) (hs : s.frameStep prices seq1 seq2 order = some s') :
    ∃ v', Mirrors prices base i s' v' ∧ SeqInv prices.toPrices v' := by
  unfold DisplaySys.frameStep at hs
  rw [hframe] at hs
  have hnone : ∀ r, s.frame.reader ≠ some (i, r) := by simp [hframe, FramePc.reader]
  have hrows : ∀ row ∈ rows, row.id = i → row ∈ s.frame.rows := by
    rw [hframe]
    intro row hrow _
    exact hrow
  dsimp only at hs
  split at hs
  · split at hs
    · cases hs
      exact ⟨v, h.frame rfl rfl rfl hnone (by simp [FramePc.reader]) hrows, hinv⟩
    · cases hs
      by_cases hij : j = i
      · -- the call of `get_snapshot` for the symbol
        subst hij
        have hcall : v.step prices.toPrices (.getSnapshot (.empty prices.toPrices) seq1 seq2) =
            some { v with reader := {
              pc := .top, s := .empty prices.toPrices, seq1, seq2, before := v.completed.length, at1 := 0 } } := by
          simp only [CacheSys.step, h.idle hnone]
        refine ⟨_, ?_, SeqInv.step (e := .getSnapshot (.empty prices.toPrices) seq1 seq2) hinv trivial hcall⟩
        refine ⟨h.seq, h.state, h.writer, ?_, ?_, h.updates, ?_, h.base_le⟩
        · intro r hr
          cases hr
          exact ⟨⟨rfl, rfl, rfl, rfl⟩, h.base_le⟩
        · intro hr
          exact absurd rfl (hr _)
        · intro row hrow hid
          exact h.rows row (hrows row hrow hid) hid
      · have hother : ∀ (s : DisplaySys c P) (reader : Reader P), s.frame = .snapshot j rows reader →
            ∀ r, s.frame.reader ≠ some (i, r) := by
          intro s reader hs r hr
          rw [hs] at hr
          cases hr
          exact hij rfl
        exact ⟨v, h.frame rfl rfl rfl hnone (hother _ _ rfl) hrows, hinv⟩
  · cases hs
    exact ⟨v, h.frame rfl rfl rfl hnone (by simp [FramePc.reader]) hrows, hinv⟩

/-- A step of the visualizer in a `get_snapshot`, of the symbol or of another one. -/
theorem mirrored_snapshot {seq1 seq2 : UInt32} {order : List Nat} {j : UInt16} {rows : List (Row P)} {reader : Reader P}
    (h : Mirrors prices base i s v) (hinv : SeqInv prices.toPrices v) (hok : s.SeqsDiffer (.frame seq1 seq2 order))
    (hframe : s.frame = .snapshot j rows reader) (hs : s.frameStep prices seq1 seq2 order = some s') :
    ∃ v', Mirrors prices base i s' v' ∧ SeqInv prices.toPrices v' := by
  unfold DisplaySys.frameStep at hs
  rw [hframe] at hs
  obtain ⟨view, hview, rfl⟩ := Option.map_eq_some_iff.mp hs
  have hdiffer := hok (j, reader) (by rw [hframe]; rfl)
  by_cases hij : j = i
  · subst hij
    exact mirrored_reading h hinv hframe hdiffer hview
  · have hold : ∀ r, s.frame.reader ≠ some (i, r) := by
      intro r hr
      rw [hframe] at hr
      cases hr
      exact hij rfl
    refine ⟨v, h.frame rfl rfl rfl hold ?_ ?_, hinv⟩
    · dsimp only
      split
      · intro r hr
        cases hr
        exact hij rfl
      · simp [FramePc.reader]
    · rw [hframe]
      dsimp only
      split
      · intro row hrow _
        exact hrow
      · intro row hrow hid
        rcases List.mem_append.mp hrow with hrow | hrow
        · exact hrow
        · rw [List.mem_singleton] at hrow
          subst hrow
          exact absurd hid hij

/-- The rows are sorted and cut: those left have been there. -/
theorem mirrored_sorting {seq1 seq2 : UInt32} {order : List Nat} {rows : List (Row P)} (h : Mirrors prices base i s v)
    (hinv : SeqInv prices.toPrices v) (hframe : s.frame = .sorting rows) (hs : s.frameStep prices seq1 seq2 order = some s') :
    ∃ v', Mirrors prices base i s' v' ∧ SeqInv prices.toPrices v' := by
  unfold DisplaySys.frameStep at hs
  rw [hframe] at hs
  dsimp only at hs
  split at hs
  · cases hs
    refine ⟨v, h.frame rfl rfl rfl (by simp [hframe, FramePc.reader]) (by simp [FramePc.reader]) ?_, hinv⟩
    rw [hframe]
    intro row hrow _
    obtain ⟨k, -, hk⟩ := List.mem_filterMap.mp (List.mem_of_mem_take hrow)
    exact List.mem_of_getElem? hk
  · cases hs

/-- The rows are shown one after the other. -/
theorem mirrored_rendering {seq1 seq2 : UInt32} {order : List Nat} {rows : List (Row P)} (h : Mirrors prices base i s v)
    (hinv : SeqInv prices.toPrices v) (hframe : s.frame = .rendering rows) (hs : s.frameStep prices seq1 seq2 order = some s') :
    ∃ v', Mirrors prices base i s' v' ∧ SeqInv prices.toPrices v' := by
  unfold DisplaySys.frameStep at hs
  rw [hframe] at hs
  cases rows with
  | nil =>
    cases hs
    exact ⟨v, h.frame rfl rfl rfl (by simp [hframe, FramePc.reader]) (by simp [FramePc.reader]) (by simp [FramePc.rows]), hinv⟩
  | cons row rows =>
    cases hs
    obtain ⟨hcache, hcallback, hparser⟩ := @renderRow_kept c P prices s row
    refine ⟨v, h.frame hcache hcallback hparser (by simp [hframe, FramePc.reader]) (by simp [FramePc.reader]) ?_, hinv⟩
    rw [hframe]
    intro r hr _
    exact List.mem_cons_of_mem row hr

/-- Every step of the visualizer. -/
theorem mirrored_frameStep {seq1 seq2 : UInt32} {order : List Nat} (h : Mirrors prices base i s v) (hinv : SeqInv prices.toPrices v)
    (hok : s.SeqsDiffer (.frame seq1 seq2 order)) (hs : s.frameStep prices seq1 seq2 order = some s') :
    ∃ v', Mirrors prices base i s' v' ∧ SeqInv prices.toPrices v' := by
  cases hframe : s.frame with
  | outside =>
    rw [DisplaySys.frameStep, hframe] at hs
    cases hs
    exact ⟨v, h.frame rfl rfl rfl (by simp [hframe, FramePc.reader]) (by simp [FramePc.reader]) (by simp [FramePc.rows]), hinv⟩
  | scanning j rows => exact mirrored_scanning h hinv hframe hs
  | snapshot j rows reader => exact mirrored_snapshot h hinv hok hframe hs
  | sorting rows => exact mirrored_sorting h hinv hframe hs
  | rendering rows => exact mirrored_rendering h hinv hframe hs

end DisplayMirrorAux

open DisplayMirrorAux

/-- A step of the client is, for each of its symbols, a step of the entry with its writer and its reader, or none. -/
theorem mirrored_step {e : DisplayEvent} (h : Mirrors prices base i s v) (hinv : SeqInv prices.toPrices v)
    (hi : i.toNat < s.cache.numSymbols.toNat) (hok : s.SeqsDiffer e) (hs : s.step prices e = some s') :
    ∃ v', Mirrors prices base i s' v' ∧ SeqInv prices.toPrices v' := by
  cases e with
  | feed data t =>
    simp only [DisplaySys.step] at hs
    obtain ⟨parser, hparser, rfl⟩ := Option.map_eq_some_iff.mp hs
    refine ⟨v, ⟨h.seq, h.state, h.writer, h.reading, h.idle, ?_, h.rows, h.base_le⟩, hinv⟩
    have hdispatched := dispatched_step hparser
    unfold DisplaySys.updatesOf
    dsimp only
    rw [hdispatched, Option.toList_none, List.append_nil]
    exact h.updates
  | resetStats =>
    cases hs
    exact ⟨v, ⟨h.seq, h.state, h.writer, h.reading, h.idle, h.updates, h.rows, h.base_le⟩, hinv⟩
  | process => exact ⟨v, mirrored_processStep h hs, hinv⟩
  | iterate now => exact ⟨v, mirrored_processStep h hs, hinv⟩
  | callback => exact mirrored_callbackStep h hinv hi hs
  | frame seq1 seq2 order => exact mirrored_frameStep h hinv hok hs

end MarketFeed
