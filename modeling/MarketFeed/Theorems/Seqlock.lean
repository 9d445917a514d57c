import MarketFeed.Cache

/-!
# Snapshots of the symbol cache

A snapshot is a state between two updates as long as the odd test of `get_snapshot` never finds `seq1` equal to `seq2`: the
`continue` there leads to the loop condition, not to the top of the loop, and the condition then compares `seq1` with a `seq2` that
was not loaded in this iteration. With the two equal the loop ends and returns what an earlier iteration copied.
-/

namespace MarketFeed

namespace SeqlockAux

variable {P : Type} {prices : Prices P}

/-- A counter is odd when the number it counts is. -/
theorem ofNat_and_one (w : Nat) : UInt32.ofNat w &&& 1 ≠ 0 ↔ w % 2 = 1 := by
  have hbit : (UInt32.ofNat w &&& 1).toNat = w % 2 := by
    rw [UInt32.toNat_and, UInt32.toNat_ofNat', UInt32.toNat_one, Nat.and_one_is_mod]
    exact Nat.mod_mod_of_dvd w (by decide)
  rw [ne_eq, ← UInt32.toNat_inj, hbit, UInt32.toNat_zero]
  omega

/-! ## The invariant -/

/-- How often the counter has been incremented. -/
def writes (s : CacheSys P) : Nat :=
  match s.writer with
  | .idle | .beginning _ _ => 2 * s.completed.length
  | .storing _ _ | .ending _ _ => 2 * s.completed.length + 1

/-- The counter and the state of the entry, at each point of the writer. -/
def WriterOk (prices : Prices P) (s : CacheSys P) : Prop :=
  s.seq = UInt32.ofNat (writes s) ∧
    match s.writer with
    | .idle => s.state = stateAfter prices s.completed
    | .beginning _ seq => seq = s.seq ∧ s.state = stateAfter prices s.completed
    | .storing u rest => ∃ made, u.stores prices = made ++ rest ∧
        s.state = applyStores prices (stateAfter prices s.completed) made
    | .ending u seq => seq = s.seq ∧ s.state = applyStores prices (stateAfter prices s.completed) (u.stores prices)

/-- A whole number of updates, completed during a call, gives the state. -/
def Whole (prices : Prices P) (completed : List (Update P)) (before after : Nat) (state : MarketState P) : Prop :=
  ∃ k, before ≤ k ∧ k ≤ after ∧ state = stateAfter prices (completed.take k)

/-- The loads of the reader fall in the call, and `seq1` is the counter when no update was in progress. -/
structure Loaded (s : CacheSys P) : Prop where
  before_le : s.reader.before ≤ s.reader.at1
  at1_le : s.reader.at1 ≤ s.completed.length
  seq1 : s.reader.seq1 = UInt32.ofNat (2 * s.reader.at1)

/-- What the reader has, at each point of its loop. Until the counter moves on from `seq1`, the copied fields are those of the
entry. -/
def ReaderOk (prices : Prices P) (s : CacheSys P) : Prop :=
  match s.reader.pc with
  | .idle => True
  | .top => s.reader.before ≤ s.completed.length
  | .test => s.reader.before ≤ s.reader.at1 ∧ s.reader.at1 ≤ s.completed.length ∧
      (¬s.reader.seq1 &&& 1 ≠ 0 → s.reader.seq1 = UInt32.ofNat (2 * s.reader.at1))
  | .copying rest => Loaded s ∧ ∃ done start, Field.all = done ++ rest ∧
      (writes s = 2 * s.reader.at1 → s.reader.s = copyFields s.state start done)
  | .second => Loaded s ∧ (writes s = 2 * s.reader.at1 → s.reader.s = s.state)
  | .condition => s.reader.before ≤ s.completed.length ∧
      (s.reader.seq1 = s.reader.seq2 → s.completed.length - s.reader.before < 2 ^ 31 →
        Whole prices s.completed s.reader.before s.completed.length s.reader.s)

/-- What has been returned. -/
def ReturnedOk (prices : Prices P) (s : CacheSys P) : Prop :=
  ∀ r ∈ s.returned, r.after ≤ s.completed.length ∧
    (r.after - r.before < 2 ^ 31 → Whole prices s.completed r.before r.after r.state)

/-- The invariant of the entry, the writer and the reader. -/
structure SeqInv (prices : Prices P) (s : CacheSys P) : Prop where
  writer : WriterOk prices s
  reader : ReaderOk prices s
  returned : ReturnedOk prices s

theorem SeqInv.init (prices : Prices P) : SeqInv prices (CacheSys.init prices) where
  writer := ⟨rfl, rfl⟩
  reader := trivial
  returned := fun _ hr => absurd hr List.not_mem_nil

/-- A whole number of updates stays one when more are completed. -/
theorem Whole.mono {us us' : List (Update P)} {before after after' : Nat} {state : MarketState P}
    (h : Whole prices us before after state) (hpre : us <+: us') (hle : after ≤ us.length) (hafter : after ≤ after') :
    Whole prices us' before after' state := by
  obtain ⟨k, hk1, hk2, hstate⟩ := h
  obtain ⟨new, rfl⟩ := hpre
  refine ⟨k, hk1, Nat.le_trans hk2 hafter, ?_⟩
  rw [List.take_append_of_le_length (Nat.le_trans hk2 hle)]
  exact hstate

/-! ## The writer's steps -/

/-- What a writer's step is to the reader: updates may be completed, and if the counter is still where it was when no update was in
progress, then so is the state. -/
structure WriterMoves (s s' : CacheSys P) : Prop where
  completed : s.completed <+: s'.completed
  reader : s'.reader = s.reader
  returned : s'.returned = s.returned
  still : ∀ a ≤ s.completed.length, writes s' = 2 * a → writes s = 2 * a ∧ s'.state = s.state

theorem Loaded.moves {s s' : CacheSys P} (h : Loaded s) (hm : WriterMoves s s') : Loaded s' := by
  have hlen := hm.completed.length_le
  refine ⟨?_, ?_, ?_⟩ <;> rw [hm.reader]
  · exact h.before_le
  · exact Nat.le_trans h.at1_le hlen
  · exact h.seq1

theorem ReaderOk.moves {s s' : CacheSys P} (h : ReaderOk prices s) (hm : WriterMoves s s') : ReaderOk prices s' := by
  have hlen := hm.completed.length_le
  unfold ReaderOk at h ⊢
  rw [hm.reader]
  cases hpc : s.reader.pc with
  | idle => trivial
  | top =>
    rw [hpc] at h
    exact Nat.le_trans h hlen
  | test =>
    rw [hpc] at h
    obtain ⟨h1, h2, h3⟩ := h
    exact ⟨h1, Nat.le_trans h2 hlen, h3⟩
  | copying rest =>
    rw [hpc] at h
    obtain ⟨hl, done, start, hall, hcopied⟩ := h
    refine ⟨hl.moves hm, done, start, hall, fun hw => ?_⟩
    obtain ⟨hw', hstate⟩ := hm.still _ hl.at1_le hw
    rw [hstate]
    exact hcopied hw'
  | second =>
    rw [hpc] at h
    obtain ⟨hl, hcopied⟩ := h
    refine ⟨hl.moves hm, fun hw => ?_⟩
    obtain ⟨hw', hstate⟩ := hm.still _ hl.at1_le hw
    rw [hstate]
    exact hcopied hw'
  | condition =>
    rw [hpc] at h
    obtain ⟨hb, hwhole⟩ := h
    refine ⟨Nat.le_trans hb hlen, fun heq hfew => ?_⟩
    exact (hwhole heq (by omega)).mono hm.completed (Nat.le_refl _) hlen

theorem ReturnedOk.moves {s s' : CacheSys P} (h : ReturnedOk prices s) (hm : WriterMoves s s') : ReturnedOk prices s' := by
  intro r hr
  rw [hm.returned] at hr
  obtain ⟨hle, hwhole⟩ := h r hr
  exact ⟨Nat.le_trans hle hm.completed.length_le, fun hfew => (hwhole hfew).mono hm.completed hle (Nat.le_refl _)⟩

/-- The call of an update. -/
theorem update_spec {s s' : CacheSys P} {u : Update P} (h : WriterOk prices s) (hs : s.step prices (.update u) = some s') :
    WriterOk prices s' ∧ WriterMoves s s' := by
  obtain ⟨hseq, hstate⟩ := h
  simp only [CacheSys.step] at hs
  split at hs <;> rename_i hpc <;> cases hs
  have hw : writes { s with writer := .beginning u s.seq } = writes s := by
    unfold writes
    rw [hpc]
  rw [hpc] at hstate
  refine ⟨⟨?_, rfl, hstate⟩, ⟨List.prefix_refl _, rfl, rfl, ?_⟩⟩
  · rw [hw]
    exact hseq
  · intro a _ ha
    exact ⟨hw ▸ ha, rfl⟩

/-- A step of the writer inside an update. -/
theorem writeStep_spec {s s' : CacheSys P} (h : WriterOk prices s) (hs : s.writeStep prices = some s') :
    WriterOk prices s' ∧ WriterMoves s s' := by
  obtain ⟨hseq, hstate⟩ := h
  unfold CacheSys.writeStep at hs
  -- after each of these steps the counter is odd, or has passed every earlier even value
  split at hs <;> rename_i hpc <;> cases hs <;> rw [hpc] at hstate
  · rename_i u seq
    obtain ⟨hq, hst⟩ := hstate
    refine ⟨⟨?_, [], rfl, hst⟩, ⟨List.prefix_refl _, rfl, rfl, ?_⟩⟩
    · simp only [writes, hpc] at hseq ⊢
      rw [hq, hseq, UInt32.ofNat_add]
      rfl
    · intro a _ ha
      simp only [writes] at ha
      omega
  · rename_i u f rest
    obtain ⟨made, hstores, hst⟩ := hstate
    refine ⟨⟨?_, made ++ [f], ?_, ?_⟩, ⟨List.prefix_refl _, rfl, rfl, ?_⟩⟩
    · simpa only [writes, hpc] using hseq
    · rw [hstores, List.append_assoc, List.singleton_append]
    · rw [applyStores, List.foldl_append, List.foldl_cons, List.foldl_nil, ← applyStores, ← hst]
    · intro a _ ha
      simp only [writes] at ha
      omega
  · rename_i u
    obtain ⟨made, hstores, hst⟩ := hstate
    rw [List.append_nil] at hstores
    refine ⟨⟨?_, rfl, by rw [hstores]; exact hst⟩, ⟨List.prefix_refl _, rfl, rfl, ?_⟩⟩
    · simpa only [writes, hpc] using hseq
    · intro a _ ha
      simp only [writes] at ha
      omega
  · rename_i u seq
    obtain ⟨hq, hst⟩ := hstate
    refine ⟨⟨?_, ?_⟩, ⟨List.prefix_append _ _, rfl, rfl, ?_⟩⟩
    · simp only [writes, hpc, List.length_append, List.length_singleton, Nat.mul_add] at hseq ⊢
      rw [hq, hseq, UInt32.ofNat_add, UInt32.ofNat_add, UInt32.add_assoc]
      rfl
    · simp only [stateAfter, List.foldl_append, List.foldl_cons, List.foldl_nil]
      exact hst
    · intro a ha hw
      simp only [writes, List.length_append, List.length_singleton] at hw
      omega

/-! ## The reader's steps -/

/-- An even counter was loaded while no update was in progress. -/
theorem writes_of_even {s : CacheSys P} (h : WriterOk prices s) (heven : ¬s.seq &&& 1 ≠ 0) :
    writes s = 2 * s.completed.length ∧ s.state = stateAfter prices s.completed := by
  obtain ⟨hseq, hstate⟩ := h
  rw [hseq, ofNat_and_one] at heven
  cases hpc : s.writer with
  | idle =>
    rw [hpc] at hstate
    exact ⟨by simp only [writes, hpc], hstate⟩
  | beginning u seq =>
    rw [hpc] at hstate
    exact ⟨by simp only [writes, hpc], hstate.2⟩
  | storing u rest =>
    simp only [writes, hpc] at heven
    omega
  | ending u seq =>
    simp only [writes, hpc] at heven
    omega

/-- The second load: if it gives `seq1` again after fewer than `2 ^ 31` updates, the copy is the state between two updates. -/
theorem whole_of_second {s : CacheSys P} (hw : WriterOk prices s) (hl : Loaded s)
    (hcopied : writes s = 2 * s.reader.at1 → s.reader.s = s.state) (heq : s.reader.seq1 = s.seq)
    (hfew : s.completed.length - s.reader.before < 2 ^ 31) :
    Whole prices s.completed s.reader.before s.completed.length s.reader.s := by
  have hb := hl.before_le
  have ha := hl.at1_le
  have hwrites : writes s ≤ 2 * s.completed.length + 1 ∧ 2 * s.completed.length ≤ writes s := by
    unfold writes
    split <;> omega
  have hmod : 2 * s.reader.at1 % 2 ^ 32 = writes s % 2 ^ 32 := by
    rw [hl.seq1, hw.1, ← UInt32.toNat_inj, UInt32.toNat_ofNat', UInt32.toNat_ofNat'] at heq
    exact heq
  have hsame : writes s = 2 * s.reader.at1 := by omega
  have heven : ¬s.seq &&& 1 ≠ 0 := by
    rw [hw.1, hsame, ofNat_and_one]
    omega
  obtain ⟨-, hstate⟩ := writes_of_even hw heven
  refine ⟨s.completed.length, by omega, Nat.le_refl _, ?_⟩
  rw [List.take_length, ← hstate]
  exact hcopied hsame

/-- Every step of the reader whose odd test tells `seq1` from `seq2` keeps the invariant. -/
theorem SeqInv.readStep {s s' : CacheSys P} (h : SeqInv prices s) (hok : s.SeqsDiffer .read) (hs : s.readStep = some s') :
    SeqInv prices s' := by
  obtain ⟨hw, hr, hret⟩ := h
  unfold ReaderOk at hr
  unfold CacheSys.readStep at hs
  cases hpc : s.reader.pc with
  | idle =>
    rw [hpc] at hs
    cases hs
  | top =>
    rw [hpc] at hs hr
    cases hs
    refine ⟨hw, ⟨hr, Nat.le_refl _, fun heven => ?_⟩, hret⟩
    exact hw.1.trans (by rw [(writes_of_even hw heven).1])
  | test =>
    rw [hpc] at hs hr
    obtain ⟨h1, h2, h3⟩ := hr
    dsimp only at hs
    split at hs <;> rename_i hodd <;> cases hs
    · -- the loop condition comes next, and it will not be met
      have hne := hok hpc hodd
      exact ⟨hw, ⟨Nat.le_trans h1 h2, fun heq => absurd heq hne⟩, hret⟩
    · exact ⟨hw, ⟨⟨h1, h2, h3 hodd⟩, [], s.reader.s, rfl, fun _ => rfl⟩, hret⟩
  | copying rest =>
    rw [hpc] at hs hr
    obtain ⟨hl, done, start, hall, hcopied⟩ := hr
    cases rest with
    | nil =>
      cases hs
      rw [List.append_nil] at hall
      refine ⟨hw, ⟨⟨hl.before_le, hl.at1_le, hl.seq1⟩, fun hsame => ?_⟩, hret⟩
      have hcopy := hcopied hsame
      rw [← hall, copyFields_all] at hcopy
      exact hcopy
    | cons f rest =>
      cases hs
      refine ⟨hw, ⟨⟨hl.before_le, hl.at1_le, hl.seq1⟩, done ++ [f], start, ?_, fun hsame => ?_⟩, hret⟩
      · rw [hall, List.append_assoc, List.singleton_append]
      · rw [copyFields, List.foldl_append, List.foldl_cons, List.foldl_nil, ← copyFields]
        exact congrArg (fun dst => f.copy s.state dst) (hcopied hsame)
  | second =>
    rw [hpc] at hs hr
    obtain ⟨hl, hcopied⟩ := hr
    have hwhole := whole_of_second hw hl hcopied
    cases hs
    exact ⟨hw, ⟨Nat.le_trans hl.before_le hl.at1_le, hwhole⟩, hret⟩
  | condition =>
    rw [hpc] at hs hr
    obtain ⟨hb, hwhole⟩ := hr
    dsimp only at hs
    split at hs <;> rename_i heq <;> cases hs
    · exact ⟨hw, hb, hret⟩
    · refine ⟨hw, trivial, fun r hmem => ?_⟩
      rcases List.mem_append.mp hmem with hold | hnew
      · exact hret r hold
      · rw [List.mem_singleton] at hnew
        subst hnew
        exact ⟨Nat.le_refl _, hwhole (not_not.mp heq)⟩

/-- Every step whose odd test tells `seq1` from `seq2` keeps the invariant. -/
theorem SeqInv.step {s s' : CacheSys P} {e : CacheEvent P} (h : SeqInv prices s) (hok : s.SeqsDiffer e)
    (hs : s.step prices e = some s') : SeqInv prices s' := by
  cases e with
  | update u =>
    obtain ⟨hw, hm⟩ := update_spec h.writer hs
    exact ⟨hw, h.reader.moves hm, h.returned.moves hm⟩
  | write =>
    obtain ⟨hw, hm⟩ := writeStep_spec h.writer hs
    exact ⟨hw, h.reader.moves hm, h.returned.moves hm⟩
  | getSnapshot local1 seq1 seq2 =>
    simp only [CacheSys.step] at hs
    split at hs <;> cases hs
    exact ⟨h.writer, Nat.le_refl _, h.returned⟩
  | read => exact h.readStep hok hs

end SeqlockAux

open SeqlockAux

/-- In every run in which the odd test never finds `seq1` odd and equal to `seq2`, a snapshot returned by a call during which fewer
than `2 ^ 31` updates were completed is the state of the entry after a whole number of them, one that was reached during the
call. -/
theorem snapshot_of_seqsDiffer {P : Type} (prices : Prices P) (es : List (CacheEvent P)) (s : CacheSys P)
    (hok : Run.Along (CacheSys.step prices) CacheSys.SeqsDiffer (CacheSys.init prices) es)
    (h : Run.exec (CacheSys.step prices) (CacheSys.init prices) es = some s) (r : Snapshot P) (hr : r ∈ s.returned)
    (hfew : r.after - r.before < 2 ^ 31) :
    ∃ k, r.before ≤ k ∧ k ≤ r.after ∧ r.state = stateAfter prices (s.completed.take k) := by
  have hinv : SeqInv prices s :=
    Run.exec_invariant_along (fun _ _ _ hi hok hs => hi.step hok hs) (SeqInv.init prices) hok h
  exact (hinv.returned r hr).2 hfew

namespace SeqlockAux

/-- Exact prices. -/
def exact : Prices ℚ := { zero := 0, isZero := fun p => p == 0, mid := fun bid ask => (bid + ask) * (1 / 2) }

def quote : Update ℚ := .quote 100 10 102 20 1

/-- A first `get_snapshot` overlaps the update and retries; a second one starts after it. -/
def retryRun : List (CacheEvent ℚ) :=
  List.flatten [[.getSnapshot (.empty exact) 7 7, .read, .update quote, .read, .read, .write, .write], List.replicate 11 .read,
    List.replicate 8 .write, List.replicate 14 .read, [.getSnapshot (.empty exact) 0 0], List.replicate 14 .read]

/-- The reader loads `seq1 = 0`; the writer starts its update and stores the bid; the reader copies the fields and loads
`seq2 = 1`; in the next iteration it loads `seq1 = 1`, which is odd and equal to `seq2`. The writer then finishes. -/
def tornRun : List (CacheEvent ℚ) :=
  List.flatten [[.getSnapshot (.empty exact) 0 0, .read, .read, .update quote, .write, .write], List.replicate 15 .read,
    List.replicate 8 .write]

/-- The bid of the update, with every other field as before it. -/
def torn : MarketState ℚ := { MarketState.empty exact with bestBid := 100 }

end SeqlockAux

/-- The run `retryRun` meets the hypotheses of `snapshot_of_seqsDiffer`: its first call overlapped the update. -/
theorem snapshot_of_seqsDiffer_retryRun :
    ∃ s, Run.exec (CacheSys.step exact) (CacheSys.init exact) retryRun = some s ∧
      ⟨stateAfter exact [quote], 0, 1⟩ ∈ s.returned ∧
      ∃ k, 0 ≤ k ∧ k ≤ 1 ∧ stateAfter exact [quote] = stateAfter exact (s.completed.take k) := by
  have hrun : ∃ s, Run.exec (CacheSys.step exact) (CacheSys.init exact) retryRun = some s ∧
      ⟨stateAfter exact [quote], 0, 1⟩ ∈ s.returned := by decide +kernel
  obtain ⟨s, hrun, hr⟩ := hrun
  exact ⟨s, hrun, hr, snapshot_of_seqsDiffer exact retryRun s (by decide +kernel) hrun _ hr (by decide)⟩

/-- The run `tornRun`: a snapshot with the bid of an update and the rest of the state before it, although no update was completed
during the call. -/
theorem torn_snapshot :
    ∃ s, Run.exec (CacheSys.step exact) (CacheSys.init exact) tornRun = some s ∧ s.completed = [quote] ∧
      s.returned = [⟨torn, 0, 0⟩] ∧ ∀ k, torn ≠ stateAfter exact (s.completed.take k) := by
  have hrun : ∃ s, Run.exec (CacheSys.step exact) (CacheSys.init exact) tornRun = some s ∧ s.completed = [quote] ∧
      s.returned = [⟨torn, 0, 0⟩] := by decide +kernel
  obtain ⟨s, hrun, hcompleted, hreturned⟩ := hrun
  refine ⟨s, hrun, hcompleted, hreturned, fun k => ?_⟩
  rw [hcompleted]
  cases k with
  | zero => decide +kernel
  | succ k =>
    rw [List.take_of_length_le (by simp)]
    decide +kernel

end MarketFeed
