import MarketFeed.Lemmas.Processed

/-!
# Counting missing messages

The sequence numbers on the wire are true numbers modulo `2 ^ 32`. The parser compares a number with the one it expects as plain
32-bit numbers, so a gap is counted, with its size, unless a multiple of `2 ^ 32` lies between the number expected and the number
received: then the second is below the first, and is taken for an old one. A parser's counters are therefore right exactly when no
gap reaches across a multiple of `2 ^ 32`, as long as the number of missing messages fits the counter.
-/

namespace MarketFeed

open ParserScanAux

variable {c : Capacity}

/-- How many of the numbers are not the successor of the one before them. -/
def gapCount (ns : List Nat) : Nat := (ns.zip ns.tail).countP fun p => p.1 + 1 < p.2

/-- How many numbers between the first and the last are missing. -/
def missing : List Nat → Nat
  | [] => 0
  | n :: ns => (n :: ns).getLast (List.cons_ne_nil n ns) - n + 1 - (n :: ns).length

/-- No gap reaches across a multiple of `2 ^ 32`: none lies above the number expected and not above the number received. -/
def NoGapAcrossWrap (ns : List Nat) : Prop :=
  ∀ p ∈ ns.zip ns.tail, p.1 + 1 < p.2 → (p.1 + 1) / 2 ^ 32 = p.2 / 2 ^ 32

/-- The counters hold the number of gaps and the number of missing messages. -/
def CountsGaps (s : ParserSys c) (ns : List Nat) : Prop :=
  s.parser.sequenceGaps.toNat = gapCount ns ∧ s.parser.totalGapSize.toNat = missing ns

namespace GapAccountingAux

/-- The numbers missing between two neighbours. -/
def size (p : Nat × Nat) : Nat := p.2 - (p.1 + 1)

/-- A gap that the parser sees. -/
def seen (p : Nat × Nat) : Bool := p.1 + 1 < p.2 && (p.1 + 1) / 2 ^ 32 == p.2 / 2 ^ 32

/-- A gap that it does not see. -/
def lost (p : Nat × Nat) : Bool := p.1 + 1 < p.2 && (p.1 + 1) / 2 ^ 32 != p.2 / 2 ^ 32

/-- The comparison of phase 5 sees a gap that stays between two multiples of `2 ^ 32`, with its size, and no other. -/
theorem gapTo_ofNat {a b : Nat} (hlt : a < b) (hjump : b - a < 2 ^ 31) :
    gapTo (some (UInt32.ofNat a)) (UInt32.ofNat b) = if seen (a, b) then [size (a, b)] else [] := by
  have ha : (UInt32.ofNat a + 1).toNat = (a + 1) % 2 ^ 32 := by
    rw [UInt32.toNat_add, UInt32.toNat_ofNat', UInt32.toNat_one, Nat.mod_add_mod]
  have hb : (UInt32.ofNat b).toNat = b % 2 ^ 32 := UInt32.toNat_ofNat'
  unfold gapTo
  dsimp only
  by_cases hseen : seen (a, b) = true
  · have hs := hseen
    simp only [seen, Bool.and_eq_true, decide_eq_true_eq, beq_iff_eq] at hs
    have hgt : UInt32.ofNat b > UInt32.ofNat a + 1 := by
      rw [gt_iff_lt, UInt32.lt_iff_toNat_lt, ha, hb]
      omega
    rw [if_pos hgt, if_pos hseen, UInt32.toNat_sub_of_le _ _ (UInt32.le_of_lt hgt), ha, hb]
    simp only [size, List.cons.injEq, and_true]
    omega
  · have hs := hseen
    simp only [seen, Bool.and_eq_true, decide_eq_true_eq, beq_iff_eq, not_and] at hs
    have hle : ¬UInt32.ofNat b > UInt32.ofNat a + 1 := by
      rw [gt_iff_lt, UInt32.lt_iff_toNat_lt, ha, hb]
      intro hgt
      by_cases hgap : a + 1 < b
      · have hne := hs hgap
        omega
      · have heq : b = a + 1 := by omega
        rw [heq] at hgt
        omega
    rw [if_neg hle, if_neg hseen]

/-- The gap sizes of the numbers on the wire are those of the gaps seen. -/
theorem gapSizes_ofNat {ns : List Nat} (h : ns.IsChain fun a b => a < b ∧ b - a < 2 ^ 31) :
    gapSizes (ns.map UInt32.ofNat) = ((ns.zip ns.tail).filter seen).map size := by
  induction ns with
  | nil => rfl
  | cons a ns ih =>
    cases ns with
    | nil => rfl
    | cons b rest =>
      obtain ⟨⟨hlt, hjump⟩, hrest⟩ := List.isChain_cons_cons.mp h
      have ih' := ih hrest
      simp only [List.map_cons, List.tail_cons, List.zip_cons_cons] at ih' ⊢
      rw [gapSizes_cons_cons, gapTo_ofNat hlt hjump, ih', List.filter_cons]
      split
      · rw [List.map_cons, List.singleton_append]
      · rw [List.nil_append]

/-- The missing numbers, neighbour by neighbour. -/
theorem missing_eq_sum {ns : List Nat} (h : ns.IsChain fun a b => a < b ∧ b - a < 2 ^ 31) :
    missing ns = ((ns.zip ns.tail).map size).sum ∧
      ∀ hne : ns ≠ [], ns.head hne + ns.length ≤ ns.getLast hne + 1 := by
  induction ns with
  | nil => exact ⟨rfl, fun hne => absurd rfl hne⟩
  | cons a ns ih =>
    cases ns with
    | nil => simp [missing]
    | cons b rest =>
      obtain ⟨⟨hlt, -⟩, hrest⟩ := List.isChain_cons_cons.mp h
      obtain ⟨hmiss, hle⟩ := ih hrest
      have hbound := hle (List.cons_ne_nil b rest)
      simp only [missing, List.getLast_cons_cons, List.length_cons, List.tail_cons, List.zip_cons_cons, List.map_cons,
        List.sum_cons, List.head_cons, size] at hmiss hbound ⊢
      refine ⟨?_, fun _ => ?_⟩ <;> omega

/-- A gap is either seen or lost. -/
theorem seen_or_lost {p : Nat × Nat} (hgap : p.1 + 1 < p.2) :
    seen p = true ∧ lost p = false ∨ seen p = false ∧ lost p = true := by
  unfold seen lost
  rw [decide_eq_true hgap, bne, Bool.true_and, Bool.true_and]
  cases (p.1 + 1) / 2 ^ 32 == p.2 / 2 ^ 32 <;> simp

theorem not_seen_or_lost {p : Nat × Nat} (hgap : ¬p.1 + 1 < p.2) : seen p = false ∧ lost p = false := by
  unfold seen lost
  rw [decide_eq_false hgap]
  exact ⟨rfl, rfl⟩

/-- Every gap is counted or lost. -/
theorem count_seen_lost (ps : List (Nat × Nat)) :
    (ps.filter seen).length + (ps.filter lost).length = ps.countP (fun p => p.1 + 1 < p.2) := by
  induction ps with
  | nil => rfl
  | cons p ps ih =>
    rw [List.countP_cons, List.filter_cons, List.filter_cons, ← ih]
    by_cases hgap : p.1 + 1 < p.2
    · rcases seen_or_lost hgap with ⟨hseen, hlost⟩ | ⟨hseen, hlost⟩ <;> simp [hgap, hseen, hlost] <;> omega
    · obtain ⟨hseen, hlost⟩ := not_seen_or_lost hgap
      simp [hgap, hseen, hlost]

/-- The missing numbers are in gaps counted or lost. -/
theorem sum_seen_lost (ps : List (Nat × Nat)) :
    ((ps.filter seen).map size).sum + ((ps.filter lost).map size).sum = (ps.map size).sum := by
  induction ps with
  | nil => rfl
  | cons p ps ih =>
    rw [List.map_cons, List.sum_cons, List.filter_cons, List.filter_cons, ← ih]
    by_cases hgap : p.1 + 1 < p.2
    · rcases seen_or_lost hgap with ⟨hseen, hlost⟩ | ⟨hseen, hlost⟩ <;> simp [hseen, hlost] <;> omega
    · obtain ⟨hseen, hlost⟩ := not_seen_or_lost hgap
      have hsize : size p = 0 := by
        unfold size
        omega
      simp [hseen, hlost, hsize]

/-- Nothing is lost exactly when no gap reaches across a multiple of `2 ^ 32`; what is lost has a size. -/
theorem lost_iff (ns : List Nat) :
    NoGapAcrossWrap ns ↔ (((ns.zip ns.tail).filter lost).map size).sum = 0 := by
  rw [List.sum_eq_zero_iff]
  constructor
  · intro h n hn
    obtain ⟨p, hp, rfl⟩ := List.mem_map.mp hn
    obtain ⟨hmem, hlost⟩ := List.mem_filter.mp hp
    simp only [lost, Bool.and_eq_true, decide_eq_true_eq, bne_iff_ne] at hlost
    exact absurd (h p hmem hlost.1) hlost.2
  · intro h p hmem hgap
    by_contra hne
    have hlost : lost p = true := by
      rw [lost, decide_eq_true hgap, Bool.true_and, bne_iff_ne]
      exact hne
    have hzero := h (size p) (List.mem_map_of_mem (List.mem_filter.mpr ⟨hmem, hlost⟩))
    unfold size at hzero
    omega

end GapAccountingAux

open GapAccountingAux

/-- Messages with true numbers that increase by less than `2 ^ 31`, sent modulo `2 ^ 32` and fed to a fresh parser in any chunks:
once a last `process` has returned, `sequence_gaps` is the number of gaps and `total_gap_size` the number of missing messages, if
and only if no gap reaches across a multiple of `2 ^ 32` and fewer than `2 ^ 64` messages are missing. -/
theorem counts_gaps_iff (ns : List Nat) (ms : List Msg) (hseq : ms.map Msg.seqNum = ns.map UInt32.ofNat)
    (hjump : ns.IsChain fun a b => a < b ∧ b - a < 2 ^ 31) (s : ParserSys c) (hfed : s.FedWith (stream ms)) :
    s.Ends fun t => CountsGaps t ns ↔ NoGapAcrossWrap ns ∧ missing ns < 2 ^ 64 := by
  refine hfed.ends.mono (fun t ht => ?_)
  obtain ⟨hgaps, htotal⟩ := ht.gaps
  have hsizes := gapSizes_ofNat hjump
  have hmiss := (missing_eq_sum hjump).1
  have hcount := count_seen_lost (ns.zip ns.tail)
  have hsum := sum_seen_lost (ns.zip ns.tail)
  have hlen : ((ns.zip ns.tail).filter seen).length ≤ (((ns.zip ns.tail).filter seen).map size).sum := by
    rw [← List.length_map (f := size)]
    apply List.length_le_sum_of_one_le
    intro n hn
    obtain ⟨p, hp, rfl⟩ := List.mem_map.mp hn
    have hseen := (List.mem_filter.mp hp).2
    simp only [seen, Bool.and_eq_true, decide_eq_true_eq] at hseen
    unfold size
    omega
  have hnone : (((ns.zip ns.tail).filter lost).map size).sum = 0 → ((ns.zip ns.tail).filter lost).length = 0 := by
    intro hzero
    rw [← lost_iff] at hzero
    rw [List.length_eq_zero_iff, List.filter_eq_nil_iff]
    intro p hp hlost
    simp only [lost, Bool.and_eq_true, decide_eq_true_eq, bne_iff_ne] at hlost
    exact hlost.2 (hzero p hp hlost.1)
  rw [CountsGaps, gapCount, hgaps, htotal, hseq, hsizes, List.length_map, UInt64.toNat_ofNat', UInt64.toNat_ofNat', lost_iff]
  omega

namespace GapAccountingAux

/-- Three heartbeats; the numbers 4294967293 and 4294967294 are missing, then the counter wraps. -/
def wrapped : List Msg := [.heartbeat 0 4294967292 1000, .heartbeat 0 4294967295 1001, .heartbeat 0 0 1002]

def wrappedRun : List ParserEvent := [.feed ((stream wrapped).take 30) 1, .call, .iterate 2, .iterate 3, .feed ((stream wrapped).drop 30) 4]

/-- Two heartbeats; the two between them, with 4294967295 and 0 on the wire, are missing. -/
def straddling : List Msg := [.heartbeat 0 4294967294 1000, .heartbeat 0 1 1001]

def straddlingRun : List ParserEvent := .feed (stream straddling) 1 :: processCall [2, 3, 4]

end GapAccountingAux

/-- The run `wrappedRun` meets the hypotheses of `counts_gaps_iff`. -/
theorem counts_gaps_iff_wrappedRun :
    ∃ s, Run.exec ParserSys.step (ParserSys.init recvBufSize) wrappedRun = some s ∧ s.Ends fun t =>
      (CountsGaps t [4294967292, 4294967295, 4294967296] ↔
        NoGapAcrossWrap [4294967292, 4294967295, 4294967296] ∧ missing [4294967292, 4294967295, 4294967296] < 2 ^ 64) := by
  have hrun : ∃ s, Run.exec ParserSys.step (ParserSys.init recvBufSize) wrappedRun = some s ∧ fedBytes wrappedRun = stream wrapped ∧
      ParserSys.NoOverflow (ParserSys.init recvBufSize) wrappedRun ∧ s.pc = .idle := by decide +kernel
  obtain ⟨s, hrun, hfed, hno, hidle⟩ := hrun
  refine ⟨s, hrun, counts_gaps_iff [4294967292, 4294967295, 4294967296] wrapped (by decide) ?_ s ⟨wrappedRun, hfed, hrun, hno, hidle⟩⟩
  simp

/-- After `straddlingRun` no gap has been counted, although two messages are missing between 4294967294 and 4294967297. -/
theorem gap_across_wrap :
    ∃ s, Run.exec ParserSys.step (ParserSys.init recvBufSize) straddlingRun = some s ∧ s.pc = .idle ∧
      s.parser.sequenceGaps = 0 ∧ s.parser.totalGapSize = 0 ∧ gapCount [4294967294, 4294967297] = 1 ∧
      missing [4294967294, 4294967297] = 2 ∧ ¬CountsGaps s [4294967294, 4294967297] := by
  have hrun : ∃ s, Run.exec ParserSys.step (ParserSys.init recvBufSize) straddlingRun = some s ∧ s.pc = .idle ∧
      s.parser.sequenceGaps = 0 ∧ s.parser.totalGapSize = 0 := by decide +kernel
  obtain ⟨s, hrun, hidle, hgaps, htotal⟩ := hrun
  refine ⟨s, hrun, hidle, hgaps, htotal, by decide, by decide, fun hcounts => ?_⟩
  have hone := hcounts.1
  rw [hgaps] at hone
  exact absurd hone (by decide)

end MarketFeed
