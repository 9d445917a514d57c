import MarketFeed.Lemmas.Processed

/-!
# Duplicates

A message that was received before has a number below the one expected. Phase 5 counts no gap for it, but it moves the expected
number back and lets the message through to the callback. So a duplicate can only go unnoticed if it is a heartbeat, and if the
expected number it leaves behind does no harm.
-/

namespace MarketFeed

open ParserScanAux

variable {c : Capacity}

/-- Two parsers have handed over the same messages and counted the same gaps. -/
def SameFeed (s t : ParserSys c) : Prop :=
  s.dispatched.map ParsedMessage.withoutRecvTime = t.dispatched.map ParsedMessage.withoutRecvTime ∧
    s.parser.sequenceGaps = t.parser.sequenceGaps ∧ s.parser.totalGapSize = t.parser.totalGapSize

/-- A copy `d` that goes unnoticed between the messages up to `last` and the messages `post`: a heartbeat behind the last message, or
behind the message it is a copy of; and if the number expected has just wrapped to 0, its own number is 0. -/
structure Unnoticed (last : Msg) (d : Msg) (post : List Msg) : Prop where
  heartbeat : d.parsed 0 = none
  place : post = [] ∨ d.seqNum = last.seqNum
  wrap : last.seqNum + 1 = 0 → d.seqNum = 0

namespace DuplicatesAux

/-- The gaps up to a number and those from it on. -/
theorem gapSizes_split (l r : List UInt32) (a : UInt32) :
    gapSizes (l ++ a :: r) = gapSizes (l ++ [a]) ++ gapSizes (a :: r) := by
  induction l with
  | nil => rfl
  | cons b l ih =>
    cases l with
    | nil =>
      have hnil : gapSizes [a] = [] := rfl
      rw [List.singleton_append, List.singleton_append, gapSizes_cons_cons, gapSizes_cons_cons, hnil, List.append_nil]
    | cons b' l =>
      rw [List.cons_append, List.cons_append, List.cons_append, List.cons_append, gapSizes_cons_cons, gapSizes_cons_cons,
        ← List.cons_append, ih, ← List.cons_append, List.append_assoc]

/-- Adding fewer than `2 ^ 64` changes a counter unless nothing is added. -/
theorem ofNat_add_eq_iff {n k : Nat} (hk : k < 2 ^ 64) : UInt64.ofNat (n + k) = UInt64.ofNat n ↔ k = 0 := by
  rw [← UInt64.toNat_inj, UInt64.toNat_ofNat', UInt64.toNat_ofNat']
  omega

/-- The counters after some gaps. -/
def counters (gaps : List Nat) : UInt64 × UInt64 := (UInt64.ofNat gaps.length, UInt64.ofNat gaps.sum)

/-- Gaps in front of both make no difference to what is equal. -/
theorem counters_append_left (xs ys zs : List Nat) : counters (xs ++ ys) = counters (xs ++ zs) ↔ counters ys = counters zs := by
  simp [counters, UInt64.ofNat_add]

/-- One gap counts. -/
theorem counters_singleton (n : Nat) : counters [n] ≠ counters [] := by
  simp [counters]

/-- A copy is itself a gap only if the expected number has wrapped. -/
theorem gap_to_copy_iff {p d : UInt32} (hd : d ≤ p) : d > p + 1 ↔ p + 1 = 0 ∧ d ≠ 0 := by
  rw [UInt32.le_iff_toNat_le] at hd
  have hplt := p.toNat_lt
  have hzero : p + 1 = 0 ↔ p.toNat = 2 ^ 32 - 1 := by
    rw [← UInt32.toNat_inj, UInt32.toNat_add, UInt32.toNat_one, UInt32.toNat_zero]
    omega
  have hd0 : d ≠ 0 ↔ d.toNat ≠ 0 := UInt32.toNat_inj.symm.not
  rw [hzero, hd0, gt_iff_lt, UInt32.lt_iff_toNat_lt, UInt32.toNat_add, UInt32.toNat_one]
  omega

/-- The numbers between two that do not wrap. -/
theorem sum_gapTo {p q : UInt32} (h : p < q) : (gapTo (some p) q).sum = q.toNat - (p.toNat + 1) := by
  rw [UInt32.lt_iff_toNat_lt] at h
  have hqlt := q.toNat_lt
  have hp1 : (p + 1).toNat = p.toNat + 1 := by
    rw [UInt32.toNat_add, UInt32.toNat_one]
    omega
  unfold gapTo
  dsimp only
  by_cases hgap : q > p + 1
  · rw [if_pos hgap, List.sum_singleton, UInt32.toNat_sub_of_le _ _ (UInt32.le_of_lt hgap), hp1]
  · rw [gt_iff_lt, UInt32.lt_iff_toNat_lt, hp1] at hgap
    rw [if_neg (by rwa [gt_iff_lt, UInt32.lt_iff_toNat_lt, hp1]), List.sum_nil]
    omega

/-- Going on to a higher number from `d` instead of `p` adds `p - d` to the sum of the gaps. -/
theorem counters_resume_iff {p d q : UInt32} {rest : List UInt32} (hd : d ≤ p) (hq : p < q) :
    counters (gapSizes (d :: q :: rest)) = counters (gapSizes (p :: q :: rest)) ↔ d = p := by
  constructor
  · intro hc
    have hsum := congrArg Prod.snd hc
    rw [gapSizes_cons_cons, gapSizes_cons_cons] at hsum
    simp only [counters] at hsum
    rw [List.sum_append, List.sum_append, sum_gapTo (UInt32.lt_of_le_of_lt hd hq), sum_gapTo hq] at hsum
    rw [UInt32.le_iff_toNat_le] at hd
    rw [UInt32.lt_iff_toNat_lt] at hq
    have hqlt := q.toNat_lt
    have hsplit : q.toNat - (d.toNat + 1) + (gapSizes (q :: rest)).sum =
        q.toNat - (p.toNat + 1) + (gapSizes (q :: rest)).sum + (p.toNat - d.toNat) := by omega
    rw [hsplit, ofNat_add_eq_iff (by omega)] at hsum
    exact UInt32.toNat_inj.mp (by omega)
  · intro hdp
    rw [hdp]

/-- What a copy with number `d` between the number `p` and the numbers `post`, all above `p`, does to the counters: nothing, exactly
when it is at the end or a copy of the message with number `p`, and the expected number has not wrapped behind it. -/
theorem counters_copy_iff {p d : UInt32} {post : List UInt32} (hd : d ≤ p) (hpost : ∀ q ∈ post, p < q) :
    counters (gapSizes (p :: d :: post)) = counters (gapSizes (p :: post)) ↔
      (post = [] ∨ d = p) ∧ (p + 1 = 0 → d = 0) := by
  rw [gapSizes_cons_cons p d, gapTo]
  cases post with
  | nil =>
    have hnil : ∀ a : UInt32, gapSizes [a] = [] := fun _ => rfl
    rw [hnil, hnil, List.append_nil]
    by_cases hgt : d > p + 1
    · rw [if_pos hgt]
      obtain ⟨hwrap, hne⟩ := (gap_to_copy_iff hd).mp hgt
      exact ⟨fun hc => absurd hc (counters_singleton _), fun hc => absurd (hc.2 hwrap) hne⟩
    · rw [if_neg hgt]
      refine ⟨fun _ => ⟨Or.inl rfl, fun hwrap => ?_⟩, fun _ => rfl⟩
      by_contra hne
      exact hgt ((gap_to_copy_iff hd).mpr ⟨hwrap, hne⟩)
  | cons q rest =>
    -- another number above `p`, so nothing has wrapped yet
    have hq := hpost q List.mem_cons_self
    have hwrap : p + 1 ≠ 0 := by
      intro hzero
      have hnat := congrArg UInt32.toNat hzero
      rw [UInt32.lt_iff_toNat_lt] at hq
      rw [UInt32.toNat_add, UInt32.toNat_one, UInt32.toNat_zero] at hnat
      have hqlt := q.toNat_lt
      omega
    rw [if_neg (fun hgt => hwrap ((gap_to_copy_iff hd).mp hgt).1), List.nil_append, counters_resume_iff hd hq]
    constructor
    · intro hdp
      exact ⟨Or.inr hdp, fun hzero => absurd hzero hwrap⟩
    · rintro ⟨hnil | hdp, -⟩
      · cases hnil
      · exact hdp

/-- One more element is not noticed exactly when it is filtered out. -/
theorem filterMap_insert_iff {α β : Type} (f : α → Option β) (l r : List α) (d : α) :
    (l ++ d :: r).filterMap f = (l ++ r).filterMap f ↔ f d = none := by
  rw [List.filterMap_append, List.filterMap_append, List.append_cancel_left_eq, List.filterMap_cons]
  cases hd : f d with
  | none => simp
  | some b =>
    refine ⟨fun h => ?_, fun h => by cases h⟩
    have hlen := congrArg List.length h
    simp at hlen

end DuplicatesAux

open ProcessedAux DuplicatesAux

/-- A list of messages with increasing sequence numbers, and the same list with a copy of one of the messages put in behind it, each
fed to a fresh parser in any chunks: once a last `process` has returned on both sides, both have handed over the same messages and
counted the same gaps if and only if the copy is one that goes unnoticed. -/
theorem duplicate_iff (pre : List Msg) (last : Msg) (post : List Msg) (d : Msg) (hd : d ∈ pre ++ [last])
    (hinc : ((pre ++ last :: post).map Msg.seqNum).Pairwise (· < ·)) (s s' : ParserSys c)
    (hfed : s.FedWith (stream (pre ++ last :: post))) (hfed' : s'.FedWith (stream (pre ++ last :: d :: post))) :
    s.Ends fun t => s'.Ends fun t' => SameFeed t' t ↔ Unnoticed last d post := by
  refine hfed.ends.mono (fun t ht => hfed'.ends.mono (fun t' ht' => ?_))
  obtain ⟨hgaps, htotal⟩ := ht.gaps
  obtain ⟨hgaps', htotal'⟩ := ht'.gaps
  have hmsgs := ht.messages.trans (scanResult_stream _).1
  have hmsgs' := ht'.messages.trans (scanResult_stream _).1
  rw [List.map_append, List.map_cons, List.pairwise_append, List.pairwise_cons] at hinc
  obtain ⟨-, ⟨hpost, -⟩, hpre⟩ := hinc
  have hle : d.seqNum ≤ last.seqNum := by
    rcases List.mem_append.mp hd with hmem | hmem
    · exact UInt32.le_of_lt (hpre _ (List.mem_map_of_mem hmem) _ List.mem_cons_self)
    · rw [List.mem_singleton.mp hmem]
      exact UInt32.le_refl _
  have hcounters : (t'.parser.sequenceGaps = t.parser.sequenceGaps ∧ t'.parser.totalGapSize = t.parser.totalGapSize) ↔
      (post = [] ∨ d.seqNum = last.seqNum) ∧ (last.seqNum + 1 = 0 → d.seqNum = 0) := by
    have hiff := counters_copy_iff hle hpost
    rw [← counters_append_left (gapSizes (pre.map Msg.seqNum ++ [last.seqNum])), ← gapSizes_split, ← gapSizes_split,
      List.map_eq_nil_iff] at hiff
    rw [hgaps, htotal, hgaps', htotal', List.map_append, List.map_append, List.map_cons, List.map_cons, List.map_cons, ← hiff,
      counters, counters, Prod.mk.injEq]
  have hdispatched : (t'.dispatched.map ParsedMessage.withoutRecvTime = t.dispatched.map ParsedMessage.withoutRecvTime) ↔
      d.parsed 0 = none := by
    have hiff := filterMap_insert_iff (Msg.parsed 0) (pre ++ [last]) post d
    rw [List.append_assoc, List.append_assoc] at hiff
    rw [hmsgs, hmsgs']
    exact hiff
  rw [SameFeed, hcounters, hdispatched]
  exact ⟨fun ⟨h1, h2, h3⟩ => ⟨h1, h2, h3⟩, fun h => ⟨h.heartbeat, h.place, h.wrap⟩⟩

namespace DuplicatesAux

/-- Two trades and a heartbeat between them. -/
def firstTrade : Msg := .trade (.ofIndex 7) 1000 5 ⟨4641240890982006784, 200⟩
def beat : Msg := .heartbeat 0 1001 6
def lastTrade : Msg := .trade (.ofIndex 8) 1002 7 ⟨4641240890982006784, 100⟩

def plainRun : List ParserEvent := .feed (stream [firstTrade, beat, lastTrade]) 1 :: processCall [2, 3, 4, 5]

/-- The heartbeat comes twice. -/
def beatRun : List ParserEvent := [.feed (stream [firstTrade, beat]) 1, .call, .iterate 2, .iterate 3, .feed (stream [beat, lastTrade]) 4,
  .iterate 5, .iterate 6, .iterate 7]

/-- The two trades. -/
def tradesRun : List ParserEvent := .feed (stream [firstTrade, lastTrade]) 1 :: processCall [2, 3, 4]

/-- The first trade comes again behind the second. -/
def tradeRun : List ParserEvent := .feed (stream [firstTrade, lastTrade, firstTrade]) 1 :: processCall [2, 3, 4, 5]

end DuplicatesAux

/-- The runs `plainRun` and `beatRun` meet the hypotheses of `duplicate_iff`. -/
theorem duplicate_iff_beatRun :
    ∃ s s', Run.exec ParserSys.step (ParserSys.init recvBufSize) plainRun = some s ∧
      Run.exec ParserSys.step (ParserSys.init recvBufSize) beatRun = some s' ∧
      s.Ends fun t => s'.Ends fun t' => SameFeed t' t ↔ Unnoticed beat beat [lastTrade] := by
  have hplain : ∃ s, Run.exec ParserSys.step (ParserSys.init recvBufSize) plainRun = some s ∧
      fedBytes plainRun = stream ([firstTrade] ++ beat :: [lastTrade]) ∧
      ParserSys.NoOverflow (ParserSys.init recvBufSize) plainRun ∧ s.pc = .idle := by decide +kernel
  have hbeat : ∃ s, Run.exec ParserSys.step (ParserSys.init recvBufSize) beatRun = some s ∧
      fedBytes beatRun = stream ([firstTrade] ++ beat :: beat :: [lastTrade]) ∧
      ParserSys.NoOverflow (ParserSys.init recvBufSize) beatRun ∧ s.pc = .idle := by decide +kernel
  obtain ⟨s, hrun, hfed, hno, hidle⟩ := hplain
  obtain ⟨s', hrun', hfed', hno', hidle'⟩ := hbeat
  exact ⟨s, s', hrun, hrun', duplicate_iff [firstTrade] beat [lastTrade] beat (by decide) (by decide) s s'
    ⟨plainRun, hfed, hrun, hno, hidle⟩ ⟨beatRun, hfed', hrun', hno', hidle'⟩⟩

/-- After `tradesRun` each of the trades has been handed over once, after `tradeRun` the first one twice. -/
theorem duplicate_dispatched :
    ∃ s s', Run.exec ParserSys.step (ParserSys.init recvBufSize) tradesRun = some s ∧ s.pc = .idle ∧
      Run.exec ParserSys.step (ParserSys.init recvBufSize) tradeRun = some s' ∧ s'.pc = .idle ∧
      s.dispatched.map ParsedMessage.withoutRecvTime = [firstTrade, lastTrade].filterMap (Msg.parsed 0) ∧
      s'.dispatched.map ParsedMessage.withoutRecvTime = [firstTrade, lastTrade, firstTrade].filterMap (Msg.parsed 0) ∧
      ¬SameFeed s' s := by
  have hplain : ∃ s, Run.exec ParserSys.step (ParserSys.init recvBufSize) tradesRun = some s ∧ s.pc = .idle ∧
      s.dispatched.map ParsedMessage.withoutRecvTime = [firstTrade, lastTrade].filterMap (Msg.parsed 0) := by decide +kernel
  have hcopied : ∃ s, Run.exec ParserSys.step (ParserSys.init recvBufSize) tradeRun = some s ∧ s.pc = .idle ∧
      s.dispatched.map ParsedMessage.withoutRecvTime = [firstTrade, lastTrade, firstTrade].filterMap (Msg.parsed 0) := by
    decide +kernel
  obtain ⟨s, hrun, hidle, htrades⟩ := hplain
  obtain ⟨s', hrun', hidle', hthree⟩ := hcopied
  refine ⟨s, s', hrun, hidle, hrun', hidle', htrades, hthree, fun hsame => ?_⟩
  have heq := hsame.1
  rw [htrades, hthree] at heq
  cases heq

end MarketFeed
