import MarketFeed.ParserOps
import MarketFeed.TickGenerator

/-!
# Resetting the statistics

`reset_stats` also resets the ring, and with it goes every byte that has been fed and not processed. Where there is none, the call
is without effect on the feed: the parser then hands over the same messages as one that was never reset.
-/

namespace MarketFeed

open Framing ParserOpsAux ParserScanAux

variable {c : Capacity}

/-- `reset_stats` is called while nothing is in the ring. -/
def ParserLog.FindsRingEmpty (s : ParserLog c) : ParserOp → Prop
  | .resetStats => s.parser.ring.readable = 0
  | _ => True

instance (s : ParserLog c) : (op : ParserOp) → Decidable (s.FindsRingEmpty op)
  | .feed _ _ => isTrue trivial
  | .process => isTrue trivial
  | .resetStats => inferInstanceAs (Decidable (s.parser.ring.readable = 0))

/-- The calls with the `reset_stats` calls left out. -/
def withoutResets (ops : List ParserOp) : List ParserOp := ops.filter (· ≠ .resetStats)

namespace ResetStatsAux

/-- Two parsers that differ in no more than their counters, their sequence tracking and where their rings stand. -/
structure Alike (p q : Parser c) : Prop where
  bounded : p.ring.Bounded
  bounded' : q.ring.Bounded
  contents : p.ring.contents = q.ring.contents
  scratch : p.scratch = q.scratch
  batch : p.batchRecvTimeNs = q.batchRecvTimeNs

theorem Alike.refl {p : Parser c} (h : p.ring.Bounded) : Alike p p := ⟨h, h, rfl, rfl, rfl⟩

/-- What an accepted message comes to is read off the scratch buffer and the time of the batch. -/
theorem accept_outcome {p q : Parser c} (hs : p.scratch = q.scratch) (hb : p.batchRecvTimeNs = q.batchRecvTimeNs) (hdr : MsgHeader)
    (n : Nat) : (p.accept hdr n).2 = (q.accept hdr n).2 := by
  obtain ⟨-, hscratch, hbatch⟩ := detectGap_keeps p hdr
  obtain ⟨-, hscratch', hbatch'⟩ := detectGap_keeps q hdr
  unfold Parser.accept
  dsimp only
  rw [hscratch, hbatch, hscratch', hbatch', hs, hb]
  split_ifs <;> rfl

/-- Two parsers that are alike take bytes off their rings together. -/
theorem Alike.consume {p q p' q' : Parser c} (h : Alike p q) {n : Nat} (hn : n ≤ p.ring.contents.length)
    (hp : p'.ring = p.ring.consume n) (hq : q'.ring = q.ring.consume n) (hscratch : p'.scratch = q'.scratch)
    (hbatch : p'.batchRecvTimeNs = q'.batchRecvTimeNs) : Alike p' q' := by
  obtain ⟨hcon, hbd⟩ := ByteRingBuffer.consume_spec h.bounded hn
  obtain ⟨hcon', hbd'⟩ := ByteRingBuffer.consume_spec h.bounded' (h.contents ▸ hn)
  refine ⟨?_, ?_, ?_, hscratch, hbatch⟩
  · rw [hp]
    exact hbd
  · rw [hq]
    exact hbd'
  · rw [hp, hq, hcon, hcon', h.contents]

/-- An iteration comes to the same in two parsers that are alike. -/
theorem Alike.iterate {p q : Parser c} (h : Alike p q) :
    p.iterate = none ∧ q.iterate = none ∨
      ∃ p' q' o, p.iterate = some (p', o) ∧ q.iterate = some (q', o) ∧ Alike p' q' := by
  have hadvance : ∀ n, (verdict p.ring.contents).advance = some n → n ≤ p.ring.contents.length := fun n ha => wire.advance_le ha
  rw [iterate_eq h.bounded, iterate_eq h.bounded', ← h.contents]
  dsimp only
  have hpeeked : ∀ n, (peeked p n).scratch = (peeked q n).scratch := by
    intro n
    simp only [peeked, h.contents, h.scratch]
  cases hv : verdict p.ring.contents with
  | wait => exact Or.inl ⟨rfl, rfl⟩
  | skip why =>
    have hn : 1 ≤ p.ring.contents.length := hadvance 1 (by rw [hv]; rfl)
    cases why with
    | unknownType => exact Or.inr ⟨_, _, _, rfl, rfl, h.consume hn rfl rfl h.scratch h.batch⟩
    | badChecksum => exact Or.inr ⟨_, _, _, rfl, rfl, h.consume hn rfl rfl (hpeeked _) h.batch⟩
  | take n =>
    have hn : n ≤ p.ring.contents.length := hadvance n (by rw [hv]; rfl)
    set hdr := MsgHeader.ofBytes p.ring.contents
    set p₁ : Parser c := { peeked p n with ring := p.ring.consume n }
    set q₁ : Parser c := { peeked q n with ring := q.ring.consume n }
    have hscratch : p₁.scratch = q₁.scratch := hpeeked n
    have hbatch : p₁.batchRecvTimeNs = q₁.batchRecvTimeNs := h.batch
    have hscratch' : (p₁.accept hdr n).1.scratch = (q₁.accept hdr n).1.scratch := by
      rw [(accept_keeps p₁ hdr n).scratch, (accept_keeps q₁ hdr n).scratch, hscratch]
    have hbatch' : (p₁.accept hdr n).1.batchRecvTimeNs = (q₁.accept hdr n).1.batchRecvTimeNs := by
      rw [(accept_keeps p₁ hdr n).batchRecvTimeNs, (accept_keeps q₁ hdr n).batchRecvTimeNs, hbatch]
    have halike : Alike (p₁.accept hdr n).1 (q₁.accept hdr n).1 :=
      h.consume hn (accept_keeps p₁ hdr n).ring (accept_keeps q₁ hdr n).ring hscratch' hbatch'
    refine Or.inr ⟨(p₁.accept hdr n).1, (q₁.accept hdr n).1, (p₁.accept hdr n).2, rfl, ?_, halike⟩
    rw [accept_outcome hscratch hbatch]

/-- The loop of `process` comes to the same in two parsers that are alike. -/
theorem Alike.processFrom {p q : Parser c} (h : Alike p q) (k : Nat) :
    Alike (Parser.processFrom k p).1 (Parser.processFrom k q).1 ∧ (Parser.processFrom k p).2 = (Parser.processFrom k q).2 := by
  induction k generalizing p q with
  | zero => exact ⟨h, rfl⟩
  | succ k ih =>
    unfold Parser.processFrom
    rcases h.iterate with ⟨hp, hq⟩ | ⟨p', q', o, hp, hq, h'⟩
    · rw [hp, hq]
      exact ⟨h, rfl⟩
    · obtain ⟨halike, hout⟩ := ih h'
      simp only [hp, hq]
      exact ⟨halike, by rw [hout]⟩

/-- A call comes to the same in two parsers that are alike. -/
theorem Alike.call {p q : Parser c} (h : Alike p q) (op : ParserOp) (hop : op ≠ .resetStats) :
    Alike (p.call op).1 (q.call op).1 ∧ (p.call op).2 = (q.call op).2 := by
  cases op with
  | feed data t =>
    obtain ⟨-, hcon, hbd⟩ := ByteRingBuffer.write_spec h.bounded data
    obtain ⟨-, hcon', hbd'⟩ := ByteRingBuffer.write_spec h.bounded' data
    refine ⟨⟨hbd, hbd', ?_, h.scratch, rfl⟩, rfl⟩
    exact hcon.trans (by rw [h.contents, ← hcon']; rfl)
  | process =>
    have hlen : q.ring.readable.toNat = p.ring.readable.toNat := by
      rw [← ByteRingBuffer.length_contents, ← ByteRingBuffer.length_contents, h.contents]
    unfold Parser.call Parser.process
    rw [hlen]
    exact h.processFrom _
  | resetStats => exact absurd rfl hop

/-- With nothing in the ring, a parser is alike before and after `reset_stats`. -/
theorem Alike.resetStats {p q : Parser c} (h : Alike p q) (hempty : p.ring.readable = 0) : Alike p.resetStats q := by
  have hread : p.resetStats.ring.readable.toNat = 0 := by
    simp [Parser.resetStats, ByteRingBuffer.reset, ByteRingBuffer.readable]
  have hreset : p.resetStats.ring.contents = [] := List.eq_nil_of_length_eq_zero (by rw [ByteRingBuffer.length_contents, hread])
  have hbounded : p.resetStats.ring.Bounded := by
    rw [ByteRingBuffer.Bounded, hread]
    exact Nat.zero_le _
  have hnil : p.ring.contents = [] := by
    rw [← List.length_eq_zero_iff, ByteRingBuffer.length_contents, hempty]
    rfl
  refine ⟨hbounded, h.bounded', ?_, h.scratch, h.batch⟩
  rw [hreset, ← h.contents, hnil]

/-- A run and the run without its resets, step by step. -/
theorem exec_withoutResets {ops : List ParserOp} {s s' t t' : ParserLog c} (h : Alike s.parser t.parser)
    (hout : s.outcomes = t.outcomes) (hok : Run.Along ParserLog.step ParserLog.FindsRingEmpty s ops)
    (hs : Run.exec ParserLog.step s ops = some s') (ht : Run.exec ParserLog.step t (withoutResets ops) = some t') :
    Alike s'.parser t'.parser ∧ s'.outcomes = t'.outcomes := by
  induction ops generalizing s t with
  | nil =>
    cases hs
    cases ht
    exact ⟨h, hout⟩
  | cons op ops ih =>
    obtain ⟨s₁, hs₁, hs'⟩ := Run.exec_cons_eq_some.mp hs
    cases hs₁
    obtain ⟨hempty, hok'⟩ := hok
    unfold withoutResets at ht
    rw [List.filter_cons] at ht
    by_cases hop : op = .resetStats
    · subst hop
      exact ih (h.resetStats hempty) (by rw [← hout]; exact List.append_nil _) hok' hs' ht
    · rw [if_pos (by simpa using hop)] at ht
      obtain ⟨t₁, ht₁, ht'⟩ := Run.exec_cons_eq_some.mp ht
      cases ht₁
      obtain ⟨halike, hcall⟩ := h.call op hop
      exact ih halike (by rw [hout, hcall]) hok' hs' ht'

end ResetStatsAux

open ResetStatsAux

/-- In every run of `feed`, `process` and `reset_stats` calls in which `reset_stats` always finds the ring empty, the messages handed to
the callback are those of the run with the `reset_stats` calls left out, and so are the bytes left in the ring. -/
theorem reset_of_findsRingEmpty (ops : List ParserOp) (s t : ParserLog c)
    (hok : Run.Along ParserLog.step ParserLog.FindsRingEmpty (ParserLog.init c) ops)
    (hs : Run.exec ParserLog.step (ParserLog.init c) ops = some s)
    (ht : Run.exec ParserLog.step (ParserLog.init c) (withoutResets ops) = some t) :
    s.dispatched = t.dispatched ∧ s.parser.ring.contents = t.parser.ring.contents := by
  have halike : Alike (ParserLog.init c).parser (ParserLog.init c).parser := .refl (ByteRingBuffer.bounded_empty c)
  obtain ⟨h, hout⟩ := exec_withoutResets halike rfl hok hs ht
  exact ⟨congrArg (List.filterMap Outcome.message) hout, h.contents⟩

namespace ResetStatsAux

def someTrade : Msg := .trade (.ofIndex 7) 1000 5 ⟨4641240890982006784, 200⟩

/-- A trade is fed, processed, and fed again; the statistics are reset in between. -/
def quietOps : List ParserOp := [.feed someTrade.bytes 1, .process, .resetStats, .feed someTrade.bytes 2, .process]

/-- The statistics are reset between the two halves of a trade. -/
def halfwayOps : List ParserOp :=
  [.feed (someTrade.bytes.take 20) 1, .process, .resetStats, .feed (someTrade.bytes.drop 20) 2, .process]

end ResetStatsAux

/-- The run `quietOps` meets the hypotheses of `reset_of_findsRingEmpty`. -/
theorem reset_of_findsRingEmpty_quietOps :
    ∃ s t, Run.exec ParserLog.step (ParserLog.init recvBufSize) quietOps = some s ∧
      Run.exec ParserLog.step (ParserLog.init recvBufSize) (withoutResets quietOps) = some t ∧ s.dispatched.length = 2 ∧
      s.dispatched = t.dispatched := by
  have hrun : ∃ s, Run.exec ParserLog.step (ParserLog.init recvBufSize) quietOps = some s ∧ s.dispatched.length = 2 := by
    decide +kernel
  have hplain : ∃ t, Run.exec ParserLog.step (ParserLog.init recvBufSize) (withoutResets quietOps) = some t ∧ True := by
    decide +kernel
  obtain ⟨s, hs, htwo⟩ := hrun
  obtain ⟨t, ht, -⟩ := hplain
  exact ⟨s, t, hs, ht, htwo, (reset_of_findsRingEmpty quietOps s t (by decide +kernel) hs ht).1⟩

/-- In the run `halfwayOps` the trade is not handed over; without the reset it is. -/
theorem reset_loses_trade :
    ∃ s t, Run.exec ParserLog.step (ParserLog.init recvBufSize) halfwayOps = some s ∧
      Run.exec ParserLog.step (ParserLog.init recvBufSize) (withoutResets halfwayOps) = some t ∧ s.dispatched = [] ∧
      t.dispatched = (someTrade.parsed 2).toList ∧ t.dispatched ≠ [] := by
  have hrun : ∃ s, Run.exec ParserLog.step (ParserLog.init recvBufSize) halfwayOps = some s ∧ s.dispatched = [] := by decide +kernel
  have hplain : ∃ t, Run.exec ParserLog.step (ParserLog.init recvBufSize) (withoutResets halfwayOps) = some t ∧
      t.dispatched = (someTrade.parsed 2).toList ∧ t.dispatched ≠ [] := by decide +kernel
  obtain ⟨s, hs, hnone⟩ := hrun
  obtain ⟨t, ht, htrade, hne⟩ := hplain
  exact ⟨s, t, hs, ht, hnone, htrade, hne⟩

end MarketFeed
