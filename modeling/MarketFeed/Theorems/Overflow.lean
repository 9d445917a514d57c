import MarketFeed.Lemmas.Resync

/-!
# What the parser hands over when feeds overflow

A `feed` that finds too little room keeps the front of its bytes and drops the rest, wherever in a message that is. The parser then
has a message without its end in front of bytes of later messages, and has only the checksum to tell. What it hands over are messages
that were sent, in order, when no trade or quote seems to start, whole and verified, among the kept bytes but where one was sent.
-/

namespace MarketFeed

open Framing ScanAux ResyncAux

variable {c : Capacity}

/-! ## The bytes that are kept -/

/-- The parser, all bytes passed to `feed`, and those of them that the ring has kept, with their offsets. -/
structure KeptLog (c : Capacity) where
  sys : ParserSys c
  fed : List UInt8
  kept : List (Nat × UInt8)

namespace KeptLog

def init (c : Capacity) : KeptLog c := { sys := .init c, fed := [], kept := [] }

/-- A step of the parser. A `feed` keeps as many bytes as its `write` returns. -/
def step (s : KeptLog c) (e : ParserEvent) : Option (KeptLog c) :=
  match e with
  | .feed data _ =>
    let written := (s.sys.parser.ring.write data).2
    (s.sys.step e).map fun t =>
      { sys := t, fed := s.fed ++ data, kept := s.kept ++ (List.range' s.fed.length written).zip (data.take written) }
  | _ => (s.sys.step e).map fun t => { s with sys := t }

/-- The kept bytes. -/
def bytes (s : KeptLog c) : List UInt8 := s.kept.map Prod.snd

/-- Their offsets. -/
def offsets (s : KeptLog c) : List Nat := s.kept.map Prod.fst

/-- The kept bytes from `j` on begin with the bytes of the message behind `before`, with none missing. -/
def HoldsWhole (s : KeptLog c) (j : Nat) (before : List Msg) (m : Msg) : Prop :=
  (s.offsets.drop j).take m.bytes.length = List.range' (stream before).length m.bytes.length

instance (s : KeptLog c) (j : Nat) (before : List Msg) (m : Msg) : Decidable (s.HoldsWhole j before m) :=
  inferInstanceAs (Decidable (_ = _))

/-- The kept bytes from `j` on begin with a whole one of these messages. -/
def InStep (s : KeptLog c) (ms : List Msg) (j : Nat) : Prop :=
  ∃ before m rest, ms = before ++ m :: rest ∧ s.HoldsWhole j before m

/-- Wherever the kept bytes do not begin with a whole one of these messages, a message that verifies there is not for the callback. -/
def SilentOutOfStep (s : KeptLog c) (ms : List Msg) : Prop :=
  ∀ j < s.bytes.length, ¬s.InStep ms j → Verifies (s.bytes.drop j) → Discarded (s.bytes.drop j)

/-- A message handed over, which is from the kept bytes between two places, is built from the bytes of one of these messages and has
its fields. -/
def BuiltFrom (s : KeptLog c) (ms : List Msg) (x : Nat × Nat × ParsedMessage) : Prop :=
  ∃ before m rest, ms = before ++ m :: rest ∧ s.HoldsWhole x.1 before m ∧ x.2.1 = x.1 + m.bytes.length ∧
    m.parsed 0 = some x.2.2

end KeptLog

namespace OverflowAux

/-- The kept bytes are bytes that were fed, in order, and the parser is in step with their scan. -/
structure KeptInv (s : KeptLog c) (ps : List (Piece SkipReason UInt8)) : Prop where
  sim : Sim s.sys s.bytes ps
  fed : ∀ x ∈ s.kept, s.fed[x.1]? = some x.2
  ordered : s.offsets.Pairwise (· < ·)

theorem KeptInv.init (c : Capacity) : KeptInv (KeptLog.init c) [] :=
  ⟨Sim.init c, fun _ hx => absurd hx List.not_mem_nil, .nil⟩

/-- Feeding keeps a front of the bytes, behind those kept before. -/
theorem KeptInv.feed {s s' : KeptLog c} {ps : List (Piece SkipReason UInt8)} (h : KeptInv s ps) {data : List UInt8} {t : UInt64}
    (hs : s.step (.feed data t) = some s') : KeptInv s' ps := by
  cases hs
  obtain ⟨hwritten, -, -⟩ := ByteRingBuffer.write_spec h.sim.bounded data
  have hsim := h.sim.feed data t
  generalize hw : (s.sys.parser.ring.write data).2 = w at hwritten ⊢
  have htake : data.take (c.val - s.sys.parser.ring.contents.length) = data.take w := by
    rw [hwritten, Nat.min_comm, ← List.take_take, List.take_length]
  have hlen : (List.range' s.fed.length w).length = (data.take w).length := by
    rw [List.length_range', List.length_take]
    omega
  refine ⟨?_, fun x hx => ?_, ?_⟩
  · have hbytes : (s.kept ++ (List.range' s.fed.length w).zip (data.take w)).map Prod.snd = s.bytes ++ data.take w := by
      rw [List.map_append, List.map_snd_zip (Nat.le_of_eq hlen.symm)]
      rfl
    rw [htake] at hsim
    rw [KeptLog.bytes, hbytes]
    exact hsim
  · rcases List.mem_append.mp hx with hx | hx
    · have hold := h.fed x hx
      have hlt := (List.getElem?_eq_some_iff.mp hold).1
      rw [List.getElem?_append_left hlt]
      exact hold
    · obtain ⟨i, hi, rfl⟩ := List.mem_iff_getElem.mp hx
      rw [List.length_zip, ← hlen, Nat.min_self] at hi
      have hi' : i < (data.take w).length := hlen ▸ hi
      rw [List.getElem_zip, List.getElem_range', Nat.one_mul, List.getElem?_append_right (Nat.le_add_right _ _),
        Nat.add_sub_cancel_left, List.getElem_take]
      exact List.getElem?_eq_getElem _
  · have hoffsets : (s.kept ++ (List.range' s.fed.length w).zip (data.take w)).map Prod.fst =
        s.offsets ++ List.range' s.fed.length w := by
      rw [List.map_append, List.map_fst_zip (Nat.le_of_eq hlen)]
      rfl
    rw [KeptLog.offsets, hoffsets, List.pairwise_append]
    refine ⟨h.ordered, List.pairwise_lt_range', fun i hi k hk => ?_⟩
    obtain ⟨x, hx, rfl⟩ := List.mem_map.mp hi
    have hlt := (List.getElem?_eq_some_iff.mp (h.fed x hx)).1
    have hge := (List.mem_range'_1.mp hk).1
    omega

/-- Every step keeps the invariant. -/
theorem KeptInv.step {s s' : KeptLog c} {ps : List (Piece SkipReason UInt8)} (h : KeptInv s ps) {e : ParserEvent}
    (hs : s.step e = some s') : ∃ ps', KeptInv s' ps' := by
  cases e with
  | feed data t => exact ⟨ps, h.feed hs⟩
  | call =>
    obtain ⟨t, ht, rfl⟩ := Option.map_eq_some_iff.mp hs
    obtain ⟨ps', hsim⟩ := h.sim.process_step (fun _ _ he => by cases he) ht
    exact ⟨ps', hsim, h.fed, h.ordered⟩
  | iterate now =>
    obtain ⟨t, ht, rfl⟩ := Option.map_eq_some_iff.mp hs
    obtain ⟨ps', hsim⟩ := h.sim.process_step (fun _ _ he => by cases he) ht
    exact ⟨ps', hsim, h.fed, h.ordered⟩

theorem KeptInv.exec {es : List ParserEvent} {s : KeptLog c} (h : Run.exec KeptLog.step (KeptLog.init c) es = some s) :
    ∃ ps, KeptInv s ps :=
  Run.exec_invariant (I := fun s => ∃ ps, KeptInv s ps) (fun _ _ _ hi hs => hi.elim fun _ h => h.step hs) ⟨[], .init c⟩ h

/-! ## In step -/

/-- A message that is kept whole is there byte for byte. -/
theorem bytes_of_holdsWhole {s : KeptLog c} {ps : List (Piece SkipReason UInt8)} (h : KeptInv s ps) {before rest : List Msg} {m : Msg}
    (hfed : s.fed <+: stream (before ++ m :: rest)) {j : Nat} (hwhole : s.HoldsWhole j before m) :
    (s.bytes.drop j).take m.bytes.length = m.bytes := by
  have hlen : ((s.kept.drop j).take m.bytes.length).length = m.bytes.length := by
    have hlen := congrArg List.length hwhole
    rw [KeptLog.offsets, ← List.map_drop, ← List.map_take, List.length_map, List.length_range'] at hlen
    exact hlen
  rw [KeptLog.bytes, ← List.map_drop, ← List.map_take]
  apply List.ext_getElem
  · rw [List.length_map, hlen]
  · intro i hi hi'
    rw [List.getElem_map]
    have hi'' : i < ((s.kept.drop j).take m.bytes.length).length := by rw [hlen]; exact hi'
    have hoff : (((s.kept.drop j).take m.bytes.length)[i]).1 = (stream before).length + i := by
      have hget : ((s.offsets.drop j).take m.bytes.length)[i]? = some ((stream before).length + i) := by
        rw [hwhole, List.getElem?_range' hi', Nat.one_mul]
      rw [KeptLog.offsets, ← List.map_drop, ← List.map_take, List.getElem?_map, List.getElem?_eq_getElem hi''] at hget
      exact Option.some.inj hget
    have hmem : ((s.kept.drop j).take m.bytes.length)[i] ∈ s.kept :=
      List.mem_of_mem_drop (List.mem_of_mem_take (List.getElem_mem hi''))
    have hsent := h.fed _ hmem
    have hlt := (List.getElem?_eq_some_iff.mp hsent).1
    rw [hoff] at hsent hlt
    obtain ⟨tail, htail⟩ := hfed
    have hahead : (s.fed ++ tail)[(stream before).length + i]? = s.fed[(stream before).length + i]? := List.getElem?_append_left hlt
    rw [← hahead, htail] at hsent
    rw [stream_append, stream_cons, List.getElem?_append_right (Nat.le_add_right _ _), Nat.add_sub_cancel_left,
      List.getElem?_append_left hi', List.getElem?_eq_getElem hi'] at hsent
    exact (Option.some.inj hsent).symm

/-- Where a whole message is kept, the parser takes it. -/
theorem verdict_of_holdsWhole {s : KeptLog c} {ps : List (Piece SkipReason UInt8)} (h : KeptInv s ps) {before rest : List Msg}
    {m : Msg} (hfed : s.fed <+: stream (before ++ m :: rest)) {j : Nat} (hwhole : s.HoldsWhole j before m) :
    verdict (s.bytes.drop j) = .take m.bytes.length := by
  have hstable : verdict (m.bytes ++ (s.bytes.drop j).drop m.bytes.length) = verdict m.bytes :=
    verdict_stable _ (by rw [m.verdict_bytes]; simp)
  conv_lhs => rw [← List.take_append_drop m.bytes.length (s.bytes.drop j), bytes_of_holdsWhole h hfed hwhole]
  rw [hstable, m.verdict_bytes]

/-- All that the scan of the kept bytes delivers is built from sent messages when they are silent out of step. -/
theorem builtFrom_of_silent {s : KeptLog c} {ps : List (Piece SkipReason UInt8)} (h : KeptInv s ps) {ms : List Msg}
    (hfed : s.fed <+: stream ms) (hsilent : s.SilentOutOfStep ms) :
    ∀ x ∈ deliveries 0 (wire.scan s.bytes).1, s.BuiltFrom ms x := by
  intro x hx
  obtain ⟨j, n, pm, -, hv, hpm, rfl⟩ := mem_deliveries.mp hx
  by_cases hin : s.InStep ms j
  · obtain ⟨before, m, rest, rfl, hwhole⟩ := hin
    have hn : n = m.bytes.length := by
      rw [verdict_of_holdsWhole h hfed hwhole] at hv
      exact (Verdict.take.inj hv).symm
    rw [hn, bytes_of_holdsWhole h hfed hwhole, m.frameMessage_bytes] at hpm
    rw [Nat.zero_add]
    exact ⟨before, m, rest, rfl, hwhole, by rw [hn], hpm⟩
  · have hlt : j < s.bytes.length := by
      have hn := (verdict_take hv).2.1
      have hpos := (verdict_take hv).2.2.2.1
      rw [List.length_drop] at hn
      omega
    have hdiscarded := hsilent j hlt hin (verifies_of_take hv).1
    rw [(frameMessage_take hv).mpr hdiscarded] at hpm
    cases hpm

/-! ## In order -/

/-- The place of a delivery among the bytes that were fed. -/
def sentPlace (s : KeptLog c) (x : Nat × Nat × ParsedMessage) : Nat × Nat × ParsedMessage :=
  (s.offsets[x.1]?.getD 0, s.offsets[x.1]?.getD 0 + (x.2.1 - x.1), x.2.2)

/-- A message that is kept whole starts at its own offset. -/
theorem offset_of_holdsWhole {s : KeptLog c} {j : Nat} {before : List Msg} {m : Msg} (h : s.HoldsWhole j before m) :
    s.offsets[j]? = some (stream before).length := by
  have hpos : 0 < m.bytes.length := by rcases m.length_bytes_cases with hl | hl | hl <;> omega
  have hget : ((s.offsets.drop j).take m.bytes.length)[0]? = some ((stream before).length) := by
    rw [h, List.getElem?_range' hpos, Nat.mul_zero, Nat.add_zero]
  rw [List.getElem?_take_of_lt hpos, List.getElem?_drop, Nat.add_zero] at hget
  exact hget

/-- A delivery that is built from a sent message stands where the message does. -/
theorem sentPlace_mem {s : KeptLog c} {ms : List Msg} {x : Nat × Nat × ParsedMessage} (h : s.BuiltFrom ms x) :
    sentPlace s x ∈ messagesAt 0 ms := by
  obtain ⟨before, m, rest, rfl, hwhole, hend, hpm⟩ := h
  have hplace : sentPlace s x = ((stream before).length, (stream before).length + m.bytes.length, x.2.2) := by
    rw [sentPlace, offset_of_holdsWhole hwhole, hend, Nat.add_sub_cancel_left, Option.getD_some]
  rw [hplace, messagesAt_append, Nat.zero_add, messagesAt, hpm]
  exact List.mem_append_right _ (List.mem_append_left _ (List.mem_singleton.mpr rfl))

/-- Deliveries that are all built from sent messages are a subsequence of these. -/
theorem sublist_of_builtFrom {s : KeptLog c} {ps : List (Piece SkipReason UInt8)} (h : KeptInv s ps) {ms : List Msg}
    (hall : ∀ x ∈ deliveries 0 (wire.scan s.bytes).1, s.BuiltFrom ms x) :
    ((deliveries 0 (wire.scan s.bytes).1).map fun x => x.2.2).Sublist (ms.filterMap (Msg.parsed 0)) := by
  have hordered : ((deliveries 0 (wire.scan s.bytes).1).map (sentPlace s)).Pairwise fun x y => x.1 < y.1 := by
    rw [List.pairwise_map]
    refine (pairwise_deliveries s.bytes).imp_of_mem fun {x y} hx hy hlt => ?_
    obtain ⟨before, m, _, -, hwhole, -⟩ := hall x hx
    obtain ⟨before', m', _, -, hwhole', -⟩ := hall y hy
    have hxo := offset_of_holdsWhole hwhole
    have hyo := offset_of_holdsWhole hwhole'
    simp only [sentPlace, hxo, hyo, Option.getD_some]
    obtain ⟨hxlt, hxv⟩ := List.getElem?_eq_some_iff.mp hxo
    obtain ⟨hylt, hyv⟩ := List.getElem?_eq_some_iff.mp hyo
    rw [← hxv, ← hyv]
    exact List.pairwise_iff_getElem.mp h.ordered _ _ hxlt hylt hlt
  have hsub : (deliveries 0 (wire.scan s.bytes).1).map (sentPlace s) ⊆ messagesAt 0 ms := by
    intro y hy
    obtain ⟨x, hx, rfl⟩ := List.mem_map.mp hy
    exact sentPlace_mem (hall x hx)
  have hsublist := (sublist_of_placed hordered (pairwise_messagesAt 0 ms) hsub).map fun x => x.2.2
  rw [List.map_map, map_messagesAt] at hsublist
  exact hsublist

end OverflowAux

open OverflowAux

/-- A stream of messages fed in any chunks, with `process` running anywhere in between and any of the feeds overflowing the ring. As
long as the kept bytes are silent out of step, what the parser has handed over is a subsequence of the trades and quotes that were sent,
with their fields unchanged, at every point of the run. -/
theorem sent_only_of_silent (ms : List Msg) (es : List ParserEvent) (s : KeptLog c)
    (hrun : Run.exec KeptLog.step (KeptLog.init c) es = some s) (hfed : s.fed <+: stream ms) (hsilent : s.SilentOutOfStep ms) :
    (s.sys.dispatched.map ParsedMessage.withoutRecvTime).Sublist (ms.filterMap (Msg.parsed 0)) := by
  obtain ⟨ps, hinv⟩ := KeptInv.exec hrun
  have hpre := deliveries_prefix hinv.sim []
  rw [List.append_nil] at hpre
  have hsublist := sublist_of_builtFrom hinv (builtFrom_of_silent hinv hfed hsilent)
  rw [dispatched_withoutRecvTime]
  exact ((hpre.map fun x => x.2.2).sublist).trans hsublist

namespace OverflowAux

/-- A ring of 64 bytes. -/
def ring64 : Capacity := ⟨64, 6, by decide, by decide⟩

def firstQuote : Msg := .quote (.ofIndex 3) 1000 1700000000000000000 ⟨4641240890982006784, 200, 4641240890982006785, 300⟩

/-- Two trades of symbol 7: the 20 bytes of the second that fit behind the quote, and the first 12 of `lastTrade`, verify. -/
def cutTrade : Msg := .trade (.ofIndex 7) 1001 1700000000000000500 ⟨4641240890982006784, 100⟩
def fusingTrade : Msg := .trade (.ofIndex 7) 1001 1700000000000000500 ⟨4641240891017140119, 100⟩

def lastTrade : Msg := .trade (.ofIndex 8) 1002 1700000000000001000 ⟨4641240890982006784, 100⟩

/-- A quote and a trade come in one chunk, of which the ring keeps the quote and 20 bytes; `process` takes the quote; then another
trade comes, and `process` runs once more, for `k` iterations. -/
def overflowRun (trade : Msg) (k : Nat) : List ParserEvent :=
  List.flatten [[.feed (stream [firstQuote, trade]) 5, .call, .iterate 6, .iterate 6, .feed lastTrade.bytes 7],
    processCall (List.replicate k 8)]

end OverflowAux

/-- The run with `cutTrade` meets the hypotheses of `sent_only_of_silent`: of the three messages the cut one is missing. -/
theorem sent_only_of_silent_cutRun :
    ∃ s, Run.exec KeptLog.step (KeptLog.init ring64) (overflowRun cutTrade 22) = some s ∧ s.sys.pc = .idle ∧
      s.sys.dispatched.map ParsedMessage.withoutRecvTime = [firstQuote, lastTrade].filterMap (Msg.parsed 0) ∧
      (s.sys.dispatched.map ParsedMessage.withoutRecvTime).Sublist
        ([firstQuote, cutTrade, lastTrade].filterMap (Msg.parsed 0)) := by
  have hrun : ∃ s, Run.exec KeptLog.step (KeptLog.init ring64) (overflowRun cutTrade 22) = some s ∧
      s.fed = stream [firstQuote, cutTrade, lastTrade] ∧
      s.HoldsWhole 0 [] firstQuote ∧ s.HoldsWhole 64 [firstQuote, cutTrade] lastTrade ∧
      (∀ j < s.bytes.length, j ≠ 0 → j ≠ 64 → ¬Verifies (s.bytes.drop j)) ∧ s.sys.pc = .idle ∧
      s.sys.dispatched.map ParsedMessage.withoutRecvTime = [firstQuote, lastTrade].filterMap (Msg.parsed 0) := by decide +kernel
  obtain ⟨s, hrun, hfed, hquote, htrade, hnone, hidle, hdispatched⟩ := hrun
  have hsilent : s.SilentOutOfStep [firstQuote, cutTrade, lastTrade] := by
    intro j hj hout hverifies
    refine absurd hverifies (hnone j hj (fun h0 => hout ?_) (fun h64 => hout ?_))
    · exact h0 ▸ ⟨[], firstQuote, [cutTrade, lastTrade], rfl, hquote⟩
    · exact h64 ▸ ⟨[firstQuote, cutTrade], lastTrade, [], rfl, htrade⟩
  exact ⟨s, hrun, hidle, hdispatched,
    sent_only_of_silent [firstQuote, cutTrade, lastTrade] _ s hrun (hfed ▸ List.prefix_refl _) hsilent⟩

/-- In the run with `fusingTrade` the parser hands over a trade that was not sent: the front of one trade and the front of the next. -/
theorem overflow_fuses :
    ∃ s, Run.exec KeptLog.step (KeptLog.init ring64) (overflowRun fusingTrade 7) = some s ∧
      s.fed = stream [firstQuote, fusingTrade, lastTrade] ∧
      (⟨msgTrade, 1001, 1700000000000000500, 7, 7, .trade ⟨282037930994177943, 65536000⟩⟩ : ParsedMessage) ∈ s.sys.dispatched ∧
      ¬(s.sys.dispatched.map ParsedMessage.withoutRecvTime).Sublist
        ([firstQuote, fusingTrade, lastTrade].filterMap (Msg.parsed 0)) := by decide +kernel

end MarketFeed
