import MarketFeed.ExchangeSimulator
import MarketFeed.Lemmas.Processed

/-!
# Injected gaps are counted

Every injection makes a gap of two numbers, and the number it skips from ends in 99. The last such number below `2 ^ 32` is more than
two away from the wrap, so no injected gap reaches across it, and the parser, which compares plain 32-bit numbers, sees every one.
-/

namespace MarketFeed

open ParserScanAux ExchangeSimulatorAux

variable {c : Capacity} {n : NumSymbols}

namespace FaultInjectionAux

/-- What the number of a message is after that of the message before it. -/
def Follows (a b : Emitted) : Prop :=
  if b.injected then (a.msg.seqNum + 1) % 100 = 99 ∧ b.msg.seqNum = a.msg.seqNum + 1 + 2 else b.msg.seqNum = a.msg.seqNum + 1

/-- The messages emitted so far are numbered one after the other, and the counter is behind the last. -/
structure Numbered (s : TickLoop n) : Prop where
  chain : s.emitted.IsChain Follows
  next : ∀ e, s.emitted.getLast? = some e → s.seq = e.msg.seqNum + 1

theorem Numbered.init (n : NumSymbols) : Numbered (TickLoop.init n) where
  chain := .nil
  next := fun e he => by cases he

/-- A tick emits one message, with the number it was given. -/
theorem generateTick_isSome (n : NumSymbols) (i seq : UInt32) (nowNs : UInt64) (draw : Draw) :
    ∃ m, generateTick n (i % n.val).toUInt16 seq nowNs draw = some m ∧ m.seqNum = seq := by
  unfold generateTick
  rw [dif_pos (symbol_lt n i)]
  cases draw with
  | quote payload => exact ⟨_, rfl, rfl⟩
  | trade payload => exact ⟨_, rfl, rfl⟩

/-- One more message that follows the last. -/
theorem Numbered.emit {s : TickLoop n} (h : Numbered s) {e : Emitted} {s' : TickLoop n} (hemitted : s'.emitted = s.emitted ++ [e])
    (hseq : s'.seq = e.msg.seqNum + 1) (hfollows : ∀ a, s.seq = a.msg.seqNum + 1 → Follows a e) : Numbered s' := by
  constructor
  · rw [hemitted, List.isChain_append]
    refine ⟨h.chain, .singleton e, fun a ha b hb => ?_⟩
    rw [List.head?_singleton, Option.mem_some_iff] at hb
    subst hb
    exact hfollows a (h.next a ha)
  · intro e' he'
    rw [hemitted, List.getLast?_append, List.getLast?_singleton, Option.some_or, Option.some.injEq] at he'
    rw [← he', hseq]

theorem Numbered.tick {s : TickLoop n} (h : Numbered s) (fault : Bool) (draw : Draw) (nowNs : UInt64) :
    Numbered (s.tick fault draw nowNs) := by
  by_cases hinject : fault = true ∧ s.seq % 100 = 99
  · obtain ⟨m, hm, hseq⟩ := generateTick_isSome n s.symbolIdx (s.seq + 2) nowNs draw
    refine h.emit (e := ⟨true, m⟩) ?_ ?_ (fun a ha => ?_)
    · simp [TickLoop.tick, hinject.1, hinject.2, hm]
    · simp [TickLoop.tick, hinject.1, hinject.2, hseq]
    · unfold Follows
      rw [if_pos rfl, ← ha]
      exact ⟨hinject.2, hseq⟩
  · obtain ⟨m, hm, hseq⟩ := generateTick_isSome n s.symbolIdx s.seq nowNs draw
    have hoff : (fault && decide (s.seq % 100 = 99)) = false := by
      rw [Bool.and_eq_false_iff, decide_eq_false_iff_not]
      by_cases hf : fault = true
      · exact Or.inr (fun h99 => hinject ⟨hf, h99⟩)
      · exact Or.inl (Bool.eq_false_iff.mpr hf)
    refine h.emit (e := ⟨false, m⟩) ?_ ?_ (fun a ha => ?_)
    · simp [TickLoop.tick, hoff, hm]
    · simp [TickLoop.tick, hoff, hseq]
    · unfold Follows
      rw [if_neg (by simp), ← ha]
      exact hseq

theorem Numbered.heartbeat {s : TickLoop n} (h : Numbered s) (now nowNs : UInt64) : Numbered (s.heartbeat now nowNs) := by
  unfold TickLoop.heartbeat
  split
  · refine h.emit (e := ⟨false, .heartbeat 0 s.seq nowNs⟩) rfl rfl (fun a ha => ?_)
    unfold Follows
    rw [if_neg (by simp), ← ha]
    rfl
  · exact h

/-- Every step keeps the messages numbered. -/
theorem Numbered.step {s s' : TickLoop n} {e : TickEvent} (h : Numbered s) (hs : s.step e = some s') : Numbered s' := by
  cases e with
  | stop =>
    cases hs
    exact ⟨h.chain, h.next⟩
  | batch rate =>
    simp only [TickLoop.step] at hs
    split at hs
    · split at hs
      · cases hs
        exact ⟨h.chain, h.next⟩
      · cases hs
    · cases hs
  | tick fault draw nowNs =>
    simp only [TickLoop.step] at hs
    split at hs
    · split at hs
      · cases hs
        have ht := h.tick fault draw nowNs
        exact ⟨ht.chain, ht.next⟩
      · cases hs
    · cases hs
  | endBatch now nowNs =>
    simp only [TickLoop.step] at hs
    split at hs
    · split at hs
      · cases hs
      · cases hs
        have hh := h.heartbeat now nowNs
        exact ⟨hh.chain, hh.next⟩
    · cases hs

/-- Two numbers skipped from one that ends in 99 are a gap of two to the parser: the wrap is not that near. -/
theorem skip_lt {a : UInt32} (h : a % 100 = 99) : a + 2 > a ∧ (a + 2 - a).toNat = 2 := by
  have hmod := congrArg UInt32.toNat h
  have h100 : (100 : UInt32).toNat = 100 := rfl
  have h99 : (99 : UInt32).toNat = 99 := rfl
  have h2 : (2 : UInt32).toNat = 2 := rfl
  rw [UInt32.toNat_mod, h100, h99] at hmod
  have hlt := a.toNat_lt
  have hsum : (a + 2).toNat = a.toNat + 2 := by
    rw [UInt32.toNat_add, h2]
    omega
  have hgt : a < a + 2 := by
    rw [UInt32.lt_iff_toNat_lt, hsum]
    omega
  refine ⟨hgt, ?_⟩
  rw [UInt32.toNat_sub_of_le _ _ (UInt32.le_of_lt hgt), hsum]
  omega

/-- The gaps in messages numbered one after the other are the injections between them, two numbers each. -/
theorem gapSizes_of_chain {es : List Emitted} (h : es.IsChain Follows) :
    gapSizes (es.map fun e => e.msg.seqNum) = List.replicate (injections es) 2 := by
  induction es with
  | nil => rfl
  | cons a es ih =>
    cases es with
    | nil => rfl
    | cons b rest =>
      obtain ⟨hab, hrest⟩ := List.isChain_cons_cons.mp h
      have ih' := ih hrest
      simp only [injections, List.map_cons, List.tail_cons] at ih' ⊢
      rw [gapSizes_cons_cons, gapTo, ih', List.countP_cons]
      unfold Follows at hab
      split at hab <;> rename_i hinj
      · obtain ⟨hgt, hsize⟩ := skip_lt hab.1
        rw [hab.2, if_pos hgt, hsize, if_pos hinj, List.replicate_succ, List.singleton_append]
      · rw [hab, if_neg (UInt32.lt_irrefl _), if_neg hinj, List.nil_append, Nat.add_zero]

end FaultInjectionAux

open FaultInjectionAux

/-- Any run of the tick loop, and a contiguous section of the messages it emitted, fed to a fresh parser: once a last `process` has
returned, the parser has counted one gap for each injection between the first and the last of them, and two missing messages. -/
theorem injections_counted (es : List TickEvent) (l : TickLoop n) (hrun : Run.exec TickLoop.step (TickLoop.init n) es = some l)
    (received : List Emitted) (hreceived : received <:+: l.emitted) (s : ParserSys c)
    (hfed : s.FedWith (stream (received.map Emitted.msg))) :
    s.Ends fun t => t.parser.sequenceGaps = UInt64.ofNat (injections received) ∧
      t.parser.totalGapSize = UInt64.ofNat (2 * injections received) := by
  refine hfed.ends.mono (fun t ht => ?_)
  have hnum : Numbered l := Run.exec_invariant (fun _ _ _ hi hs => hi.step hs) (Numbered.init n) hrun
  obtain ⟨before, behind, hemitted⟩ := hreceived
  have hchain := hnum.chain
  rw [← hemitted] at hchain
  have hsizes := gapSizes_of_chain hchain.left_of_append.right_of_append
  obtain ⟨hgaps, htotal⟩ := ht.gaps
  rw [hgaps, htotal, List.map_map]
  simp only [Function.comp_def]
  rw [hsizes, List.length_replicate, List.sum_replicate, smul_eq_mul, Nat.mul_comm]
  exact ⟨rfl, rfl⟩

namespace FaultInjectionAux

/-- One symbol. -/
def oneSymbol : NumSymbols := ⟨1, by decide, by decide⟩

def draw : Draw := .trade ⟨4641240890982006784, 200⟩

/-- A batch of 101 ticks, fault injection on from the hundredth, and the heartbeat behind it. -/
def injectingRun : List TickEvent :=
  List.flatten [[.batch 100000], List.replicate 99 (.tick false draw 5), [.tick true draw 6, .tick true draw 7, .stop,
    .endBatch 2000000000 8]]

/-- The last four messages of that run. -/
def lastFour : List Emitted :=
  [⟨false, .trade (.ofIndex 0) 98 5 ⟨4641240890982006784, 200⟩⟩, ⟨true, .trade (.ofIndex 0) 101 6 ⟨4641240890982006784, 200⟩⟩,
    ⟨false, .trade (.ofIndex 0) 102 7 ⟨4641240890982006784, 200⟩⟩, ⟨false, .heartbeat 0 103 8⟩]

def lastFourRun : List ParserEvent := [.feed (stream (lastFour.map Emitted.msg)) 1]

end FaultInjectionAux

/-- The runs `injectingRun` and `lastFourRun` meet the hypotheses of `injections_counted`, with one injection. -/
theorem injections_counted_injectingRun :
    ∃ l s, Run.exec TickLoop.step (TickLoop.init oneSymbol) injectingRun = some l ∧ lastFour <:+: l.emitted ∧
      injections lastFour = 1 ∧ Run.exec ParserSys.step (ParserSys.init recvBufSize) lastFourRun = some s ∧
      s.Ends fun t => t.parser.sequenceGaps = UInt64.ofNat (injections lastFour) ∧
        t.parser.totalGapSize = UInt64.ofNat (2 * injections lastFour) := by
  have hrun : ∃ l, Run.exec TickLoop.step (TickLoop.init oneSymbol) injectingRun = some l ∧
      l.emitted.take 98 ++ lastFour ++ [] = l.emitted := by decide +kernel
  have hfed : ∃ s, Run.exec ParserSys.step (ParserSys.init recvBufSize) lastFourRun = some s ∧
      fedBytes lastFourRun = stream (lastFour.map Emitted.msg) ∧
      ParserSys.NoOverflow (ParserSys.init recvBufSize) lastFourRun ∧ s.pc = .idle := by decide +kernel
  obtain ⟨l, hrun, hlast⟩ := hrun
  obtain ⟨s, hs, hbytes, hno, hidle⟩ := hfed
  have hreceived : lastFour <:+: l.emitted := ⟨l.emitted.take 98, [], hlast⟩
  exact ⟨l, s, hrun, hreceived, by decide, hs,
    injections_counted injectingRun l hrun lastFour hreceived s ⟨lastFourRun, hbytes, hs, hno, hidle⟩⟩

end MarketFeed
