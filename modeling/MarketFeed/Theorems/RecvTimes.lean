import MarketFeed.Lemmas.Resync

/-!
# Receive times

A dispatched message carries the time of the last `feed`, whichever `feed` its bytes came from. With the time of each byte of the stream
beside it (`arrivals`), a message carries the time of its own last byte as long as a `feed` with a new time only comes when no complete
trade or quote waits in the ring.
-/

namespace MarketFeed

open Framing

variable {c : Capacity}

/-- The `recv_time_ns` of the `feed` that delivered each byte of the stream. -/
def arrivals (es : List ParserEvent) : List UInt64 :=
  es.flatMap fun e =>
    match e with
    | .feed data t => List.replicate data.length t
    | _ => []

namespace ParserSys

/-- No complete trade or quote waits in the ring. -/
def NothingWaits (s : ParserSys c) : Prop := MarketFeed.deliveries 0 (wire.scan s.parser.ring.contents).1 = []

/-- A `feed` with the time of the one before, or when nothing waits. -/
def KeepsTime (s : ParserSys c) : ParserEvent → Prop
  | .feed _ t => t = s.parser.batchRecvTimeNs ∨ s.NothingWaits
  | _ => True

instance (s : ParserSys c) : Decidable s.NothingWaits :=
  decidable_of_iff (MarketFeed.deliveries 0 (wire.scan s.parser.ring.contents).1).isEmpty List.isEmpty_iff

instance (s : ParserSys c) : (e : ParserEvent) → Decidable (s.KeepsTime e)
  | .feed _ t => inferInstanceAs (Decidable (t = s.parser.batchRecvTimeNs ∨ s.NothingWaits))
  | .call => isTrue trivial
  | .iterate _ => isTrue trivial

end ParserSys

namespace RecvTimesAux

open ResyncAux ParserScanAux

/-! ## One iteration -/

/-- Phases 5 to 7 stamp what they dispatch with the shared time, and leave that as it is. -/
theorem accept_recvTimeNs {p p' : Parser c} {hdr : MsgHeader} {total : Nat} {o : Outcome} (h : p.accept hdr total = (p', o)) :
    p'.batchRecvTimeNs = p.batchRecvTimeNs ∧ ∀ pm, o.message = some pm → pm.recvTimeNs = p.batchRecvTimeNs := by
  have htime := (detectGap_keeps p hdr).batchRecvTimeNs
  unfold Parser.accept at h
  dsimp only at h
  split_ifs at h with hrange hbeat
  · cases h
    exact ⟨htime, nofun⟩
  · cases h
    exact ⟨htime, nofun⟩
  · cases h
    refine ⟨htime, fun pm hpm => ?_⟩
    cases hpm
    exact htime

/-- So does an iteration. -/
theorem iterate_recvTimeNs {p p' : Parser c} {o : Outcome} (h : p.iterate = some (p', o)) :
    p'.batchRecvTimeNs = p.batchRecvTimeNs ∧ ∀ pm, o.message = some pm → pm.recvTimeNs = p.batchRecvTimeNs := by
  unfold Parser.iterate at h
  dsimp only at h
  split_ifs at h with hheader hknown hsize hok
  · cases h
    exact ⟨rfl, nofun⟩
  · cases h
    exact ⟨rfl, nofun⟩
  · obtain ⟨htime, hstamp⟩ := accept_recvTimeNs (Option.some.inj h)
    exact ⟨htime, hstamp⟩

theorem place_concat (off : Nat) (os : List Outcome) (o : Outcome) :
    ParserSys.place off (os ++ [o]) = ParserSys.place off os ++ [(off + (os.map Outcome.size).sum, o)] := by
  induction os generalizing off with
  | nil => rfl
  | cons o' os ih =>
    rw [List.cons_append, ParserSys.place, ih, ParserSys.place, List.cons_append, List.map_cons, List.sum_cons, Nat.add_assoc]

/-- An iteration dispatches at most one message, with the shared time, and records a sample of no other. -/
theorem iterate_dispatches {s s' : ParserSys c} {now : UInt64} (hs : s.step (.iterate now) = some s') :
    s'.parser.batchRecvTimeNs = s.parser.batchRecvTimeNs ∧ ∃ new, s'.dispatchedAt = s.dispatchedAt ++ new ∧
      (∀ x ∈ new, x.2.2.recvTimeNs = s.parser.batchRecvTimeNs) ∧
      ∀ lat ∈ s'.samples, lat ∈ s.samples ∨ ∃ x ∈ new, latencySample now x.2.2 = some lat := by
  simp only [ParserSys.step] at hs
  cases hpc : s.pc with
  | idle =>
    rw [hpc] at hs
    cases hs
  | loop count =>
    rw [hpc] at hs
    cases hit : s.parser.iterate with
    | none =>
      rw [hit] at hs
      cases hs
      exact ⟨rfl, [], (List.append_nil _).symm, fun _ hx => absurd hx List.not_mem_nil, fun lat hlat => Or.inl hlat⟩
    | some x =>
      obtain ⟨p, o⟩ := x
      rw [hit] at hs
      cases hs
      obtain ⟨hbatch, hmessage⟩ := iterate_recvTimeNs hit
      refine ⟨hbatch, (o.message.map fun pm => (0 + (s.outcomes.map Outcome.size).sum,
        0 + (s.outcomes.map Outcome.size).sum + o.size, pm)).toList, ?_, ?_, ?_⟩
      · unfold ParserSys.dispatchedAt
        dsimp only
        rw [place_concat, List.filterMap_append]
        congr 1
      · intro x hx
        rw [Option.mem_toList, Option.map_eq_some_iff] at hx
        obtain ⟨pm, hpm, rfl⟩ := hx
        exact hmessage pm hpm
      · intro lat hlat
        rcases List.mem_append.mp hlat with hlat | hlat
        · exact Or.inl hlat
        · rw [Option.mem_toList, Option.bind_eq_some_iff] at hlat
          obtain ⟨pm, hpm, hsample⟩ := hlat
          rw [hpm]
          exact Or.inr ⟨_, List.mem_singleton_self _, hsample⟩

/-! ## The stream -/

/-- The whole messages of a cut stream are those that end before the cut. -/
theorem mem_messagesAt_wholeIn {off k : Nat} {ms : List Msg} {x : Nat × Nat × ParsedMessage} :
    x ∈ messagesAt off (wholeIn k ms) ↔ x ∈ messagesAt off ms ∧ x.2.1 ≤ off + k := by
  induction ms generalizing off k with
  | nil => simp [wholeIn, messagesAt]
  | cons m ms ih =>
    have hlen := m.length_bytes_cases
    rw [wholeIn]
    split <;> rename_i hle
    · rw [messagesAt, messagesAt, List.mem_append, List.mem_append, ih, show off + m.bytes.length + (k - m.bytes.length) = off + k by omega]
      constructor
      · rintro (hx | ⟨hx, hend⟩)
        · refine ⟨Or.inl hx, ?_⟩
          rw [Option.mem_toList, Option.map_eq_some_iff] at hx
          obtain ⟨pm, -, rfl⟩ := hx
          exact Nat.add_le_add_left hle off
        · exact ⟨Or.inr hx, hend⟩
      · rintro ⟨hx | hx, hend⟩
        · exact Or.inl hx
        · exact Or.inr ⟨hx, hend⟩
    · -- the first message is cut, so nothing ends before the cut
      refine iff_of_false List.not_mem_nil ?_
      rintro ⟨hx, hend⟩
      have hlt := lt_end_of_cut (Nat.lt_of_not_le hle) hx
      omega

/-- What has been dispatched of a stream of messages and what waits in the ring are the trades and quotes that are whole. -/
theorem deliveries_and_waiting {s : ParserSys c} {fed : List UInt8} {ps : List (Piece SkipReason UInt8)} (h : Sim s fed ps)
    {ms : List Msg} (hfed : fed <+: stream ms) :
    s.deliveries ++ deliveries (Framer.span ps) (wire.scan s.parser.ring.contents).1 = messagesAt 0 (wholeIn fed.length ms) := by
  have hcut : fed = (stream ms).take fed.length := List.prefix_iff_eq_take.mp hfed
  rw [← deliveries_take, ← hcut, h.scan, deliveries_append, h.deliveries, Nat.zero_add]

/-- Nothing waits, wherever the ring stands in the stream. -/
theorem nothingWaits_span {s : ParserSys c} (h : s.NothingWaits) (off : Nat) :
    deliveries off (wire.scan s.parser.ring.contents).1 = [] := by
  rw [List.eq_nil_iff_forall_not_mem]
  intro x hx
  obtain ⟨j, n, pm, hvis, hv, hpm, -⟩ := mem_deliveries.mp hx
  have hmem : (0 + j, 0 + j + n, pm) ∈ deliveries 0 (wire.scan s.parser.ring.contents).1 :=
    mem_deliveries.mpr ⟨j, n, pm, hvis, hv, hpm, rfl⟩
  rw [h] at hmem
  cases hmem

/-! ## Runs -/

/-- The messages dispatched carry the times of their last bytes, and those that wait would carry theirs now. -/
structure Timed (ms : List Msg) (s : ParserSys c) (fed : List UInt8) (times : List UInt64) : Prop where
  sim : ∃ ps, Sim s fed ps
  inStream : fed <+: stream ms
  length : times.length = fed.length
  dispatched : ∀ x ∈ s.dispatchedAt, times[x.2.1 - 1]? = some x.2.2.recvTimeNs
  waiting : ∀ w, s.deliveries ++ w = messagesAt 0 (wholeIn fed.length ms) →
    ∀ x ∈ w, times[x.2.1 - 1]? = some s.parser.batchRecvTimeNs

theorem Timed.init (c : Capacity) (ms : List Msg) : Timed ms (ParserSys.init c) [] [] where
  sim := ⟨[], Sim.init c⟩
  inStream := List.nil_prefix
  length := rfl
  dispatched := fun _ hx => absurd hx List.not_mem_nil
  waiting := by
    intro w hw x hx
    have hmem : x ∈ messagesAt 0 (wholeIn ([] : List UInt8).length ms) := hw ▸ List.mem_append_right _ hx
    have hend := (mem_messagesAt_wholeIn.mp hmem).2
    have hbound := messagesAt_bound hmem
    rw [List.length_nil] at hend
    omega

/-- What is dispatched and what waits are different places of the stream. -/
theorem not_mem_waiting {s : ParserSys c} {w : List (Nat × Nat × ParsedMessage)} {ns : List Msg}
    (hw : s.deliveries ++ w = messagesAt 0 ns) {x : Nat × Nat × ParsedMessage} (hx : x ∈ w) : x ∉ s.deliveries := by
  intro hmem
  have hpair := pairwise_messagesAt 0 ns
  rw [← hw, List.pairwise_append] at hpair
  exact Nat.lt_irrefl _ (hpair.2.2 x hmem x hx)

theorem Timed.feed {ms : List Msg} {s : ParserSys c} {fed : List UInt8} {times : List UInt64} (h : Timed ms s fed times)
    {data : List UInt8} {t : UInt64} (hfit : s.FeedFits (.feed data t)) (hkeeps : s.KeepsTime (.feed data t))
    (hstream : fed ++ data <+: stream ms) :
    Timed ms { s with parser := s.parser.feed data t } (fed ++ data) (times ++ List.replicate data.length t) := by
  obtain ⟨ps, hsim⟩ := h.sim
  have hall := deliveries_and_waiting hsim h.inStream
  refine ⟨⟨ps, hsim.feed_fits hfit⟩, hstream, ?_, ?_, ?_⟩
  · rw [List.length_append, List.length_append, List.length_replicate, h.length]
  · intro x hx
    have htime := h.dispatched x hx
    rw [List.getElem?_append_left (List.getElem?_eq_some_iff.mp htime).1]
    exact htime
  · intro w hw x hx
    have hmem : x ∈ messagesAt 0 (wholeIn (fed ++ data).length ms) := hw ▸ List.mem_append_right _ hx
    obtain ⟨hin, hend⟩ := mem_messagesAt_wholeIn.mp hmem
    have hbound := messagesAt_bound hin
    rw [List.length_append] at hend
    by_cases hold : x.2.1 ≤ fed.length
    · -- it was there before, so it waited, so the time is still the same
      have hwait : x ∈ deliveries (Framer.span ps) (wire.scan s.parser.ring.contents).1 := by
        have hbefore : x ∈ messagesAt 0 (wholeIn fed.length ms) := mem_messagesAt_wholeIn.mpr ⟨hin, by omega⟩
        rw [← hall] at hbefore
        rcases List.mem_append.mp hbefore with hdone | hwait
        · exact absurd hdone (not_mem_waiting hw hx)
        · exact hwait
      have htime := h.waiting _ hall x hwait
      rw [List.getElem?_append_left (List.getElem?_eq_some_iff.mp htime).1, htime]
      rcases hkeeps with ht | hnone
      · exact congrArg some ht.symm
      · rw [nothingWaits_span hnone] at hwait
        cases hwait
    · rw [List.getElem?_append_right (by rw [h.length]; omega), List.getElem?_replicate, if_pos (by rw [h.length]; omega)]
      rfl

/-- The steps of `process` hand over what waits, with the shared time. -/
theorem Timed.process_step {ms : List Msg} {s s' : ParserSys c} {fed : List UInt8} {times : List UInt64} (h : Timed ms s fed times)
    {e : ParserEvent} (he : ∀ data t, e ≠ .feed data t) (hs : s.step e = some s') : Timed ms s' fed times := by
  obtain ⟨ps, hsim⟩ := h.sim
  have hall := deliveries_and_waiting hsim h.inStream
  obtain ⟨ps', hsim'⟩ := hsim.process_step he hs
  cases e with
  | feed data t => exact absurd rfl (he data t)
  | call =>
    simp only [ParserSys.step] at hs
    split at hs <;> cases hs
    exact ⟨⟨ps', hsim'⟩, h.inStream, h.length, h.dispatched, h.waiting⟩
  | iterate now =>
    obtain ⟨hbatch, new, hdispatched, hnew, -⟩ := iterate_dispatches hs
    have herased : s'.deliveries = s.deliveries ++ new.map (fun x => (x.1, x.2.1, x.2.2.withoutRecvTime)) := by
      unfold ParserSys.deliveries
      rw [hdispatched, List.map_append]
    -- what waited is what is dispatched now and what still waits
    have hsplit : deliveries (Framer.span ps) (wire.scan s.parser.ring.contents).1 =
        new.map (fun x => (x.1, x.2.1, x.2.2.withoutRecvTime)) ++
          deliveries (Framer.span ps') (wire.scan s'.parser.ring.contents).1 := by
      have hall' := deliveries_and_waiting hsim' h.inStream
      rw [← hall, herased, List.append_assoc] at hall'
      exact (List.append_cancel_left hall').symm
    refine ⟨⟨ps', hsim'⟩, h.inStream, h.length, ?_, ?_⟩
    · intro x hx
      rw [hdispatched] at hx
      rcases List.mem_append.mp hx with hx | hx
      · exact h.dispatched x hx
      · rw [hnew x hx]
        refine h.waiting _ hall (x.1, x.2.1, x.2.2.withoutRecvTime) ?_
        rw [hsplit]
        exact List.mem_append_left _ (List.mem_map_of_mem hx)
    · intro w hw x hx
      rw [hbatch]
      rw [herased, List.append_assoc] at hw
      exact h.waiting _ hw x (List.mem_append_right _ hx)

theorem Timed.exec {ms : List Msg} {es : List ParserEvent} {s s' : ParserSys c} {fed : List UInt8} {times : List UInt64}
    (h : Timed ms s fed times) (hno : ParserSys.NoOverflow s es) (hkeeps : Run.Along ParserSys.step ParserSys.KeepsTime s es)
    (hs : Run.exec ParserSys.step s es = some s') (hstream : fed ++ fedBytes es <+: stream ms) :
    Timed ms s' (fed ++ fedBytes es) (times ++ arrivals es) := by
  induction es generalizing s fed times with
  | nil =>
    cases hs
    simpa [fedBytes, arrivals] using h
  | cons e es ih =>
    obtain ⟨s₁, hs₁, hs'⟩ := Run.exec_cons_eq_some.mp hs
    obtain ⟨hfit, hno'⟩ := hno
    obtain ⟨hkeep, hkeeps'⟩ := hkeeps
    rw [hs₁] at hno' hkeeps'
    cases e with
    | feed data t =>
      cases hs₁
      have hbytes : fedBytes (.feed data t :: es) = data ++ fedBytes es := by simp [fedBytes]
      have htimes : arrivals (.feed data t :: es) = List.replicate data.length t ++ arrivals es := by simp [arrivals]
      rw [hbytes, ← List.append_assoc] at hstream
      rw [hbytes, htimes, ← List.append_assoc, ← List.append_assoc]
      exact ih (h.feed hfit hkeep ((List.prefix_append _ _).trans hstream)) hno' hkeeps' hs' hstream
    | call => exact ih (h.process_step (fun _ _ he => by cases he) hs₁) hno' hkeeps' hs' hstream
    | iterate now => exact ih (h.process_step (fun _ _ he => by cases he) hs₁) hno' hkeeps' hs' hstream

/-- Every latency sample is taken of a dispatched message, by the clock reading of one of the iterations. -/
theorem samples_exec {es : List ParserEvent} {s s' : ParserSys c} (hs : Run.exec ParserSys.step s es = some s') :
    s.dispatchedAt <+: s'.dispatchedAt ∧ ∀ lat ∈ s'.samples, lat ∈ s.samples ∨
      ∃ x ∈ s'.dispatchedAt, ∃ now, .iterate now ∈ es ∧ latencySample now x.2.2 = some lat := by
  induction es generalizing s with
  | nil =>
    cases hs
    exact ⟨List.prefix_rfl, fun lat hlat => Or.inl hlat⟩
  | cons e es ih =>
    obtain ⟨s₁, hs₁, hs'⟩ := Run.exec_cons_eq_some.mp hs
    obtain ⟨hpre, hsamples⟩ := ih hs'
    -- a sample of the rest of the run, or one that was there after the first step
    have hrest : ∀ lat ∈ s'.samples, lat ∈ s₁.samples ∨
        ∃ x ∈ s'.dispatchedAt, ∃ now, .iterate now ∈ e :: es ∧ latencySample now x.2.2 = some lat := by
      intro lat hlat
      rcases hsamples lat hlat with hlat | ⟨x, hx, now, hnow, hsample⟩
      · exact Or.inl hlat
      · exact Or.inr ⟨x, hx, now, List.mem_cons_of_mem e hnow, hsample⟩
    cases e with
    | feed data t =>
      cases hs₁
      exact ⟨hpre, hrest⟩
    | call =>
      simp only [ParserSys.step] at hs₁
      split at hs₁ <;> cases hs₁
      exact ⟨hpre, hrest⟩
    | iterate now =>
      obtain ⟨-, new, hdispatched, -, hnew⟩ := iterate_dispatches hs₁
      have hmono : s.dispatchedAt <+: s₁.dispatchedAt := ⟨new, hdispatched.symm⟩
      refine ⟨hmono.trans hpre, fun lat hlat => ?_⟩
      rcases hrest lat hlat with hlat | hlat
      · rcases hnew lat hlat with hlat | ⟨x, hx, hsample⟩
        · exact Or.inl hlat
        · have hx' : x ∈ s'.dispatchedAt := hpre.subset (hdispatched ▸ List.mem_append_right _ hx)
          exact Or.inr ⟨x, hx', now, List.mem_cons_self, hsample⟩
      · exact Or.inr hlat

end RecvTimesAux

open RecvTimesAux

/-- Along every run that feeds a stream of valid messages without overflow, in any chunks with any times and with `process` running
anywhere: if every `feed` keeps the time of the one before or comes when no complete trade or quote waits in the ring, every message
dispatched carries the time of the `feed` that delivered its last byte. So every latency sample is the reading of the clock in an
iteration, less the arrival of a dispatched message, or 0 if that time is not set or later. -/
theorem recvTime_of_keepsTime (ms : List Msg) (es : List ParserEvent) (hstream : fedBytes es <+: stream ms)
    (hno : ParserSys.NoOverflow (ParserSys.init c) es) (hkeeps : Run.Along ParserSys.step ParserSys.KeepsTime (ParserSys.init c) es)
    (s : ParserSys c) (h : Run.exec ParserSys.step (ParserSys.init c) es = some s) :
    (∀ x ∈ s.dispatchedAt, (arrivals es)[x.2.1 - 1]? = some x.2.2.recvTimeNs) ∧
      ∀ lat ∈ s.samples, ∃ x ∈ s.dispatchedAt, ∃ now t, .iterate now ∈ es ∧ (arrivals es)[x.2.1 - 1]? = some t ∧
        lat = if t > 0 ∧ now ≥ t then now - t else 0 := by
  have htimed : Timed ms s ([] ++ fedBytes es) ([] ++ arrivals es) := (Timed.init c ms).exec hno hkeeps h hstream
  rw [List.nil_append, List.nil_append] at htimed
  refine ⟨htimed.dispatched, fun lat hlat => ?_⟩
  rcases (samples_exec h).2 lat hlat with hold | ⟨x, hx, now, hnow, hsample⟩
  · cases hold
  · refine ⟨x, hx, now, x.2.2.recvTimeNs, hnow, htimed.dispatched x hx, ?_⟩
    unfold latencySample at hsample
    dsimp only at hsample
    split_ifs at hsample with hts hset hshort hshort
    · cases hsample
      rw [if_pos hset]
    · cases hsample
      rw [if_neg hset]

namespace RecvTimesAux

/-- Two trades. -/
def first : Msg := .trade (.ofIndex 7) 1 1700000000000000000 ⟨4641240890982006784, 100⟩

def second : Msg := .trade (.ofIndex 8) 2 1700000000000000500 ⟨4641240890982006784, 200⟩

/-- The two are fed with the times 5 and 7 before `process` runs. -/
def overtakenRun : List ParserEvent := [.feed first.bytes 5, .feed second.bytes 7, .call, .iterate 9, .iterate 9, .iterate 9]

/-- The first is cut in two chunks; it is processed before the second is fed, whose two chunks have the same time. -/
def drainedRun : List ParserEvent :=
  [.feed (first.bytes.take 10) 5, .feed (first.bytes.drop 10) 6, .call, .iterate 8, .iterate 8, .feed (second.bytes.take 20) 7,
    .feed (second.bytes.drop 20) 7, .call, .iterate 9, .iterate 9]

end RecvTimesAux

/-- The run `overtakenRun`: the first trade, whose bytes all came with the time 5, is dispatched with the time 7. -/
theorem recvTime_overtaken :
    fedBytes overtakenRun = stream [first, second] ∧ ParserSys.NoOverflow (ParserSys.init recvBufSize) overtakenRun ∧
      ∃ s, Run.exec ParserSys.step (ParserSys.init recvBufSize) overtakenRun = some s ∧
        s.dispatchedAt.map (fun x => (x.2.1, x.2.2.recvTimeNs)) = [(32, 7), (64, 7)] ∧ (arrivals overtakenRun)[32 - 1]? = some 5 := by
  refine ⟨by decide, by decide +kernel, ?_⟩
  decide +kernel

/-- The run `drainedRun`: the trades are dispatched with the times 6 and 7. -/
theorem recvTime_of_keepsTime_drainedRun :
    ∃ s, Run.exec ParserSys.step (ParserSys.init recvBufSize) drainedRun = some s ∧
      s.dispatchedAt.map (fun x => (x.2.1, x.2.2.recvTimeNs)) = [(32, 6), (64, 7)] ∧
      ∀ x ∈ s.dispatchedAt, (arrivals drainedRun)[x.2.1 - 1]? = some x.2.2.recvTimeNs := by
  have hstream : fedBytes drainedRun <+: stream [first, second] := by decide
  have hno : ParserSys.NoOverflow (ParserSys.init recvBufSize) drainedRun := by decide +kernel
  have hkeeps : Run.Along ParserSys.step ParserSys.KeepsTime (ParserSys.init recvBufSize) drainedRun := by decide +kernel
  have hrun : ∃ s, Run.exec ParserSys.step (ParserSys.init recvBufSize) drainedRun = some s ∧
      s.dispatchedAt.map (fun x => (x.2.1, x.2.2.recvTimeNs)) = [(32, 6), (64, 7)] := by decide +kernel
  obtain ⟨s, hs, htimes⟩ := hrun
  exact ⟨s, hs, htimes, (recvTime_of_keepsTime [first, second] drainedRun hstream hno hkeeps s hs).1⟩

end MarketFeed
