import MarketFeed.Lemmas.Resync

/-!
# Reconnecting

`on_disconnect` and `do_connect` leave the parser as it is, so the bytes of a message that the old connection did not finish stay in
the ring, in front of the bytes of the new connection. The two connections stay apart when no message that seems to start in these
bytes goes on into the new ones and verifies, and none of them is left waiting.
-/

namespace MarketFeed

open Framing ScanAux ResyncAux

variable {c : Capacity}

/-- The bytes of an old connection that broke off after `cut` bytes and of the new connection. -/
def reconnected (old : List Msg) (cut : Nat) (new : List Msg) : List UInt8 := (stream old).take cut ++ stream new

/-- No message that was handed over was built from bytes on both sides of `cut`. -/
def NoneAcross (cut : Nat) (s : ParserSys c) : Prop := ∀ x ∈ s.deliveries, ¬(x.1 < cut ∧ cut < x.2.1)

/-- The trades and quotes of messages that start at `cut` were handed over, in order. -/
def AllFrom (cut : Nat) (new : List Msg) (s : ParserSys c) : Prop := (messagesAt cut new).Sublist s.deliveries

/-- What seems to start in the rest of an unfinished message, in front of new messages: nothing that goes on into the new bytes is for
the callback and verifies; and if there is a new trade or quote, all of it is complete, and what goes on into the new bytes fails its
checksum. -/
structure CleanBoundary (rest : List UInt8) (new : List Msg) : Prop where
  across : ∀ j < rest.length, rest.length < j + windowSize ((rest ++ stream new).drop j) →
    Verifies ((rest ++ stream new).drop j) → Discarded ((rest ++ stream new).drop j)
  complete : messagesAt 0 new ≠ [] → ∀ j < rest.length, ¬Incomplete ((rest ++ stream new).drop j) ∧
    (rest.length < j + windowSize ((rest ++ stream new).drop j) → ¬Verifies ((rest ++ stream new).drop j))

instance (rest : List UInt8) (new : List Msg) : Decidable (CleanBoundary rest new) :=
  decidable_of_iff (_ ∧ _) ⟨fun h => CleanBoundary.mk h.1 h.2, fun h => ⟨h.across, h.complete⟩⟩

namespace ReconnectAux

/-- The bytes of the two connections: whole messages, the rest of an unfinished one, and the new messages. -/
theorem reconnected_eq (old : List Msg) (cut : Nat) (new : List Msg) :
    reconnected old cut new = stream (wholeIn cut old) ++ (leftover cut old ++ stream new) := by
  rw [reconnected, stream_take, List.append_assoc]

theorem cut_eq {old : List Msg} {cut : Nat} (hcut : cut ≤ (stream old).length) :
    cut = (stream (wholeIn cut old)).length + (leftover cut old).length := by
  rw [← List.length_append, ← stream_take, List.length_take, Nat.min_eq_left hcut]

/-- What the two connections deliver. -/
theorem deliveries_reconnected (old : List Msg) (cut : Nat) (new : List Msg) :
    deliveries 0 (wire.scan (reconnected old cut new)).1 =
      messagesAt 0 (wholeIn cut old) ++
        deliveries (stream (wholeIn cut old)).length (wire.scan (leftover cut old ++ stream new)).1 := by
  rw [reconnected_eq, deliveries_stream, Nat.zero_add]

/-- Nothing is delivered across the cut. -/
theorem noneAcross_of_clean {old new : List Msg} {cut : Nat} (hcut : cut ≤ (stream old).length)
    (h : CleanBoundary (leftover cut old) new) :
    ∀ x ∈ deliveries 0 (wire.scan (reconnected old cut new)).1, ¬(x.1 < cut ∧ cut < x.2.1) := by
  have hlen := cut_eq hcut
  rw [deliveries_reconnected]
  intro x hx hacross
  rcases List.mem_append.mp hx with hx | hx
  · have hbound := messagesAt_bound hx
    omega
  · obtain ⟨j, n, pm, -, hv, hpm, rfl⟩ := mem_deliveries.mp hx
    dsimp only at hacross
    obtain ⟨hverifies, hsize⟩ := verifies_of_take hv
    have hdiscarded := h.across j (by omega) (by omega) hverifies
    rw [(frameMessage_take hv).mpr hdiscarded] at hpm
    cases hpm

/-- From every place in the unfinished message the parser moves on, and no further than to its end. -/
theorem visits_new {rest : List UInt8} {new : List Msg} (h : CleanBoundary rest new) (hnew : messagesAt 0 new ≠ []) :
    wire.Visits (rest ++ stream new) rest.length := by
  apply Framer.visits_of_within
  intro j hj
  obtain ⟨hcomplete, hacross⟩ := h.complete hnew j hj
  rcases noMessage_or ((rest ++ stream new).drop j) with hno | hincomplete | hverifies
  · obtain ⟨why, hv⟩ := noMessage_iff.mp hno
    exact ⟨1, congrArg Verdict.advance hv, hj⟩
  · exact absurd hincomplete hcomplete
  · refine ⟨_, congrArg Verdict.advance (take_of_verifies hverifies), ?_⟩
    by_contra hlt
    exact hacross (Nat.lt_of_not_le hlt) hverifies

/-- The new trades and quotes are delivered. -/
theorem allFrom_of_clean {old new : List Msg} {cut : Nat} (hcut : cut ≤ (stream old).length)
    (h : CleanBoundary (leftover cut old) new) :
    (messagesAt cut new).Sublist (deliveries 0 (wire.scan (reconnected old cut new)).1) := by
  have hlen := cut_eq hcut
  by_cases hnew : messagesAt 0 new = []
  · rw [← Nat.zero_add cut, messagesAt_shift, hnew]
    exact List.nil_sublist _
  · have hsuffix := deliveries_of_visits (visits_new h hnew) (stream (wholeIn cut old)).length
    have hstream := deliveries_stream cut new []
    have hnil : wire.scan [] = ([], []) := Framer.scanAux_nil 0
    rw [List.append_nil, hnil] at hstream
    rw [List.drop_left, ← hlen, hstream] at hsuffix
    rw [deliveries_reconnected]
    exact ((List.sublist_append_left _ _).trans hsuffix.sublist).trans (List.sublist_append_right _ _)

end ReconnectAux

open ReconnectAux

/-- The bytes of a connection that broke off anywhere, then those of the next connection, fed to one parser in any chunks with
`process` running anywhere in between and no overflow. If the boundary is clean, nothing is handed over across it, at any point of
the run; and once all bytes are fed, a last `process` returns, with all trades and quotes of the new connection handed over. -/
theorem connections_apart_of_clean (old new : List Msg) (cut : Nat) (hcut : cut ≤ (stream old).length)
    (hclean : CleanBoundary (leftover cut old) new) (es : List ParserEvent) (s : ParserSys c)
    (hfed : fedBytes es <+: reconnected old cut new) (hrun : Run.exec ParserSys.step (ParserSys.init c) es = some s)
    (hno : ParserSys.NoOverflow (ParserSys.init c) es) :
    NoneAcross cut s ∧
      (fedBytes es = reconnected old cut new → s.pc = .idle → ∃ k, ∀ nows : List UInt64, nows.length = k →
        ∃ s', Run.exec ParserSys.step s (processCall nows) = some s' ∧ s'.pc = .idle ∧ NoneAcross cut s' ∧ AllFrom cut new s') := by
  obtain ⟨ps, hsim⟩ := (Sim.init c).exec hno hrun
  rw [List.nil_append] at hsim
  have hnone := noneAcross_of_clean hcut hclean
  constructor
  · intro x hx
    obtain ⟨rest, hrest⟩ := hfed
    have hpre := deliveries_prefix hsim rest
    rw [hrest] at hpre
    exact hnone x (hpre.subset hx)
  · intro hall hidle
    refine ⟨(wire.scan s.parser.ring.contents).1.length + 1, fun nows hn => ?_⟩
    obtain ⟨s', hs', hpc, hsim', -⟩ := hsim.process hidle hn
    refine ⟨s', hs', hpc, ?_⟩
    unfold NoneAcross AllFrom
    rw [hsim'.deliveries, hall]
    exact ⟨hnone, allFrom_of_clean hcut hclean⟩

namespace ReconnectAux

/-- A trade whose checksum, as bytes, is `1, 0, 120, 223`. -/
def unfinished : Msg := .trade (.ofIndex 7) 1000 1700000000000000000 ⟨4641240890982006784, 8637⟩

/-- A trade that starts with the same four bytes. -/
def firstTrade : Msg := .trade (.ofIndex 8) 57208 1700000000000000500 ⟨4641240890982006784, 100⟩

/-- The first connection breaks off after `cut` bytes of its trade; a `process` call comes before the bytes of the second. -/
def brokenRun (cut : Nat) : List ParserEvent :=
  [.feed ((stream [unfinished]).take cut) 5, .call, .iterate 6, .feed (stream [firstTrade]) 7]

/-- It breaks off before the checksum. -/
def fusedRun : List ParserEvent := brokenRun 28

end ReconnectAux

/-- The run `brokenRun 20` meets the hypotheses of `connections_apart_of_clean`. -/
theorem connections_apart_of_clean_brokenRun :
    ∃ s, Run.exec ParserSys.step (ParserSys.init recvBufSize) (brokenRun 20) = some s ∧ NoneAcross 20 s ∧
      ∃ k, ∀ nows : List UInt64, nows.length = k → ∃ s', Run.exec ParserSys.step s (processCall nows) = some s' ∧
        s'.pc = .idle ∧ NoneAcross 20 s' ∧ AllFrom 20 [firstTrade] s' := by
  have hrun : ∃ s, Run.exec ParserSys.step (ParserSys.init recvBufSize) (brokenRun 20) = some s ∧ s.pc = .idle ∧
      fedBytes (brokenRun 20) = reconnected [unfinished] 20 [firstTrade] ∧
      ParserSys.NoOverflow (ParserSys.init recvBufSize) (brokenRun 20) := by
    unfold reconnected
    decide +kernel
  obtain ⟨s, hrun, hidle, hfed, hno⟩ := hrun
  have hclean : CleanBoundary (leftover 20 [unfinished]) [firstTrade] := by decide +kernel
  obtain ⟨hnone, hlast⟩ := connections_apart_of_clean [unfinished] [firstTrade] 20 (by decide) hclean (brokenRun 20) s
    (hfed ▸ List.prefix_refl _) hrun hno
  exact ⟨s, hrun, hnone, hlast hfed hidle⟩

/-- After `fusedRun` and a last `process`, one message has been handed over, built from the 28 bytes of the first connection and the
first four of the second, and the trade of the second connection has not. -/
theorem connections_fuse :
    ∃ s, Run.exec ParserSys.step (ParserSys.init recvBufSize) (fusedRun ++ processCall (List.replicate 15 8)) = some s ∧
      s.pc = .idle ∧ s.deliveries.map (fun x => (x.1, x.2.1)) = [(0, 32)] ∧ ¬NoneAcross 28 s ∧ ¬AllFrom 28 [firstTrade] s := by
  have hrun : ∃ s, Run.exec ParserSys.step (ParserSys.init recvBufSize) (fusedRun ++ processCall (List.replicate 15 8)) = some s ∧
      s.pc = .idle ∧ s.deliveries = messagesAt 0 [unfinished] := by decide +kernel
  obtain ⟨s, hrun, hidle, hone⟩ := hrun
  refine ⟨s, hrun, hidle, ?_, fun h => ?_, fun h => ?_⟩
  · rw [hone]
    decide
  · unfold NoneAcross at h
    rw [hone] at h
    revert h
    decide
  · unfold AllFrom at h
    rw [hone] at h
    revert h
    decide

end MarketFeed
