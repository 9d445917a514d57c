import MarketFeed.Lib.Topic
import MarketFeed.Pipeline
import MarketFeed.Lemmas.ClientMoves
import MarketFeed.Lemmas.Resync
import MarketFeed.Lemmas.Processed
import MarketFeed.Theorems.CacheFold

/-!
# The feed carries a topic

The server, seen from one connection, serves the reader of a topic: what has been handed over for the client is what the reader is due
(`Serves`). The client at the other end reads it: its parser has gone over the messages that the reader has taken, and its cache has
been called for them (`Reads`). Each step of the whole is some steps of the topic.
-/

namespace MarketFeed

open Framing ClientMovesAux ClientRunsAux ClientSendAux ResyncAux

variable {n : NumSymbols} {c : Capacity} {P : Type}

/-- The call of the cache that a message comes to. -/
def Msg.cacheCall (prices : DisplayPrices P) (m : Msg) : Option (CacheCall P) := (m.parsed 0).bind (callback prices)

/-- The server serves the reader of the topic on the connection `fd`. -/
structure Server.Serves (v : Server) (fd : Fd) (t : Topic Msg) : Prop where
  live : (v.clients.state fd).phase = .live ↔ t.joined.isSome
  streams : Streams v fd
  handed : (v.conns fd).handed <+: t.due.map Msg.bytes
  inTable : fd ∈ v.clients.keys → (v.conns fd).handed = t.due.map Msg.bytes

/-- The client has read what the reader of the topic has taken. -/
structure FeedClient.Reads (prices : DisplayPrices P) (cl : FeedClient c P) (wire : List UInt8) (t : Topic Msg) : Prop where
  received : cl.received ≤ wire.length
  sim : Sim cl.parser (wire.take cl.received) (pieces t.taken)
  cache : cl.cache = (SymbolCache.new prices.toPrices cl.cache.numSymbols).calls prices.toPrices
    (t.taken.filterMap (Msg.cacheCall prices))

/-- A broadcast of a message is its publication. -/
theorem Server.Serves.publish {v v' : Server} {fd : Fd} {t : Topic Msg} {m : Msg} {outs : Fd → SendOutcome} {now : Int64} (ht : t.Ok)
    (h : v.Serves fd t) (hs : v.step (.broadcast m.bytes outs now) = some v') :
    v'.Serves fd { t with published := t.published ++ [m] } := by
  have hm := step_moves hs nofun fd
  have hstreams := h.streams.moves hm
  have hdue := Topic.due_publish ht m
  cases hm with
  | sent _ _ _ hlive hstays hkeys hstate hconn =>
    obtain ⟨-, hhanded, hphase⟩ := sendResult_wire (v.clients.state fd) (v.conns fd) m.bytes (outs fd) now
    have hjoined : t.joined.isSome = true := h.live.mp hlive.2
    have hall : (v'.conns fd).handed = (t.due ++ [m]).map Msg.bytes := by
      rw [hconn, hhanded, h.inTable hlive.1, List.map_append]
      rfl
    rw [if_pos hjoined] at hdue
    refine ⟨?_, hstreams, ?_, fun _ => ?_⟩
    · rw [hstate, hphase]
      exact h.live
    · rw [hdue, hall]
    · rw [hdue, hall]
  | same hstate hwire hhanded hkeys hother hquiet =>
    refine ⟨by rw [hstate]; exact h.live, hstreams, ?_, fun hmem => ?_⟩
    · rw [hhanded, hdue, List.map_append]
      exact h.handed.trans (List.prefix_append _ _)
    · -- in the table and not live, so it has not joined
      have hnot : ¬t.joined.isSome = true := fun hj => hquiet m.bytes outs now rfl ⟨hkeys hmem, h.live.mpr hj⟩
      rw [hhanded, hdue, if_neg hnot, List.append_nil]
      exact h.inTable (hkeys hmem)

/-- A client that is accepted is a new reader. -/
theorem Server.Serves.newReader {v v' : Server} {fd : Fd} {t : Topic Msg} {peerAddr : String} {now : Int64} {order : List Fd}
    (h : v.Serves fd t) (hs : v.step (.accept fd peerAddr now order) = some v') :
    v'.Serves fd { t with joined := none, taken := [] } := by
  have hm := step_moves hs nofun fd
  have hstreams := h.streams.moves hm
  cases hm with
  | accepted _ _ _ hstate hconn =>
    refine ⟨?_, hstreams, ?_, fun _ => ?_⟩
    · rw [hstate]
      simp
    · rw [hconn]
      exact List.nil_prefix
    · rw [hconn]
      rfl
  | same hstate hwire hhanded hkeys hother hquiet => exact absurd rfl (hother peerAddr now order)

/-- `on_recv` does not take back that a client is live. -/
theorem ClientState.onRecv_live {cs : ClientState} (data : List UInt8) (h : cs.phase = .live) : cs.onRecv data = cs := if_pos h

/-- A client that goes live joins the topic; otherwise nothing changes for it. -/
theorem Server.Serves.join {v v' : Server} {fd : Fd} {t : Topic Msg} {data : List UInt8} (h : v.Serves fd t)
    (hs : v.step (.recv fd data) = some v') :
    (t.joined = none ∧ v'.IsLive fd ∧ v'.Serves fd { t with joined := some t.published.length }) ∨
      (¬(t.joined = none ∧ v'.IsLive fd) ∧ v'.Serves fd t) := by
  have hm := step_moves hs nofun fd
  have hstreams := h.streams.moves hm
  cases hm with
  | received _ hmem hkeys hstate hconn =>
    have hhanded : (v'.conns fd).handed = t.due.map Msg.bytes := by rw [hconn, h.inTable hmem]
    cases hj : t.joined with
    | some j =>
      have hlive : (v.clients.state fd).phase = .live := h.live.mpr (by rw [hj]; rfl)
      rw [ClientState.onRecv_live data hlive] at hstate
      exact .inr ⟨nofun, by rw [hstate]; exact h.live, hstreams, by rw [hhanded], fun _ => hhanded⟩
    | none =>
      have hnil : t.due = [] := by rw [Topic.due, hj]
      by_cases hl : (v'.clients.state fd).phase = .live
      · refine .inl ⟨rfl, ⟨by rw [hkeys]; exact hmem, hl⟩, ?_⟩
        have hdue : Topic.due { t with joined := some t.published.length } = [] := List.drop_length
        rw [hnil] at hhanded
        exact ⟨iff_of_true hl rfl, hstreams, by rw [hdue, hhanded], fun _ => by rw [hdue, hhanded]⟩
      · exact .inr ⟨fun hboth => hl hboth.2.2, iff_of_false hl (by simp [hj]), hstreams, by rw [hhanded], fun _ => hhanded⟩
  | same hstate hwire hhanded hkeys hother hquiet =>
    refine .inr ⟨fun hboth => ?_, by rw [hstate]; exact h.live, hstreams, by rw [hhanded]; exact h.handed,
      fun hmem => hhanded.trans (h.inTable (hkeys hmem))⟩
    have hlive := h.live.mp (hstate ▸ hboth.2.2)
    rw [hboth.1] at hlive
    cases hlive

/-- What the kernel has taken over is the start of the stream of what the reader is due. -/
theorem Server.Serves.wire {v : Server} {fd : Fd} {t : Topic Msg} (h : v.Serves fd t) : (v.conns fd).wire <+: stream t.due := by
  obtain ⟨rest, hrest⟩ := h.handed
  have hstreams := h.streams
  unfold Streams at hstreams
  refine List.IsPrefix.trans ?_ (⟨rest.flatten, ?_⟩ : (v.conns fd).handed.flatten <+: stream t.due)
  · rw [← hstreams]
    exact List.prefix_append _ _
  · rw [stream, ← hrest, List.flatten_append]

/-! ## The client -/

/-- More on the wire changes nothing for the client yet. -/
theorem FeedClient.Reads.grow {prices : DisplayPrices P} {cl : FeedClient c P} {wire wire' : List UInt8} {t t' : Topic Msg}
    (h : cl.Reads prices wire t) (hwire : wire <+: wire') (htaken : t'.taken = t.taken) : cl.Reads prices wire' t' := by
  obtain ⟨rest, rfl⟩ := hwire
  refine ⟨?_, ?_, by rw [htaken]; exact h.cache⟩
  · rw [List.length_append]
    exact Nat.le_add_right_of_le h.received
  · rw [List.take_append_of_le_length h.received, htaken]
    exact h.sim

namespace CarriedAux

/-- What an iteration comes to for the scan: it returns from `process`, or it goes over one piece, which the outcome describes. -/
theorem iterate_cases {s s' : ParserSys c} {fed : List UInt8} {ps : List (Piece SkipReason UInt8)} {now : UInt64}
    (h : Sim s fed ps) (hs : s.step (.iterate now) = some s') :
    (s.parser.iterate = none ∧ Sim s' fed ps) ∨
      ∃ p o pc, s.parser.iterate = some (p, o) ∧ o.Describes pc ∧ Sim s' fed (ps ++ [pc]) := by
  cases hpc : s.pc with
  | idle => simp [ParserSys.step, hpc] at hs
  | loop count =>
    cases hi : s.parser.iterate with
    | none =>
      rw [ParserSys.step_iterate_none hpc hi] at hs
      cases hs
      exact .inl ⟨rfl, h.bounded, h.tracks, h.log, h.scan⟩
    | some x =>
      obtain ⟨p, o⟩ := x
      have hstep := ParserSys.step_iterate_some hpc hi now
      cases ha : (verdict s.parser.ring.contents).advance with
      | none =>
        rw [Parser.iterate_wait h.bounded (Verdict.advance_eq_none.mp ha)] at hi
        cases hi
      | some k =>
        obtain ⟨s₁, -, pc, hs₁, -, -, h₁⟩ := h.iterate_advance hpc ha now
        obtain rfl : s₁ = s' := Option.some.inj (hs₁.symm.trans hs)
        obtain rfl : s.iterated now count p o = s₁ := Option.some.inj (hstep.symm.trans hs₁)
        have hlast := List.forall₂_drop s.outcomes.length h₁.log
        rw [ParserSys.iterated, h.log.length_eq, List.drop_left, ← h.log.length_eq, List.drop_left] at hlast
        cases hlast with
        | cons hd _ => exact .inr ⟨p, o, pc, rfl, hd, h₁⟩

/-- The first pieces of a cut stream of messages are those of its first messages. -/
theorem pieces_of_scan {ms : List Msg} {k : Nat} {ps rest : List (Piece SkipReason UInt8)} {left : List UInt8}
    (h : wire.scan ((stream ms).take k) = (ps ++ rest, left)) : ps = pieces (ms.take ps.length) := by
  have hwait : wire.scan (leftover k ms) = ([], leftover k ms) := Framer.scan_wait (verdict_leftover k ms)
  have hwhole : wholeIn k ms <+: ms := by
    clear h hwait
    induction ms generalizing k with
    | nil => exact List.prefix_rfl
    | cons m ms ih =>
      rw [wholeIn]
      split
      · exact List.cons_prefix_cons.mpr ⟨rfl, ih⟩
      · exact List.nil_prefix
  rw [stream_take, scan_stream, hwait, List.append_nil, Prod.mk.injEq] at h
  have hps : ps <+: pieces ms := by
    have hprefix : pieces (wholeIn k ms) <+: pieces ms := hwhole.map _
    exact (h.1 ▸ List.prefix_append ps rest).trans hprefix
  rw [pieces, List.map_take]
  exact List.prefix_iff_eq_take.mp hps

/-- The message that the outcome hands to the callback is that of the message it has gone over. -/
theorem message_of_describes {o : Outcome} {m : Msg} (h : o.Describes ⟨.take m.bytes.length, m.bytes⟩) (prices : DisplayPrices P) :
    o.message.bind (callback prices) = m.cacheCall prices := by
  have hm := (ParserScanAux.describes_message h).1
  have hpiece : ParserScanAux.pieceMessage ⟨.take m.bytes.length, m.bytes⟩ = m.parsed 0 := m.frameMessage_bytes 0
  rw [hpiece] at hm
  -- the callback does not look at the receive time
  rw [Msg.cacheCall, ← hm]
  cases o.message with
  | none => rfl
  | some pm => rfl

theorem calls_concat (prices : Prices P) (cache : SymbolCache P) (cs : List (CacheCall P)) (call : CacheCall P) :
    cache.calls prices (cs ++ [call]) = (cache.calls prices cs).call prices call := by
  unfold SymbolCache.calls
  rw [List.foldl_append]
  rfl

end CarriedAux

open CarriedAux

/-- A step of the client takes at most one message. -/
theorem FeedClient.Reads.step {prices : DisplayPrices P} {cl cl' : FeedClient c P} {wire : List UInt8} {t : Topic Msg} {e : ClientEvent}
    (h : cl.Reads prices wire t) (hwire : wire <+: stream t.due) (hs : cl.step prices wire e = some cl')
    (hfit : ∀ len recvTimeNs, e = .receive len recvTimeNs → cl.parser.FeedFits (.feed (cl.chunk wire len) recvTimeNs)) :
    ∃ fs t', Run.exec Topic.step t fs = some t' ∧ t'.published = t.published ∧ t'.joined = t.joined ∧ cl'.Reads prices wire t' := by
  cases e with
  | receive len recvTimeNs =>
    simp only [FeedClient.step] at hs
    split at hs <;> rename_i hne
    · cases hs
    · cases hs
      refine ⟨[], t, rfl, rfl, rfl, ?_, ?_, h.cache⟩
      · have hlen : (cl.chunk wire len).length ≤ wire.length - cl.received := by
          rw [FeedClient.chunk, List.length_take, List.length_drop]
          omega
        have hle := h.received
        dsimp only
        omega
      · have hsim := h.sim.feed_fits (hfit len recvTimeNs rfl)
        have htake : wire.take cl.received ++ cl.chunk wire len = wire.take (cl.received + (cl.chunk wire len).length) := by
          rw [List.take_add]
          congr 1
          exact List.prefix_iff_eq_take.mp (List.take_prefix _ _)
        rw [htake] at hsim
        exact hsim
  | process =>
    obtain ⟨parser, hparser, rfl⟩ := Option.map_eq_some_iff.mp hs
    simp only [ParserSys.step] at hparser
    split at hparser <;> cases hparser
    exact ⟨[], t, rfl, rfl, rfl, h.received, ⟨h.sim.bounded, h.sim.tracks, h.sim.log, h.sim.scan⟩, h.cache⟩
  | iterate now =>
    obtain ⟨parser, hparser, rfl⟩ := Option.map_eq_some_iff.mp hs
    rcases iterate_cases h.sim hparser with ⟨hnone, hsim⟩ | ⟨p, o, pc, hi, hd, hsim⟩
    · rw [hnone]
      exact ⟨[], t, rfl, rfl, rfl, h.received, hsim, h.cache⟩
    · -- the piece is that of the next message the reader is due
      obtain ⟨more, hmore⟩ := hwire
      have hfed : wire.take cl.received = (stream t.due).take cl.received := by
        rw [← hmore, List.take_append_of_le_length h.received]
      have hpieces := pieces_of_scan (hfed ▸ hsim.scan)
      have hlength : (pieces t.taken ++ [pc]).length = t.taken.length + 1 := by simp [pieces]
      rw [hlength] at hpieces
      have hall : t.taken.length + 1 ≤ t.due.length := by
        have hlen := congrArg List.length hpieces
        rw [hlength, pieces, List.length_map, List.length_take] at hlen
        omega
      have hnext : t.due[t.taken.length]? = some t.due[t.taken.length] := List.getElem?_eq_getElem hall
      generalize t.due[t.taken.length] = m at hnext
      have hpc : pc = ⟨.take m.bytes.length, m.bytes⟩ := by
        have hget := congrArg (·[t.taken.length]?) hpieces
        simpa [pieces, hnext] using hget
      subst hpc
      refine ⟨[.take], { t with taken := t.taken ++ [m] }, ?_, rfl, rfl, h.received, ?_, ?_⟩
      · refine Run.exec_cons_eq_some.mpr ⟨_, ?_, rfl⟩
        rw [Topic.step, hnext]
        rfl
      · have hconcat : pieces (t.taken ++ [m]) = pieces t.taken ++ [⟨.take m.bytes.length, m.bytes⟩] := List.map_append
        dsimp only
        rw [hconcat]
        exact hsim
      · rw [hi]
        dsimp only [Option.bind_some]
        rw [message_of_describes hd, List.filterMap_append]
        cases hcall : m.cacheCall prices with
        | none =>
          rw [List.filterMap_cons, hcall, List.filterMap_nil, List.append_nil]
          exact h.cache
        | some call =>
          rw [List.filterMap_cons, hcall, List.filterMap_nil, calls_concat]
          have hnum : (cl.cache.call prices.toPrices call).numSymbols = cl.cache.numSymbols := by
            rw [CacheFoldAux.call_eq, CacheFoldAux.numSymbols_update]
          dsimp only
          rw [hnum, ← h.cache]

end MarketFeed
