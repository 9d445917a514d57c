import MarketFeed.Frame
import MarketFeed.Lemmas.Processed

/-!
# What a stream of any bytes is read as

Bytes that nobody checked may arrive: a stream cut in the middle of a message, a peer that speaks something else. Whatever they are, as long
as no `feed` overflows its ring, the parser reads them as some frames with bytes in between that it skips, and it hands over, counts and
accounts for exactly what it would have if the frames alone had been sent (`garbage_invisible`). A stream of frames is read in one way only
(`stream_reads_once`).
-/

namespace MarketFeed

open Framing

variable {c : Capacity}

/-- The bytes of a list of frames. -/
def frameStream (fs : List Frame) : List UInt8 := fs.flatMap Frame.bytes

/-- The messages that the server sends are frames. -/
theorem frameStream_frame (ms : List Msg) : frameStream (ms.map Msg.frame) = stream ms := by
  rw [frameStream, stream, List.flatMap, List.map_map]
  congr 1
  apply List.map_congr_left
  intro m _
  exact m.bytes_frame

/-- What a parser shows when it has read some frames: the messages, without their receive times, and the counters of messages and
gaps. -/
structure ReadAs (s : ParserSys c) (fs : List Frame) : Prop where
  messages : s.dispatched.map ParsedMessage.withoutRecvTime = fs.filterMap (Frame.parsed 0)
  msgsParsed : s.parser.msgsParsed = UInt64.ofNat (fs.countP Frame.counts)
  sequenceGaps : s.parser.sequenceGaps = UInt64.ofNat (gapSizes (fs.map fun f => f.header.seqNum)).length
  totalGapSize : s.parser.totalGapSize = UInt64.ofNat (gapSizes (fs.map fun f => f.header.seqNum)).sum

namespace CanonicalAux

theorem verdict_of_mem {fs : List Frame} {w : List UInt8} (h : w ∈ fs.map Frame.bytes) : wire.verdict w = .take w.length := by
  obtain ⟨f, -, rfl⟩ := List.mem_map.mp h
  exact f.verdict_bytes

/-- The frames of a scanned stream of frames. -/
theorem scan_frameStream (fs : List Frame) :
    frames (wire.scan (frameStream fs)).1 = fs.map Frame.bytes ∧ badChecksums (wire.scan (frameStream fs)).1 = 0 ∧
      (wire.scan (frameStream fs)).2 = [] := by
  have hframes : ∀ w ∈ fs.map Frame.bytes, wire.verdict w = .take w.length := by
    intro w hw
    exact verdict_of_mem hw
  have hscan := Framer.scan_frames hframes []
  have hnil : wire.scan [] = ([], []) := Framer.scanAux_nil 0
  rw [List.append_nil, hnil, List.append_nil] at hscan
  rw [frameStream, List.flatMap, hscan]
  refine ⟨?_, ?_, rfl⟩
  · rw [frames, List.filterMap_map]
    simp
  · simp [badChecksums, Function.comp_def]

/-- A stream is frames with other bytes in between, and its scan finds these frames. -/
theorem scan_split (bs : List UInt8) :
    ∃ (gs : List (List UInt8 × Frame)) (rest : List UInt8), bs = gs.flatMap (fun g => g.1 ++ g.2.bytes) ++ rest ∧
      frames (wire.scan bs).1 = gs.map fun g => g.2.bytes := by
  induction bs using Framer.scan_induction (F := wire) with
  | hw bs h =>
    rw [Framer.scan_wait h]
    exact ⟨[], bs, rfl, rfl⟩
  | ha bs n h ih =>
    obtain ⟨gs, rest, hbs, hgs⟩ := ih
    rw [Framer.scan_advance h]
    cases hv : wire.verdict bs with
    | wait =>
      rw [hv] at h
      cases h
    | skip why =>
      -- the bytes skipped go in front of the next frame, if there is one
      have hskip : frames (⟨.skip why, bs.take n⟩ :: (wire.scan (bs.drop n)).1) = frames (wire.scan (bs.drop n)).1 := rfl
      rw [hskip, hgs]
      cases gs with
      | nil => exact ⟨[], bs, rfl, rfl⟩
      | cons g gs =>
        refine ⟨(bs.take n ++ g.1, g.2) :: gs, rest, ?_, rfl⟩
        calc bs = bs.take n ++ bs.drop n := (List.take_append_drop n bs).symm
          _ = _ := by rw [hbs]; simp
    | take m =>
      rw [hv] at h
      cases h
      obtain ⟨f, hf⟩ := exists_frame hv
      refine ⟨([], f) :: gs, rest, ?_, ?_⟩
      · calc bs = bs.take n ++ bs.drop n := (List.take_append_drop n bs).symm
          _ = _ := by rw [hbs, ← hf]; simp
      · rw [List.map_cons, ← hgs, hf]
        rfl

/-- What the scan of a stream comes to is told by its frames. -/
theorem readAs_of_shows {t : ParserSys c} {bs : List UInt8} {fs : List Frame} (hframes : frames (wire.scan bs).1 = fs.map Frame.bytes)
    (h : Shows t (scanResult bs)) : ReadAs t fs := by
  have hseq : seqNums (fs.map Frame.bytes) = fs.map fun f => f.header.seqNum := by
    rw [seqNums, List.map_map]
    apply List.map_congr_left
    intro f _
    have hheader := f.ofBytes_append []
    rw [List.append_nil] at hheader
    exact congrArg MsgHeader.seqNum hheader
  refine ⟨?_, ?_, ?_, ?_⟩
  · rw [h.messages, scanResult]
    dsimp only
    rw [hframes, List.filterMap_map]
    apply List.filterMap_congr
    intro f _
    exact f.frameMessage_bytes 0
  · rw [h.msgsParsed, scanResult]
    dsimp only
    rw [hframes, List.countP_map]
    congr 1
    apply List.countP_congr
    intro f _
    rw [Function.comp_apply, f.frameCounts_bytes]
  · rw [h.sequenceGaps, scanResult]
    dsimp only
    rw [hframes, hseq]
  · rw [h.totalGapSize, scanResult]
    dsimp only
    rw [hframes, hseq]

end CanonicalAux

open CanonicalAux

/-- Whatever bytes a parser has been fed without overflow, they are some frames with other bytes in front of, between and behind them, and
once a last `process` has returned the parser shows these frames; as does any parser that is fed the frames alone without overflow, which
has then seen no wrong checksum and has nothing left over. -/
theorem garbage_invisible {bytes : List UInt8} {s : ParserSys c} (h : s.FedWith bytes) :
    ∃ (gs : List (List UInt8 × Frame)) (rest : List UInt8), bytes = gs.flatMap (fun g => g.1 ++ g.2.bytes) ++ rest ∧
      (s.Ends fun t => ReadAs t (gs.map Prod.snd)) ∧
      ∀ (c' : Capacity) (s' : ParserSys c'), s'.FedWith (frameStream (gs.map Prod.snd)) →
        s'.Ends fun t => ReadAs t (gs.map Prod.snd) ∧ t.parser.checksumErrors = 0 ∧ t.parser.ring.contents = [] := by
  obtain ⟨gs, rest, hbytes, hframes⟩ := scan_split bytes
  refine ⟨gs, rest, hbytes, ?_, ?_⟩
  · have hframes' : frames (wire.scan bytes).1 = (gs.map Prod.snd).map Frame.bytes := by
      rw [hframes, List.map_map]
      rfl
    exact h.ends.mono fun t => readAs_of_shows hframes'
  · intro c' s' h'
    obtain ⟨hstream, herrors, hrest⟩ := scan_frameStream (gs.map Prod.snd)
    refine h'.ends.mono ?_
    intro t ht
    refine ⟨readAs_of_shows hstream ht, ?_, ?_⟩
    · rw [ht.checksumErrors, scanResult]
      dsimp only
      rw [herrors]
      rfl
    · rw [ht.rest, scanResult]
      exact hrest

namespace CanonicalAux

/-- A heartbeat behind a stray byte, and the first two bytes of what might be a quote. -/
def strayBytes : List UInt8 := 9 :: (generateHeartbeat 0 7 0 ++ [2, 0])

/-- They arrive in two parts, with a `process` in between. -/
def strayRun : List ParserEvent := [.feed (strayBytes.take 12) 1, .call, .iterate 2, .feed (strayBytes.drop 12) 3]

end CanonicalAux

/-- A parser that has been fed `strayBytes` meets the hypothesis of `garbage_invisible`. -/
theorem garbage_invisible_strayRun :
    ∃ s : ParserSys recvBufSize, s.FedWith strayBytes ∧
      ∃ (gs : List (List UInt8 × Frame)) (rest : List UInt8), strayBytes = gs.flatMap (fun g => g.1 ++ g.2.bytes) ++ rest ∧
        (s.Ends fun t => ReadAs t (gs.map Prod.snd)) ∧
        ∀ (c' : Capacity) (s' : ParserSys c'), s'.FedWith (frameStream (gs.map Prod.snd)) →
          s'.Ends fun t => ReadAs t (gs.map Prod.snd) ∧ t.parser.checksumErrors = 0 ∧ t.parser.ring.contents = [] := by
  have hrun : ∃ s, Run.exec ParserSys.step (ParserSys.init recvBufSize) strayRun = some s ∧
      ParserSys.NoOverflow (ParserSys.init recvBufSize) strayRun ∧ s.pc = .idle := by decide +kernel
  obtain ⟨s, hrun, hno, hidle⟩ := hrun
  have hfed : s.FedWith strayBytes := ⟨strayRun, by decide +kernel, hrun, hno, hidle⟩
  exact ⟨s, hfed, garbage_invisible hfed⟩

/-- A stream of frames is read in one way only: where one such stream is the front of another, its frames are the first of the other.
No two lists of frames have the same bytes. -/
theorem stream_reads_once (fs gs : List Frame) : frameStream fs <+: frameStream gs ↔ fs <+: gs := by
  constructor
  · intro h
    have hframes : fs.map Frame.bytes <+: gs.map Frame.bytes :=
      Framer.frames_prefix (F := wire) (fun w => verdict_of_mem) (fun w => verdict_of_mem) h
    obtain ⟨ws, hws⟩ := hframes
    obtain ⟨as, bs, hgs, has, hbs⟩ := List.map_eq_append_iff.mp hws.symm
    have hfs : as = fs := List.map_injective_iff.mpr Frame.bytes_injective has
    exact ⟨bs, by rw [hgs, hfs]⟩
  · rintro ⟨bs, rfl⟩
    exact ⟨frameStream bs, by simp [frameStream]⟩

end MarketFeed
