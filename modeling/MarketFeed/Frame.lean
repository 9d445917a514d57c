import MarketFeed.TickGenerator

/-!
# The format of the stream

What a message on the wire is, whoever wrote it and whoever reads it: a header of one of the three types and a payload as long as the
type asks for (`Frame`). Its bytes are those the three `emit` functions build.

The parser takes a message off the front of a stream exactly when the bytes there are those of a frame (`verdict_take_iff`), so that
each message it accepts has one encoding only, checksum included.
-/

namespace MarketFeed

open Bytes Framing

/-- A message on the wire. -/
structure Frame where
  header : MsgHeader
  payload : List UInt8
  fits : payloadSizeForType header.msgType = payload.length
  deriving DecidableEq

namespace Frame

/-- The bytes on the wire. -/
def bytes (f : Frame) : List UInt8 := emit f.header f.payload

/-- What the receiver's callback gets: nothing for a heartbeat or a symbol out of range. -/
def parsed (recvTimeNs : UInt64) (f : Frame) : Option ParsedMessage :=
  if f.header.msgType = msgHeartbeat ∨ f.header.symbolId ≥ maxSymbols then none
  else
    some {
      msgType := f.header.msgType
      seqNum := f.header.seqNum
      timestampNs := f.header.timestampNs
      symbolId := f.header.symbolId
      recvTimeNs := recvTimeNs
      payload :=
        if f.header.msgType = msgTrade then .trade (TradePayload.ofBytes f.payload) else .quote (QuotePayload.ofBytes f.payload) }

/-- A message counts as parsed when it is a heartbeat or its symbol is in range. -/
def counts (f : Frame) : Bool := f.header.msgType = msgHeartbeat || f.header.symbolId < maxSymbols

end Frame

/-- A message that the server builds, as a frame. -/
def Msg.frame (m : Msg) : Frame where
  header := m.header
  payload := m.payload
  fits := by cases m <;> simp [Msg.header, Msg.payload] <;> rfl

theorem Msg.bytes_frame (m : Msg) : m.frame.bytes = m.bytes := m.bytes_eq_emit.symm

namespace FrameAux

theorem four_dvd_fits (f : Frame) : 4 ∣ f.payload.length := by
  have hfits := f.fits
  unfold payloadSizeForType at hfits
  split_ifs at hfits with h1 h2 h3
  · rw [tradePayload] at hfits
    omega
  · rw [quotePayload] at hfits
    omega
  · omega

/-- The layout of a frame. -/
theorem bytes_eq (f : Frame) :
    f.bytes = f.header.bytes ++ f.payload ++ leBytes 4 (checksumLoop 0 (f.header.bytes ++ f.payload)).toNat :=
  (EmitAux.emit_eq (four_dvd_fits f)).1

theorem length_layout (f : Frame) : f.bytes.length = headerSize + f.payload.length + checksumSize := by
  rw [bytes_eq]
  simp [checksumSize, Nat.add_assoc]

end FrameAux

open FrameAux

/-- The size of a frame is the one its type announces. -/
theorem Frame.length_bytes (f : Frame) : f.bytes.length = totalSizeForType f.header.msgType := by
  rw [length_layout, totalSizeForType_eq (by rw [f.fits]; exact Int.natCast_nonneg _), f.fits, Int.toNat_natCast]

/-- The header reads back from the front of a frame, whatever follows. -/
theorem Frame.ofBytes_append (f : Frame) (cs : List UInt8) : MsgHeader.ofBytes (f.bytes ++ cs) = f.header := by
  rw [bytes_eq, List.append_assoc, List.append_assoc, MsgHeader.ofBytes_bytes]

/-- The payload reads back. -/
theorem Frame.drop_bytes (f : Frame) :
    f.bytes.drop headerSize = f.payload ++ leBytes 4 (checksumLoop 0 (f.header.bytes ++ f.payload)).toNat := by
  rw [bytes_eq, List.append_assoc, List.drop_left' (MsgHeader.length_bytes f.header)]

/-- A frame is taken off the front of a stream, whatever follows. -/
theorem Frame.verdict_bytes (f : Frame) : verdict f.bytes = .take f.bytes.length := by
  have hheader := f.ofBytes_append []
  have hlayout := length_layout f
  rw [List.append_nil] at hheader
  have hverify : verifyChecksum f.bytes f.bytes.length = true := by
    rw [hlayout]
    exact (EmitAux.emit_eq (four_dvd_fits f)).2
  have hne : totalSizeForType f.header.msgType ≠ 0 := by
    rw [← f.length_bytes, hlayout, headerSize]
    omega
  rw [ScanAux.verdict_of_header (by omega), hheader, if_neg hne, ← f.length_bytes, if_neg (Nat.lt_irrefl _), List.take_length,
    if_pos hverify]

/-- A frame is determined by its bytes. -/
theorem Frame.bytes_injective : Function.Injective Frame.bytes := by
  intro f g h
  have hheader : f.header = g.header := by
    rw [← f.ofBytes_append [], ← g.ofBytes_append [], h]
  have hpayload : f.payload = g.payload := by
    have hlen : f.payload.length = g.payload.length := by
      have hf := f.fits
      have hg := g.fits
      rw [hheader] at hf
      omega
    have hdrop := congrArg (List.drop headerSize) h
    rw [f.drop_bytes, g.drop_bytes] at hdrop
    exact List.append_inj_left hdrop hlen
  cases f
  cases g
  cases hheader
  cases hpayload
  rfl

/-! ## Reading and writing back -/

namespace FrameAux

/-- A field written back as it was read. -/
theorem leBytes_field {bs : List UInt8} {off n : Nat} (h : off + n ≤ bs.length) (k : Nat) :
    leBytes n (readLE off n bs) ++ (bs.drop (off + n)).take k = (bs.drop off).take (n + k) := by
  rw [leBytes_readLE h, List.take_add, List.drop_drop]

/-- A header written back as it was read. -/
theorem bytes_ofBytes {bs : List UInt8} (h : headerSize ≤ bs.length) : (MsgHeader.ofBytes bs).bytes = bs.take headerSize := by
  have h16 : 16 ≤ bs.length := h
  have hseq : leBytes 4 (readLE 2 4 bs) ++ (bs.drop 6).take 10 = (bs.drop 2).take 14 := leBytes_field (by omega) 10
  have htime : leBytes 8 (readLE 6 8 bs) ++ (bs.drop 14).take 2 = (bs.drop 6).take 10 := leBytes_field (by omega) 2
  have htype : leBytes 2 (readLE 0 2 bs) ++ (bs.drop 2).take 14 = (bs.drop 0).take 16 := leBytes_field (by omega) 14
  have hsymbol : leBytes 2 (readLE 14 2 bs) = (bs.drop 14).take 2 := leBytes_readLE (by omega)
  have ht : (UInt16.ofNat (readLE 0 2 bs)).toNat = readLE 0 2 bs := UInt16.toNat_ofNat_of_lt' (readLE_lt (by omega))
  have hs : (UInt32.ofNat (readLE 2 4 bs)).toNat = readLE 2 4 bs := UInt32.toNat_ofNat_of_lt' (readLE_lt (by omega))
  have hn : (UInt64.ofNat (readLE 6 8 bs)).toNat = readLE 6 8 bs := UInt64.toNat_ofNat_of_lt' (readLE_lt (by omega))
  have hi : (UInt16.ofNat (readLE 14 2 bs)).toNat = readLE 14 2 bs := UInt16.toNat_ofNat_of_lt' (readLE_lt (by omega))
  rw [MsgHeader.bytes, MsgHeader.ofBytes, ht, hs, hn, hi, hsymbol, htime, hseq, htype]
  rfl

end FrameAux

/-- What is taken off the front of a stream is a frame. -/
theorem exists_frame {bs : List UInt8} {n : Nat} (h : verdict bs = .take n) : ∃ f : Frame, f.bytes = bs.take n := by
  obtain ⟨hheader, hle, htotal, hne, hverify⟩ := ScanAux.verdict_take h
  have hknown : 0 ≤ payloadSizeForType (MsgHeader.ofBytes bs).msgType := by
    by_contra hneg
    exact hne (htotal ▸ (payloadSizeForType_neg_iff _).mp (by omega))
  have hsize := totalSizeForType_eq hknown
  have h4 : checksumSize = 4 := rfl
  generalize hp : (payloadSizeForType (MsgHeader.ofBytes bs).msgType).toNat = p at hsize
  rw [htotal] at hsize
  have hlen : ((bs.drop headerSize).take p).length = p := by
    rw [List.length_take, List.length_drop]
    omega
  let f : Frame := ⟨MsgHeader.ofBytes bs, (bs.drop headerSize).take p, by rw [hlen, ← hp, Int.toNat_of_nonneg hknown]⟩
  refine ⟨f, ?_⟩
  have hbody : f.header.bytes ++ f.payload = bs.take (n - checksumSize) := by
    have hn : n - checksumSize = headerSize + p := by omega
    change (MsgHeader.ofBytes bs).bytes ++ (bs.drop headerSize).take p = _
    rw [bytes_ofBytes hheader, hn, List.take_add]
  have hword : leBytes 4 (checksumLoop 0 (f.header.bytes ++ f.payload)).toNat = (bs.drop (n - checksumSize)).take 4 := by
    have hfour : n - checksumSize + 4 ≤ bs.length := by omega
    have hn : 4 ≤ n := by omega
    rw [verifyChecksum_take hle hn, verifyChecksum, beq_iff_eq, computeChecksum] at hverify
    rw [hbody, hverify, UInt32.toNat_ofNat_of_lt' (readLE_lt hfour), leBytes_readLE hfour]
  have hn : n = n - checksumSize + 4 := by omega
  rw [bytes_eq, hword, hbody]
  conv_rhs => rw [hn, List.take_add]

/-- A stream starts with a message that the parser takes exactly when it starts with a frame. -/
theorem verdict_take_iff (bs : List UInt8) (n : Nat) : verdict bs = .take n ↔ ∃ f : Frame, f.bytes <+: bs ∧ f.bytes.length = n := by
  constructor
  · intro h
    obtain ⟨f, hf⟩ := exists_frame h
    refine ⟨f, hf ▸ List.take_prefix n bs, ?_⟩
    rw [hf, List.length_take]
    exact Nat.min_eq_left (ScanAux.verdict_take h).2.1
  · rintro ⟨f, ⟨cs, rfl⟩, rfl⟩
    rw [ScanAux.verdict_stable cs (by rw [f.verdict_bytes]; simp), f.verdict_bytes]

/-- What the parser hands to the callback of a frame. -/
theorem Frame.frameMessage_bytes (f : Frame) (t : UInt64) : frameMessage f.bytes t = f.parsed t := by
  have hheader := f.ofBytes_append []
  rw [List.append_nil] at hheader
  have hdrop := f.drop_bytes
  simp only [frameMessage, Frame.parsed, Parser.buildMessage, hheader, hdrop]
  by_cases hnone : f.header.msgType = msgHeartbeat ∨ f.header.symbolId ≥ maxSymbols
  · rw [if_pos hnone, if_pos hnone]
  rw [if_neg hnone, if_neg hnone]
  have hfits := f.fits
  unfold payloadSizeForType at hfits
  split_ifs at hfits with htrade hquote hheartbeat
  · have hlen : 12 ≤ f.payload.length := by
      rw [tradePayload] at hfits
      omega
    rw [if_pos htrade, if_pos htrade]
    simp only [TradePayload.ofBytes]
    rw [readLE_append_right (by omega), readLE_append_right (by omega)]
  · have hlen : 24 ≤ f.payload.length := by
      rw [quotePayload] at hfits
      omega
    rw [if_neg htrade, if_neg htrade]
    simp only [QuotePayload.ofBytes]
    rw [readLE_append_right (by omega), readLE_append_right (by omega), readLE_append_right (by omega), readLE_append_right (by omega)]
  · exact absurd (.inl hheartbeat) hnone

/-- Whether the parser counts a frame as parsed. -/
theorem Frame.frameCounts_bytes (f : Frame) : frameCounts f.bytes = f.counts := by
  have hheader := f.ofBytes_append []
  rw [List.append_nil] at hheader
  simp only [frameCounts, Frame.counts, hheader]

end MarketFeed
