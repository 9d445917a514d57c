import MarketFeed.Scan

/-!
# The messages the server sends

`emit_trade`, `emit_quote` and `generate_heartbeat` of `src/server/tick_generator.cpp`: a zeroed struct is filled in, its checksum
is set, and its bytes are handed to the callback. `Msg` is a message so built, with what the caller chose for it; the reading of
the wall clock is a parameter.

A built message is one frame of the stream (`Msg.verdict_bytes`), and reads back as what was put in (`Msg.frameMessage_bytes`).
-/

namespace MarketFeed

open Bytes Framing

/-- The common part of the three: header and payload, a zero checksum, and `set_checksum` over the whole struct. -/
def emit (header : MsgHeader) (payload : List UInt8) : List UInt8 :=
  setChecksum (header.bytes ++ payload ++ leBytes 4 0) (headerSize + payload.length + checksumSize)

/-- `emit_trade`. -/
def emitTrade (symbolId : UInt16) (seqNum : UInt32) (nowNs : UInt64) (payload : TradePayload) : List UInt8 :=
  emit ⟨msgTrade, seqNum, nowNs, symbolId⟩ payload.bytes

/-- `emit_quote`. -/
def emitQuote (symbolId : UInt16) (seqNum : UInt32) (nowNs : UInt64) (payload : QuotePayload) : List UInt8 :=
  emit ⟨msgQuote, seqNum, nowNs, symbolId⟩ payload.bytes

/-- `generate_heartbeat`, with the symbol id as a parameter; the server always sends 0. -/
def generateHeartbeat (symbolId : UInt16) (seqNum : UInt32) (nowNs : UInt64) : List UInt8 :=
  emit ⟨msgHeartbeat, seqNum, nowNs, symbolId⟩ []

/-- A symbol id below `MAX_SYMBOLS`. -/
abbrev SymbolId : Type := { s : UInt16 // s < maxSymbols }

theorem mod_lt_maxSymbols (i : UInt16) : i % maxSymbols < maxSymbols := UInt16.mod_lt i (by decide)

/-- The symbol id of an index. -/
def SymbolId.ofIndex (i : UInt16) : SymbolId := ⟨i % maxSymbols, mod_lt_maxSymbols i⟩

/-- A message as the server builds it. -/
inductive Msg where
  | trade (symbolId : SymbolId) (seqNum : UInt32) (timestampNs : UInt64) (payload : TradePayload)
  | quote (symbolId : SymbolId) (seqNum : UInt32) (timestampNs : UInt64) (payload : QuotePayload)
  | heartbeat (symbolId : UInt16) (seqNum : UInt32) (timestampNs : UInt64)
  deriving DecidableEq

namespace Msg

/-- The bytes on the wire. -/
def bytes : Msg → List UInt8
  | .trade sym seq ts p => emitTrade sym.val seq ts p
  | .quote sym seq ts p => emitQuote sym.val seq ts p
  | .heartbeat sym seq ts => generateHeartbeat sym seq ts

/-- The header that was filled in. -/
def header : Msg → MsgHeader
  | .trade sym seq ts _ => ⟨msgTrade, seq, ts, sym.val⟩
  | .quote sym seq ts _ => ⟨msgQuote, seq, ts, sym.val⟩
  | .heartbeat sym seq ts => ⟨msgHeartbeat, seq, ts, sym⟩

/-- The payload that was filled in, as bytes. -/
def payload : Msg → List UInt8
  | .trade _ _ _ p => p.bytes
  | .quote _ _ _ p => p.bytes
  | .heartbeat _ _ _ => []

/-- What the receiver's callback should get: the fields of a trade or a quote, nothing for a heartbeat. -/
def parsed (recvTimeNs : UInt64) : Msg → Option ParsedMessage
  | .trade sym seq ts p => some ⟨msgTrade, seq, ts, sym.val, recvTimeNs, .trade p⟩
  | .quote sym seq ts p => some ⟨msgQuote, seq, ts, sym.val, recvTimeNs, .quote p⟩
  | .heartbeat _ _ _ => none

theorem bytes_eq_emit (m : Msg) : m.bytes = emit m.header m.payload := by
  cases m <;> rfl

end Msg

namespace EmitAux

/-- An emitted struct: header, payload, and the XOR of their words. -/
theorem emit_eq {hdr : MsgHeader} {payload : List UInt8} (h4 : 4 ∣ payload.length) :
    emit hdr payload = hdr.bytes ++ payload ++ leBytes 4 (checksumLoop 0 (hdr.bytes ++ payload)).toNat ∧
      verifyChecksum (emit hdr payload) (headerSize + payload.length + 4) = true := by
  have hl : (hdr.bytes ++ payload).length = headerSize + payload.length := by simp
  have hd : 4 ∣ (hdr.bytes ++ payload).length := by rw [hl, headerSize]; omega
  obtain ⟨hv, he⟩ := verifyChecksum_setChecksum hd (leBytes 4 0) (length_leBytes 4 0)
  rw [hl] at hv he
  exact ⟨he, hv⟩

theorem four_dvd_payload (m : Msg) : 4 ∣ m.payload.length := by
  cases m <;> simp [Msg.payload, tradePayload, quotePayload]

end EmitAux

open EmitAux

/-- The size of a message is the one its type announces. -/
theorem Msg.length_bytes (m : Msg) : m.bytes.length = totalSizeForType m.header.msgType := by
  rw [m.bytes_eq_emit, (emit_eq (four_dvd_payload m)).1]
  cases m <;> simp [Msg.payload, Msg.header, tradePayload, quotePayload, headerSize] <;> decide

theorem Msg.length_bytes_cases (m : Msg) : m.bytes.length = 32 ∨ m.bytes.length = 44 ∨ m.bytes.length = 20 := by
  rw [m.length_bytes]
  cases m with
  | trade sym seq ts p => exact .inl rfl
  | quote sym seq ts p => exact .inr (.inl rfl)
  | heartbeat sym seq ts => exact .inr (.inr rfl)

/-- The header reads back from the front of the message. -/
theorem Msg.ofBytes_bytes (m : Msg) : MsgHeader.ofBytes m.bytes = m.header := by
  rw [m.bytes_eq_emit, (emit_eq (four_dvd_payload m)).1, List.append_assoc, MsgHeader.ofBytes_bytes]

theorem Msg.verifyChecksum_bytes (m : Msg) : verifyChecksum m.bytes m.bytes.length = true := by
  have hl : m.bytes.length = headerSize + m.payload.length + 4 := by
    rw [m.bytes_eq_emit, (emit_eq (four_dvd_payload m)).1]
    simp
    omega
  rw [hl, m.bytes_eq_emit]
  exact (emit_eq (four_dvd_payload m)).2

/-- A built message is one frame. -/
theorem Msg.verdict_bytes (m : Msg) : verdict m.bytes = .take m.bytes.length := by
  have hh : headerSize ≤ m.bytes.length := by
    rcases m.length_bytes_cases with h | h | h <;> rw [h, headerSize] <;> omega
  have h0 : totalSizeForType m.header.msgType ≠ 0 := by
    rw [← m.length_bytes]
    rcases m.length_bytes_cases with h | h | h <;> omega
  rw [ScanAux.verdict_of_header hh, m.ofBytes_bytes, if_neg h0, ← m.length_bytes, if_neg (by omega), List.take_length,
    m.verifyChecksum_bytes, if_pos rfl]

/-- What the parser builds from a message is what was put in. -/
theorem Msg.frameMessage_bytes (m : Msg) (t : UInt64) : frameMessage m.bytes t = m.parsed t := by
  have hdrop : m.bytes.drop headerSize =
      m.payload ++ leBytes 4 (checksumLoop 0 (m.header.bytes ++ m.payload)).toNat := by
    rw [m.bytes_eq_emit, (emit_eq (four_dvd_payload m)).1, List.append_assoc,
      List.drop_left' (MsgHeader.length_bytes m.header)]
  simp only [frameMessage, m.ofBytes_bytes, Parser.buildMessage, hdrop]
  cases m with
  | trade sym seq ts p =>
    have hlt : ¬sym.val ≥ maxSymbols := UInt16.not_le.mpr sym.property
    have hne : ¬msgTrade = msgHeartbeat := by decide
    simp [Msg.header, Msg.parsed, Msg.payload, hlt, hne, TradePayload.ofBytes_bytes]
  | quote sym seq ts p =>
    have hlt : ¬sym.val ≥ maxSymbols := UInt16.not_le.mpr sym.property
    have hne : ¬msgQuote = msgHeartbeat := by decide
    have hne' : ¬msgQuote = msgTrade := by decide
    simp [Msg.header, Msg.parsed, Msg.payload, hlt, hne, hne', QuotePayload.ofBytes_bytes]
  | heartbeat sym seq ts => simp [Msg.header, Msg.parsed]

/-- A built message is counted as parsed. -/
theorem Msg.frameCounts_bytes (m : Msg) : frameCounts m.bytes = true := by
  simp only [frameCounts, m.ofBytes_bytes]
  cases m with
  | trade sym seq ts p => simp [Msg.header, sym.property]
  | quote sym seq ts p => simp [Msg.header, sym.property]
  | heartbeat sym seq ts => simp [Msg.header]

/-! ## Streams of messages -/

/-- The bytes of a list of messages. -/
def stream (ms : List Msg) : List UInt8 := (ms.map Msg.bytes).flatten

@[simp] theorem stream_nil : stream [] = [] := rfl

@[simp] theorem stream_cons (m : Msg) (ms : List Msg) : stream (m :: ms) = m.bytes ++ stream ms := rfl

theorem stream_append (ms ns : List Msg) : stream (ms ++ ns) = stream ms ++ stream ns := by
  simp [stream]

/-- A stream of messages is scanned message by message, whatever follows. -/
theorem scan_stream (ms : List Msg) (cs : List UInt8) :
    wire.scan (stream ms ++ cs) =
      (ms.map (fun m => ⟨.take m.bytes.length, m.bytes⟩) ++ (wire.scan cs).1, (wire.scan cs).2) := by
  have hws : ∀ w ∈ ms.map Msg.bytes, wire.verdict w = .take w.length := by
    intro w hw
    obtain ⟨m, -, rfl⟩ := List.mem_map.mp hw
    exact m.verdict_bytes
  rw [stream, Framer.scan_frames hws cs, List.map_map]
  rfl

end MarketFeed
