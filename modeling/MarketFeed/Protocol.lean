import MarketFeed.Lib.Bytes

/-!
# The wire protocol

`include/protocol.h`: the wire constants, the packed little-endian message structs, the XOR checksum, and the payload size of a
message type. A `double` travels as its 64-bit pattern, so a price is a `UInt64` here; nothing on the wire looks inside it.
-/

namespace MarketFeed

open Bytes

/-! ## Constants -/

def msgTrade : UInt16 := 0x0001
def msgQuote : UInt16 := 0x0002
def msgHeartbeat : UInt16 := 0x0003
def msgSubscribe : UInt8 := 0xFF

def maxSymbols : UInt16 := 500

def headerSize : Nat := 16
def checksumSize : Nat := 4
def tradePayload : Nat := 12
def quotePayload : Nat := 24
def heartbeatPayload : Nat := 0

def msgTradeSize : Nat := headerSize + tradePayload + checksumSize
def msgQuoteSize : Nat := headerSize + quotePayload + checksumSize
def msgHeartbeatSize : Nat := headerSize + heartbeatPayload + checksumSize
def maxMsgSize : Nat := msgQuoteSize

/-! ## Message structures -/

/-- `MsgHeader`. -/
structure MsgHeader where
  msgType : UInt16
  seqNum : UInt32
  timestampNs : UInt64
  symbolId : UInt16
  deriving DecidableEq, Repr

/-- `TradePayload`. -/
structure TradePayload where
  price : UInt64
  quantity : UInt32
  deriving DecidableEq, Repr

/-- `QuotePayload`. -/
structure QuotePayload where
  bidPrice : UInt64
  bidQty : UInt32
  askPrice : UInt64
  askQty : UInt32
  deriving DecidableEq, Repr

/-- The packed layout of a header. -/
def MsgHeader.bytes (h : MsgHeader) : List UInt8 :=
  leBytes 2 h.msgType.toNat ++ (leBytes 4 h.seqNum.toNat ++ (leBytes 8 h.timestampNs.toNat ++ leBytes 2 h.symbolId.toNat))

/-- A header copied out of the front of a byte buffer. -/
def MsgHeader.ofBytes (bs : List UInt8) : MsgHeader where
  msgType := UInt16.ofNat (readLE 0 2 bs)
  seqNum := UInt32.ofNat (readLE 2 4 bs)
  timestampNs := UInt64.ofNat (readLE 6 8 bs)
  symbolId := UInt16.ofNat (readLE 14 2 bs)

/-- The packed layout of a trade payload. -/
def TradePayload.bytes (p : TradePayload) : List UInt8 :=
  leBytes 8 p.price.toNat ++ leBytes 4 p.quantity.toNat

/-- A trade payload copied out of the front of a byte buffer. -/
def TradePayload.ofBytes (bs : List UInt8) : TradePayload where
  price := UInt64.ofNat (readLE 0 8 bs)
  quantity := UInt32.ofNat (readLE 8 4 bs)

/-- The packed layout of a quote payload. -/
def QuotePayload.bytes (p : QuotePayload) : List UInt8 :=
  leBytes 8 p.bidPrice.toNat ++ (leBytes 4 p.bidQty.toNat ++ (leBytes 8 p.askPrice.toNat ++ leBytes 4 p.askQty.toNat))

/-- A quote payload copied out of the front of a byte buffer. -/
def QuotePayload.ofBytes (bs : List UInt8) : QuotePayload where
  bidPrice := UInt64.ofNat (readLE 0 8 bs)
  bidQty := UInt32.ofNat (readLE 8 4 bs)
  askPrice := UInt64.ofNat (readLE 12 8 bs)
  askQty := UInt32.ofNat (readLE 20 4 bs)

/-! ## Checksum -/

/-- The loop of `compute_checksum`: whole words are folded in first, then the bytes that are left, padded with zeros. -/
def checksumLoop (xorVal : UInt32) : List UInt8 → UInt32
  | b0 :: b1 :: b2 :: b3 :: rest => checksumLoop (xorVal ^^^ UInt32.ofNat (leNat [b0, b1, b2, b3])) rest
  | rem => if rem.length = 0 then xorVal else xorVal ^^^ UInt32.ofNat (leNat rem)

/-- `compute_checksum`. -/
def computeChecksum (data : List UInt8) (len : Nat) : UInt32 := checksumLoop 0 (data.take len)

/-- `set_checksum`: the four bytes that end the message are overwritten. -/
def setChecksum (msg : List UInt8) (msgSize : Nat) : List UInt8 :=
  let cs := computeChecksum msg (msgSize - checksumSize)
  msg.take (msgSize - checksumSize) ++ leBytes 4 cs.toNat ++ msg.drop msgSize

/-- `verify_checksum`. -/
def verifyChecksum (msg : List UInt8) (msgSize : Nat) : Bool :=
  let expected := computeChecksum msg (msgSize - checksumSize)
  let actual := UInt32.ofNat (readLE (msgSize - checksumSize) 4 msg)
  expected == actual

/-! ## Sizes -/

/-- `payload_size_for_type`, `-1` for an unknown type. -/
def payloadSizeForType (msgType : UInt16) : Int :=
  if msgType = msgTrade then tradePayload
  else if msgType = msgQuote then quotePayload
  else if msgType = msgHeartbeat then 0
  else -1

/-- `total_size_for_type`, `0` for an unknown type. -/
def totalSizeForType (msgType : UInt16) : Nat :=
  if msgType = msgTrade then msgTradeSize
  else if msgType = msgQuote then msgQuoteSize
  else if msgType = msgHeartbeat then msgHeartbeatSize
  else 0

/-- The two size functions agree: a known type's message is the header, its payload and the checksum. -/
theorem totalSizeForType_eq {t : UInt16} (h : 0 ≤ payloadSizeForType t) :
    totalSizeForType t = headerSize + (payloadSizeForType t).toNat + checksumSize := by
  unfold payloadSizeForType at h ⊢
  unfold totalSizeForType
  split_ifs at h ⊢ with h1 h2 h3
  · rfl
  · rfl
  · rfl
  · omega

/-- A type is unknown to both size functions or to neither. -/
theorem payloadSizeForType_neg_iff (t : UInt16) : payloadSizeForType t < 0 ↔ totalSizeForType t = 0 := by
  unfold payloadSizeForType totalSizeForType
  split_ifs <;> decide

/-- A message of a known type is 32, 44 or 20 bytes. -/
theorem totalSizeForType_cases (t : UInt16) :
    totalSizeForType t = 0 ∨ totalSizeForType t = 32 ∨ totalSizeForType t = 44 ∨ totalSizeForType t = 20 := by
  unfold totalSizeForType
  split_ifs <;> decide

/-! ## Reading back a packed struct -/

@[simp] theorem MsgHeader.length_bytes (h : MsgHeader) : h.bytes.length = headerSize := by
  simp [MsgHeader.bytes, headerSize]

@[simp] theorem TradePayload.length_bytes (p : TradePayload) : p.bytes.length = tradePayload := by
  simp [TradePayload.bytes, tradePayload]

@[simp] theorem QuotePayload.length_bytes (p : QuotePayload) : p.bytes.length = quotePayload := by
  simp [QuotePayload.bytes, quotePayload]

namespace ProtocolAux

theorem toNat16_lt (x : UInt16) : x.toNat < 256 ^ 2 := x.toNat_lt
theorem toNat32_lt (x : UInt32) : x.toNat < 256 ^ 4 := x.toNat_lt
theorem toNat64_lt (x : UInt64) : x.toNat < 256 ^ 8 := x.toNat_lt

/-- A field behind another field of `k` bytes. -/
theorem readLE_behind {k off n x : Nat} {bs : List UInt8} (h : k ≤ off) :
    readLE off n (leBytes k x ++ bs) = readLE (off - k) n bs := by
  rw [readLE_append_left (by simpa using h), length_leBytes]

end ProtocolAux

open ProtocolAux

/-- A header is read back from its layout, whatever follows. -/
theorem MsgHeader.ofBytes_bytes (h : MsgHeader) (bs : List UInt8) : MsgHeader.ofBytes (h.bytes ++ bs) = h := by
  simp only [MsgHeader.ofBytes, MsgHeader.bytes, List.append_assoc]
  rw [readLE_leBytes _ (toNat16_lt _), readLE_behind (by omega), readLE_leBytes _ (toNat32_lt _),
    readLE_behind (by omega), readLE_behind (by omega), readLE_leBytes _ (toNat64_lt _), readLE_behind (by omega),
    readLE_behind (by omega), readLE_behind (by omega), readLE_leBytes _ (toNat16_lt _)]
  simp

/-- A trade payload is read back from its layout, whatever follows. -/
theorem TradePayload.ofBytes_bytes (p : TradePayload) (bs : List UInt8) :
    TradePayload.ofBytes (p.bytes ++ bs) = p := by
  simp only [TradePayload.ofBytes, TradePayload.bytes, List.append_assoc]
  rw [readLE_leBytes _ (toNat64_lt _), readLE_behind (by omega), readLE_leBytes _ (toNat32_lt _)]
  simp

/-- A quote payload is read back from its layout, whatever follows. -/
theorem QuotePayload.ofBytes_bytes (p : QuotePayload) (bs : List UInt8) :
    QuotePayload.ofBytes (p.bytes ++ bs) = p := by
  simp only [QuotePayload.ofBytes, QuotePayload.bytes, List.append_assoc]
  rw [readLE_leBytes _ (toNat64_lt _), readLE_behind (by omega), readLE_leBytes _ (toNat32_lt _),
    readLE_behind (by omega), readLE_behind (by omega), readLE_leBytes _ (toNat64_lt _), readLE_behind (by omega),
    readLE_behind (by omega), readLE_behind (by omega), readLE_leBytes _ (toNat32_lt _)]
  simp

/-- The header is decided by the first sixteen bytes. -/
theorem MsgHeader.ofBytes_append {bs : List UInt8} (cs : List UInt8) (h : headerSize ≤ bs.length) :
    MsgHeader.ofBytes (bs ++ cs) = MsgHeader.ofBytes bs := by
  have h16 : 16 ≤ bs.length := h
  simp only [MsgHeader.ofBytes]
  rw [readLE_append_right (by omega), readLE_append_right (by omega), readLE_append_right (by omega),
    readLE_append_right (by omega)]

end MarketFeed
