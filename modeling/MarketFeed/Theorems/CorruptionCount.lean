import MarketFeed.Lemmas.Processed
import MarketFeed.Theorems.Corruption

/-!
# How often a corrupted message is counted

A corrupted message fails its checksum once. The parser then goes on one byte further, and the first place in the message where it
can read a known type decides the rest: what seems to start there is not complete and the parser waits, or it is complete and is
either counted as a second checksum error or taken for a message.
-/

namespace MarketFeed

open Framing ScanAux ResyncAux

variable {c : Capacity}

/-- The bytes from the first place on where a known type is read, as long as there is a header's worth of them. -/
def firstKnown : List UInt8 → Option (List UInt8)
  | [] => none
  | b :: bs =>
    if (b :: bs).length < headerSize then none
    else if totalSizeForType (MsgHeader.ofBytes (b :: bs)).msgType = 0 then firstKnown bs
    else some (b :: bs)

/-- What seems to be a message is not complete, or it verifies and is discarded for its symbol. -/
def PassesQuietly (w : List UInt8) : Prop :=
  let hdr := MsgHeader.ofBytes w
  let n := totalSizeForType hdr.msgType
  w.length < n ∨ (verifyChecksum (w.take n) n = true ∧ hdr.msgType ≠ msgHeartbeat ∧ hdr.symbolId ≥ maxSymbols)

/-- Behind the first byte no known type is read, or the first that is passes quietly. -/
def CountedOnce (bad : List UInt8) : Prop := ∀ w, firstKnown (bad.drop 1) = some w → PassesQuietly w

namespace CorruptionCountAux

/-- A scan that counts neither a checksum error nor a message. -/
def Clean (bs : List UInt8) : Prop :=
  badChecksums (wire.scan bs).1 = 0 ∧ (frames (wire.scan bs).1).countP frameCounts = 0

theorem clean_of_wait {bs : List UInt8} (h : verdict bs = .wait) : Clean bs := by
  have hscan : wire.scan bs = ([], bs) := Framer.scan_wait h
  unfold Clean
  rw [hscan]
  exact ⟨rfl, rfl⟩

/-- The scan is its first piece and the scan of the rest. -/
theorem scan_of_verdict {bs : List UInt8} {v : Verdict SkipReason} (h : verdict bs = v) {n : Nat} (hn : v.advance = some n) :
    wire.scan bs = (⟨v, bs.take n⟩ :: (wire.scan (bs.drop n)).1, (wire.scan (bs.drop n)).2) := by
  subst h
  exact Framer.scan_advance hn

theorem clean_skip_unknown {bs : List UInt8} (h : verdict bs = .skip .unknownType) : Clean bs ↔ Clean (bs.drop 1) := by
  unfold Clean
  rw [scan_of_verdict h rfl]
  simp [badChecksums, frames]

theorem not_clean_skip_bad {bs : List UInt8} (h : verdict bs = .skip .badChecksum) : ¬Clean bs := by
  unfold Clean
  rw [scan_of_verdict h rfl]
  simp [badChecksums]

theorem clean_take {bs : List UInt8} {n : Nat} (h : verdict bs = .take n) :
    Clean bs ↔ frameCounts (bs.take n) = false ∧ Clean (bs.drop n) := by
  unfold Clean
  rw [scan_of_verdict h rfl]
  cases hcounts : frameCounts (bs.take n) <;> simp [badChecksums, frames, hcounts]

/-- A window that seems to be no heartbeat and is shorter than a quote is a trade. -/
theorem totalSizeForType_trade {t : UInt16} {k : Nat} (ht : t ≠ msgHeartbeat) (h0 : totalSizeForType t ≠ 0)
    (hle : totalSizeForType t ≤ k) (hk : k < maxMsgSize) : totalSizeForType t = 32 := by
  have hmax : maxMsgSize = 44 := rfl
  have hquote : msgQuoteSize = 44 := rfl
  unfold totalSizeForType at h0 hle ⊢
  split_ifs at h0 hle ⊢
  · rfl
  · omega
  · exact absurd rfl h0

/-- Where a known type is read, what seems to start there is all that counts. -/
theorem clean_known {w : List UInt8} (hheader : headerSize ≤ w.length)
    (hknown : totalSizeForType (MsgHeader.ofBytes w).msgType ≠ 0) (hlen : w.length < maxMsgSize) : Clean w ↔ PassesQuietly w := by
  have hverdict := verdict_of_header hheader
  rw [if_neg hknown] at hverdict
  unfold PassesQuietly
  dsimp only
  by_cases hshort : w.length < totalSizeForType (MsgHeader.ofBytes w).msgType
  · rw [if_pos hshort] at hverdict
    exact iff_of_true (clean_of_wait hverdict) (Or.inl hshort)
  · rw [if_neg hshort] at hverdict
    have hle := Nat.not_lt.mp hshort
    by_cases hok : verifyChecksum (w.take (totalSizeForType (MsgHeader.ofBytes w).msgType))
        (totalSizeForType (MsgHeader.ofBytes w).msgType) = true
    · rw [if_pos hok] at hverdict
      have hsize : headerSize ≤ totalSizeForType (MsgHeader.ofBytes w).msgType := by
        have hcases := totalSizeForType_cases (MsgHeader.ofBytes w).msgType
        unfold headerSize
        omega
      rw [clean_take hverdict, frameCounts, ofBytes_take hsize hle]
      constructor
      · rintro ⟨hcounts, -⟩
        refine Or.inr ⟨hok, ?_⟩
        simpa using hcounts
      · rintro (hlt | ⟨-, htype, hsym⟩)
        · exact absurd hlt hshort
        · refine ⟨by simpa using ⟨htype, hsym⟩, clean_of_wait (verdict_wait_short ?_)⟩
          -- what is left behind the window is shorter than a header
          have htrade := totalSizeForType_trade htype hknown hle hlen
          rw [List.length_drop, htrade]
          have hmax : maxMsgSize = 44 := rfl
          unfold headerSize
          omega
    · rw [if_neg hok] at hverdict
      refine iff_of_false (not_clean_skip_bad hverdict) ?_
      rintro (hlt | ⟨hverify, -⟩)
      · exact hshort hlt
      · exact hok hverify

/-- Inside a message the first known type decides whether anything is counted: there is no room for a second message. -/
theorem clean_iff_firstKnown (bs : List UInt8) (hlen : bs.length < maxMsgSize) :
    Clean bs ↔ ∀ w, firstKnown bs = some w → PassesQuietly w := by
  induction bs with
  | nil => exact iff_of_true (clean_of_wait (verdict_wait_short (by decide))) nofun
  | cons b bs ih =>
    unfold firstKnown
    by_cases hheader : (b :: bs).length < headerSize
    · rw [if_pos hheader]
      exact iff_of_true (clean_of_wait (verdict_wait_short hheader)) nofun
    · rw [if_neg hheader]
      have hverdict := verdict_of_header (Nat.not_lt.mp hheader)
      by_cases hknown : totalSizeForType (MsgHeader.ofBytes (b :: bs)).msgType = 0
      · rw [if_pos hknown] at hverdict ⊢
        rw [clean_skip_unknown hverdict, List.drop_one, List.tail_cons]
        exact ih (Nat.lt_of_succ_lt hlen)
      · rw [if_neg hknown, clean_known (Nat.not_lt.mp hheader) hknown hlen]
        constructor
        · intro hquiet w hw
          cases hw
          exact hquiet
        · intro hquiet
          exact hquiet _ rfl

/-- A message with a byte behind its type changed is skipped for its checksum. -/
theorem verdict_corrupted {m : Msg} {p : Nat} {b : UInt8} (hp2 : 2 ≤ p) (hp : p < m.bytes.length)
    (hne : m.bytes.set p b ≠ m.bytes) : verdict (m.bytes.set p b) = .skip .badChecksum := by
  have hlen : (m.bytes.set p b).length = m.bytes.length := List.length_set
  have hcases := m.length_bytes_cases
  have hheader : headerSize ≤ (m.bytes.set p b).length := by
    unfold headerSize
    omega
  have htype : (MsgHeader.ofBytes (m.bytes.set p b)).msgType = m.header.msgType := by
    rw [CorruptionAux.msgType_take (List.take_set_of_le hp2), m.ofBytes_bytes]
  have htaken := CorruptionAux.corrupted_not_taken hp2 hp hne [] m.bytes.length m.bytes.length
  rw [List.append_nil, List.take_of_length_le (Nat.le_of_eq hlen)] at htaken
  have hverdict := verdict_of_header hheader
  rw [htype, ← m.length_bytes, if_neg (by omega), if_neg (by omega)] at hverdict
  split at hverdict
  · exact absurd hverdict htaken
  · exact hverdict

/-- The checksum error of the message itself, and what the scan goes on to count behind its first byte. -/
theorem scanResult_corrupted {m : Msg} {p : Nat} {b : UInt8} (hp2 : 2 ≤ p) (hp : p < m.bytes.length)
    (hne : m.bytes.set p b ≠ m.bytes) :
    (scanResult (m.bytes.set p b)).checksumErrors = 1 ∧ (scanResult (m.bytes.set p b)).msgsParsed = 0 ↔
      CountedOnce (m.bytes.set p b) := by
  have hverdict := verdict_corrupted hp2 hp hne
  have hscan := Framer.scan_advance (F := wire) (n := 1) (congrArg Verdict.advance hverdict)
  have hpiece : wire.verdict (m.bytes.set p b) = .skip .badChecksum := hverdict
  rw [hpiece] at hscan
  have hlen : ((m.bytes.set p b).drop 1).length < maxMsgSize := by
    have hcases := m.length_bytes_cases
    have hmax : maxMsgSize = 44 := rfl
    rw [List.length_drop, List.length_set]
    omega
  unfold CountedOnce
  rw [← clean_iff_firstKnown _ hlen]
  unfold Clean scanResult
  simp [hscan, badChecksums, frames]

/-- The counts of a scan are no more than there are bytes. -/
theorem scanResult_le (bs : List UInt8) :
    (scanResult bs).checksumErrors ≤ bs.length ∧ (scanResult bs).msgsParsed ≤ bs.length := by
  have hpieces : (wire.scan bs).1.length ≤ bs.length := Framer.length_scan_le bs
  constructor
  · exact Nat.le_trans List.countP_le_length hpieces
  · exact Nat.le_trans (Nat.le_trans List.countP_le_length (List.length_filterMap_le _ _)) hpieces

/-- A counter shows a small number exactly when it has counted it. -/
theorem ofNat_eq_iff {n k : Nat} (hn : n < 2 ^ 64) (hk : k < 2 ^ 64) : UInt64.ofNat n = UInt64.ofNat k ↔ n = k := by
  rw [← UInt64.toNat_inj, UInt64.toNat_ofNat_of_lt' hn, UInt64.toNat_ofNat_of_lt' hk]

end CorruptionCountAux

open CorruptionCountAux

/-- A message with one byte behind its type changed, fed alone to a fresh parser and processed: there is one checksum error and no
message is parsed if and only if the first known type that is read behind the first byte, if there is one, passes quietly. -/
theorem counted_once_iff (m : Msg) (p : Nat) (b : UInt8) (hp2 : 2 ≤ p) (hp : p < m.bytes.length) (hne : m.bytes.set p b ≠ m.bytes)
    (t : UInt64) :
    ∃ k, ∀ nows : List UInt64, nows.length = k → ∃ s : ParserSys recvBufSize,
      Run.exec ParserSys.step (ParserSys.init recvBufSize) (.feed (m.bytes.set p b) t :: processCall nows) = some s ∧ s.pc = .idle ∧
      (s.parser.checksumErrors = 1 ∧ s.parser.msgsParsed = 0 ↔ CountedOnce (m.bytes.set p b)) := by
  have hcases := m.length_bytes_cases
  have hlen : (m.bytes.set p b).length = m.bytes.length := List.length_set
  have hfed : ({ ParserSys.init recvBufSize with parser := (Parser.fresh recvBufSize).feed (m.bytes.set p b) t } :
      ParserSys recvBufSize).FedWith (m.bytes.set p b) := by
    refine ⟨[.feed (m.bytes.set p b) t], by simp [fedBytes], rfl, ⟨?_, trivial⟩, rfl⟩
    have hroom : (ParserSys.init recvBufSize).parser.ring.writable.toNat = 8388608 := by decide
    unfold ParserSys.FeedFits
    omega
  obtain ⟨k, hk⟩ := hfed.ends
  refine ⟨k, fun nows hnows => ?_⟩
  obtain ⟨s, hs, hidle, hshows⟩ := hk nows hnows
  refine ⟨s, Run.exec_cons_eq_some.mpr ⟨_, rfl, hs⟩, hidle, ?_⟩
  obtain ⟨herrors, hparsed⟩ := scanResult_le (m.bytes.set p b)
  rw [← scanResult_corrupted hp2 hp hne, hshows.checksumErrors, hshows.msgsParsed]
  rw [show (1 : UInt64) = UInt64.ofNat 1 from rfl, show (0 : UInt64) = UInt64.ofNat 0 from rfl, ofNat_eq_iff (by omega) (by omega),
    ofNat_eq_iff (by omega) (by omega)]

namespace CorruptionCountAux

/-- The quote of the test `CorruptChecksumDiscarded`: sequence number 1, symbol 0, 1000 at 100.0 and 500 at 100.5. -/
def testQuote : Msg := .quote (.ofIndex 0) 1 1700000000000000000 ⟨4636737291354636288, 1000, 4636772475726725120, 500⟩

/-- A trade. -/
def plainTrade : Msg := .trade (.ofIndex 7) 1234567 1700000000000000000 ⟨4641240890982006784, 100⟩

/-- The test: byte 5 of the quote is inverted. -/
def testRun : List ParserEvent := .feed (testQuote.bytes.set 5 255) 5 :: processCall (List.replicate 26 9)

end CorruptionCountAux

/-- The run `testRun`: the sequence number 1 looks like the type of a trade, which fails its checksum too. -/
theorem corrupted_counted_twice :
    2 ≤ 5 ∧ 5 < testQuote.bytes.length ∧ testQuote.bytes.set 5 255 ≠ testQuote.bytes ∧
      ∃ s, Run.exec ParserSys.step (ParserSys.init recvBufSize) testRun = some s ∧ s.pc = .idle ∧ s.parser.checksumErrors = 2 := by
  refine ⟨by decide, by decide, by decide, ?_⟩
  decide +kernel

/-- `plainTrade` with a byte of its price changed: no known type is read behind its first byte, so it is counted once. -/
theorem counted_once_iff_plainTrade :
    ∃ k, ∀ nows : List UInt64, nows.length = k → ∃ s : ParserSys recvBufSize,
      Run.exec ParserSys.step (ParserSys.init recvBufSize) (.feed (plainTrade.bytes.set 20 255) 5 :: processCall nows) = some s ∧
      s.parser.checksumErrors = 1 ∧ s.parser.msgsParsed = 0 := by
  have hnone : firstKnown ((plainTrade.bytes.set 20 255).drop 1) = none := by decide +kernel
  have honce : CountedOnce (plainTrade.bytes.set 20 255) := by
    intro w hw
    rw [hnone] at hw
    cases hw
  obtain ⟨k, hk⟩ := counted_once_iff plainTrade 20 255 (by decide) (by decide) (by decide) 5
  refine ⟨k, fun nows hnows => ?_⟩
  obtain ⟨s, hs, -, hiff⟩ := hk nows hnows
  exact ⟨s, hs, hiff.mpr honce⟩

end MarketFeed
