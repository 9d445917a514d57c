import MarketFeed.Lemmas.Checksum

/-!
# What the checksum detects

The checksum word makes every lane of the message cancel out. Four consecutive bytes are in four different lanes, wherever they begin,
so whatever is changed within them leaves a lane that does not cancel.
-/

namespace MarketFeed

open Bytes

namespace ErrorDetectionAux

/-- `set_checksum` makes the check pass, and writes the last four bytes only. -/
theorem setChecksum_spec {msg : List UInt8} (h4 : 4 ∣ msg.length) (hpos : 4 ≤ msg.length) :
    verifyChecksum (setChecksum msg msg.length) msg.length = true ∧ (setChecksum msg msg.length).length = msg.length ∧
      ∀ p < msg.length - checksumSize, (setChecksum msg msg.length)[p]? = msg[p]? := by
  obtain ⟨body, cs, hbody, hcs⟩ : ∃ body cs, msg = body ++ cs ∧ cs.length = 4 :=
    ⟨msg.take (msg.length - 4), msg.drop (msg.length - 4), (List.take_append_drop _ _).symm, by rw [List.length_drop]; omega⟩
  have hl : msg.length = body.length + 4 := by rw [hbody, List.length_append, hcs]
  have hbody4 : 4 ∣ body.length := by omega
  obtain ⟨hok, hset⟩ := verifyChecksum_setChecksum hbody4 cs hcs
  rw [← hl, ← hbody] at hok hset
  refine ⟨hok, ?_, ?_⟩
  · rw [hset, List.length_append, length_leBytes, hl]
  · intro p hp
    have hp' : p < body.length := by
      rw [hl, checksumSize] at hp
      omega
    rw [hset, hbody, List.getElem?_append_left hp', List.getElem?_append_left hp']

end ErrorDetectionAux

open ErrorDetectionAux

/-- For messages of whole words, `set_checksum` makes the check pass and changes the last four bytes at most; and a message that passes
the check no longer does after any change within four consecutive bytes, at any alignment, the checksum's own bytes included. -/
theorem checksum_detects_windows (msg : List UInt8) (h4 : 4 ∣ msg.length) (hpos : 4 ≤ msg.length) :
    (verifyChecksum (setChecksum msg msg.length) msg.length = true ∧ (setChecksum msg msg.length).length = msg.length ∧
      ∀ p < msg.length - checksumSize, (setChecksum msg msg.length)[p]? = msg[p]?) ∧
    (verifyChecksum msg msg.length = true → ∀ msg' : List UInt8, msg'.length = msg.length → msg' ≠ msg →
      ∀ i, (∀ p, p < i ∨ i + 4 ≤ p → msg'[p]? = msg[p]?) → verifyChecksum msg' msg'.length = false) := by
  refine ⟨setChecksum_spec h4 hpos, ?_⟩
  intro hok msg' hl hne i hout
  rw [← Bool.not_eq_true]
  intro hok'
  exact hne (verifyChecksum_window h4 hpos hl hok hok' hout)

/-- Eight bytes, and a change that begins in the data and ends in the checksum. -/
theorem checksum_detects_windows_eightBytes :
    verifyChecksum (setChecksum [1, 2, 3, 4, 0, 0, 0, 0] 8) 8 = true ∧
      verifyChecksum [1, 2, 9, 9, 9, 9, 3, 4] 8 = false := by
  have hok : verifyChecksum [1, 2, 3, 4, 1, 2, 3, 4] 8 = true := by decide
  refine ⟨(checksum_detects_windows [1, 2, 3, 4, 0, 0, 0, 0] (by decide) (by decide)).1.1, ?_⟩
  refine (checksum_detects_windows [1, 2, 3, 4, 1, 2, 3, 4] (by decide) (by decide)).2 hok _ rfl (by decide) 2 ?_
  intro p hp
  rcases hp with hp | hp
  · interval_cases p <;> rfl
  · obtain ⟨q, rfl⟩ := Nat.exists_eq_add_of_le hp
    rw [Nat.add_comm]
    rfl

/-- Where the length is not a multiple of four, the data that is left over shares lanes with the checksum behind it. -/
example : verifyChecksum [7, 7, 0, 0, 0] 5 = true ∧ verifyChecksum [9, 9, 0, 0, 0] 5 = true := by decide

end MarketFeed
