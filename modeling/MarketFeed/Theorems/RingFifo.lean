import MarketFeed.Lemmas.RingInv

/-!
# The ring buffer is a bounded FIFO between two threads

Whatever the interleaving of the producer's and the consumer's steps, and also when the positions wrap.
-/

namespace MarketFeed

open RingInvAux

variable {c : Capacity}

namespace RingFifoAux

/-- The byte the producer stores next belongs behind the published bytes. -/
theorem noOverwrite {s : RingSys c} (h : RingInv s) : s.NoOverwrite := by
  intro src len free wp i hpc hi k hk
  have hprod := h.producer
  rw [hpc] at hprod
  obtain ⟨hsize, hwp, -, -⟩ := hprod
  have hroom := hsize.room
  have hlen := hsize.len_eq
  have hle := h.consumed_le
  rw [h.readable_eq] at hk
  have hslot : copySlot c wp len i = (s.accepted.length + i) % c.val := by
    rw [hwp, h.writePos, slot_ofNat, copySlot_eq hi (by omega)]
  rw [hslot, c.and_mask, h.readPos, ← UInt64.ofNat_add, slot_ofNat]
  exact (c.mod_ne (by omega) (by omega)).symm

end RingFifoAux

open RingFifoAux

/-- In every state of every interleaving: the bytes consumed are a prefix of the bytes accepted; the positions count the two,
modulo the wrap, and are at most a capacity apart; every `write` accepted the smaller of its length and the free space when it
loaded `read_pos_`; and the producer does not store into the slot of a byte that is published and not consumed. -/
theorem ring_fifo (es : List RingEvent) (s : RingSys c) (h : Run.exec RingSys.step (RingSys.init c) es = some s) :
    s.consumed <+: s.accepted ∧
      (s.ring.writePos = UInt64.ofNat s.accepted.length ∧ s.ring.readPos = UInt64.ofNat s.consumed.length ∧
        (s.ring.writePos - s.ring.readPos).toNat = s.accepted.length - s.consumed.length ∧
        s.accepted.length - s.consumed.length ≤ c.val) ∧
      (∀ r ∈ s.reports, r.returned = min r.src.length r.free) ∧ s.NoOverwrite := by
  have hinv : RingInv s := Run.exec_invariant (fun _ _ _ hi hs => hi.step hs) (RingInv.init c) h
  have hb := hinv.bounded
  exact ⟨hinv.consumed_prefix, ⟨hinv.writePos, hinv.readPos, hinv.readable_eq, by omega⟩, hinv.reports, noOverwrite hinv⟩

namespace RingFifoAux

/-- A ring of four bytes. -/
def four : Capacity := ⟨4, 2, by decide⟩

/-- Three bytes go through; then a `write` of five is cut to what is free, its copy wraps, and a `read` overtakes it halfway. -/
def wrapRun : List RingEvent :=
  [.producer (.write [1, 2, 3]), .producer .loadReadPos, .consumer (.call (.read 8)), .producer .loadWritePos,
    .producer .loadWritePos, .producer .storeByte, .producer .storeByte, .producer .storeByte, .consumer .loadReadPos,
    .producer .publish, .consumer .loadWritePos, .consumer .loadReadPos, .consumer .loadByte, .consumer .loadByte,
    .consumer .loadByte, .producer (.write [4, 5, 6, 7, 8]), .producer .loadWritePos, .consumer .publish,
    .producer .loadReadPos, .producer .loadWritePos, .producer .storeByte, .producer .storeByte,
    .consumer (.call .readable), .consumer .loadWritePos, .producer .storeByte, .producer .storeByte, .producer .publish,
    .consumer .loadReadPos, .consumer (.call (.peek 2)), .consumer .loadReadPos, .consumer .loadWritePos,
    .consumer .loadReadPos, .consumer .loadByte, .consumer .loadByte, .consumer (.consume 1), .producer (.write [9]),
    .producer .loadWritePos, .producer .loadReadPos, .producer .loadWritePos]

end RingFifoAux

/-- The run `wrapRun`, to which `ring_fifo` applies: it has consumed four of the seven bytes accepted and is about to store an
eighth. -/
theorem ring_fifo_wrapRun :
    ∃ s, Run.exec RingSys.step (RingSys.init four) wrapRun = some s ∧ s.consumed = [1, 2, 3, 4] ∧
      s.accepted = [1, 2, 3, 4, 5, 6, 7] ∧ s.consumed <+: s.accepted ∧ s.NoOverwrite := by
  have hrun : ∃ s, Run.exec RingSys.step (RingSys.init four) wrapRun = some s ∧ s.consumed = [1, 2, 3, 4] ∧
      s.accepted = [1, 2, 3, 4, 5, 6, 7] := by decide +kernel
  obtain ⟨s, hrun, hconsumed, haccepted⟩ := hrun
  exact ⟨s, hrun, hconsumed, haccepted, (ring_fifo wrapRun s hrun).1, (ring_fifo wrapRun s hrun).2.2.2⟩

end MarketFeed
