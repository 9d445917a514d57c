import MarketFeed.Lemmas.ResetInv
import MarketFeed.TickGenerator

/-!
# The occupancy of the ring while a third thread resets it

The two stores of `reset` are steps like any other, and the parse thread holds the decision of `process` from `readable` to `consume`.
A reset that falls in between leaves the read position ahead of the write position.
-/

namespace MarketFeed

open ResetInvAux

variable {c : Capacity}

/-- In every state of every interleaving in which each reset runs in one piece, with the other two threads holding nothing and the
write position at most a capacity: the positions are at most a capacity apart, `readable` has never returned more than that, and all
that `process` looked at are bytes that were written. -/
theorem occupancy_of_inOnePiece (es : List ResetEvent) (s : ResetSys c)
    (hok : Run.Along ResetSys.step ResetSys.InOnePiece (ResetSys.init c) es)
    (h : Run.exec ResetSys.step (ResetSys.init c) es = some s) :
    (s.sys.ring.writePos - s.sys.ring.readPos).toNat ≤ c.val ∧ (∀ n ∈ s.sys.readables, n.toNat ≤ c.val) ∧
      ∀ l ∈ s.looks, l.Written := by
  have hinv : ResetInv s := Run.exec_invariant_along (fun _ _ _ hi hstep hs => hi.step hstep hs) (ResetInv.init c) hok h
  exact ⟨hinv.bounded, hinv.readables, hinv.looks⟩

namespace OccupancyAux

def beat : Msg := .heartbeat 0 7 1000

/-- The network thread writes a heartbeat. -/
def writeBeat : List ResetEvent :=
  List.flatten [[.network (.write beat.bytes), .network .loadWritePos, .network .loadReadPos, .network .loadWritePos],
    List.replicate 20 (.network .storeByte), [.network .publish]]

/-- `process` asks for the bytes in the ring. -/
def askReadable : List ResetEvent := [.parse (.resume []), .parse .loadWritePos, .parse .loadReadPos]

/-- `process` peeks `n` bytes. -/
def peekBytes (n : Nat) : List ResetEvent :=
  List.flatten [[.parse (.resume []), .parse .loadWritePos, .parse .loadReadPos, .parse .loadReadPos],
    List.replicate n (.parse .loadByte)]

/-- `process` up to where it has peeked a whole heartbeat. -/
def peekBeat : List ResetEvent := List.flatten [askReadable, peekBytes 16, askReadable, peekBytes 20]

/-- The two stores of `reset`. -/
def resetStores : List ResetEvent := [.ui .storeReadPos, .ui .storeWritePos]

/-- A heartbeat is written and consumed, the ring is reset at the head of the loop, and another heartbeat is written and consumed. -/
def quietRun : List ResetEvent :=
  List.flatten [writeBeat, peekBeat, [.parse (.resume [])], resetStores, writeBeat, [.parse .loadWritePos, .parse .loadReadPos],
    peekBytes 16, askReadable, peekBytes 20, [.parse (.resume [])]]

/-- The ring is reset after `process` has peeked a heartbeat and before it consumes it; then `process` goes on. -/
def unluckyRun : List ResetEvent :=
  List.flatten [writeBeat, peekBeat, resetStores, askReadable, peekBytes 16, [.parse (.resume [])]]

end OccupancyAux

open OccupancyAux

/-- The run `quietRun` meets the hypotheses of `occupancy_of_inOnePiece`. -/
theorem occupancy_of_inOnePiece_quietRun :
    ∃ s, Run.exec ResetSys.step (ResetSys.init recvBufSize) quietRun = some s ∧ s.looks.length = 4 ∧
      (s.sys.ring.writePos - s.sys.ring.readPos).toNat ≤ recvBufSize.val ∧ ∀ l ∈ s.looks, l.Written := by
  have hrun : ∃ s, Run.exec ResetSys.step (ResetSys.init recvBufSize) quietRun = some s ∧ s.looks.length = 4 := by decide +kernel
  obtain ⟨s, hrun, hlooks⟩ := hrun
  have hspec := occupancy_of_inOnePiece quietRun s (by decide +kernel) hrun
  exact ⟨s, hrun, hlooks, hspec.1, hspec.2.2⟩

/-- In the run `unluckyRun` the difference of the positions wraps; `readable` returns it, and `process` looks at 16 bytes that were
never written. -/
theorem occupancy_wraps :
    ∃ s, Run.exec ResetSys.step (ResetSys.init recvBufSize) unluckyRun = some s ∧
      (s.sys.ring.writePos - s.sys.ring.readPos).toNat = 2 ^ 64 - 21 ∧
      ¬(∀ n ∈ s.sys.readables, n.toNat ≤ recvBufSize.val) ∧ ⟨16, List.replicate 16 0, []⟩ ∈ s.looks := by
  have hrun : ∃ s, Run.exec ResetSys.step (ResetSys.init recvBufSize) unluckyRun = some s ∧
      (s.sys.ring.writePos - s.sys.ring.readPos).toNat = 2 ^ 64 - 21 ∧ 18446744073709551596 ∈ s.sys.readables ∧
      ⟨16, List.replicate 16 0, []⟩ ∈ s.looks := by decide +kernel
  obtain ⟨s, hrun, hwraps, hmem, hlook⟩ := hrun
  exact ⟨s, hrun, hwraps, fun h => absurd (h _ hmem) (by decide), hlook⟩

end MarketFeed
