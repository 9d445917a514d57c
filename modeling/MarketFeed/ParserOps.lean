import MarketFeed.Lemmas.ParserScan

/-!
# The parser's operations as whole calls

`feed`, `process` and `reset_stats`, each run to its end before the next is called. `process` as a function is the loop of
`Parser.iterate` until it breaks; each iteration takes at least one byte off the ring, so the bytes in the ring bound their number.
That this is what a call of `process` does in `ParserSys` is `process_call`.
-/

namespace MarketFeed

variable {c : Capacity}

namespace Parser

/-- The loop of `process`, with a bound on the iterations. -/
def processFrom : Nat → Parser c → Parser c × List Outcome
  | 0, p => (p, [])
  | k + 1, p =>
    match p.iterate with
    | none => (p, [])
    | some (p', o) => ((processFrom k p').1, o :: (processFrom k p').2)

/-- `process`: the parser after the call, and the outcome of each iteration. -/
def process (p : Parser c) : Parser c × List Outcome := processFrom p.ring.readable.toNat p

end Parser

/-- A call of one of the parser's operations. -/
inductive ParserOp where
  | feed (data : List UInt8) (recvTimeNs : UInt64)
  | process
  | resetStats
  deriving DecidableEq, Repr

/-- A call, and the outcomes of the iterations in it. -/
def Parser.call (p : Parser c) : ParserOp → Parser c × List Outcome
  | .feed data t => (p.feed data t, [])
  | .process => p.process
  | .resetStats => (p.resetStats, [])

/-- The parser with the outcomes of all its iterations so far. -/
structure ParserLog (c : Capacity) where
  parser : Parser c
  outcomes : List Outcome

namespace ParserLog

def init (c : Capacity) : ParserLog c := { parser := .fresh c, outcomes := [] }

/-- A call. Every operation can be called at any time. -/
def step (s : ParserLog c) (op : ParserOp) : Option (ParserLog c) :=
  some { parser := (s.parser.call op).1, outcomes := s.outcomes ++ (s.parser.call op).2 }

/-- The messages handed to the callback, in order. -/
def dispatched (s : ParserLog c) : List ParsedMessage := s.outcomes.filterMap Outcome.message

end ParserLog

/-! ## The loop ends -/

namespace ParserOpsAux

open ParserScanAux

/-- An iteration that does not break consumes at least one of the bytes there are. -/
theorem iterate_ring {p p' : Parser c} {o : Outcome} (h : p.iterate = some (p', o)) :
    ∃ n, 0 < n ∧ n ≤ p.ring.readable.toNat ∧ p'.ring = p.ring.consume n := by
  unfold Parser.iterate at h
  split at h
  · cases h
  · rename_i hheader
    unfold headerSize at hheader
    dsimp only at h
    split at h
    · cases h
      exact ⟨1, by omega, by omega, rfl⟩
    · split at h
      · cases h
      · rename_i htotal
        split at h
        · cases h
          exact ⟨1, by omega, by omega, rfl⟩
        · simp only [Option.some.injEq] at h
          have hring := congrArg (fun x => x.1.ring) h
          dsimp only at hring
          rw [(accept_keeps _ _ _).ring] at hring
          exact ⟨_, by unfold headerSize; omega, Nat.le_of_not_lt htotal, hring.symm⟩

theorem iterate_readable {p p' : Parser c} {o : Outcome} (h : p.iterate = some (p', o)) :
    p'.ring.readable.toNat < p.ring.readable.toNat := by
  obtain ⟨n, hpos, hle, hring⟩ := iterate_ring h
  have hsub : (p.ring.consume n).readable.toNat = p.ring.readable.toNat - n := ByteRingBuffer.readable_sub hle
  rw [hring, hsub]
  omega

/-- From the head of its loop, `process` returns when the iteration breaks. -/
theorem exec_break {s : ParserSys c} {count : Nat} (hpc : s.pc = .loop count) (hi : s.parser.iterate = none) {nows : List UInt64}
    (hn : nows.length = 1) :
    Run.exec ParserSys.step s (nows.map .iterate) = some { s with pc := .idle, returned := s.returned ++ [count] } := by
  obtain ⟨now, rfl⟩ := List.length_eq_one_iff.mp hn
  exact Run.exec_cons_eq_some.mpr ⟨_, ParserSys.step_iterate_none hpc hi now, rfl⟩

/-- From the head of its loop, `process` does what `processFrom` does, and returns. -/
theorem processFrom_exec {k : Nat} {p : Parser c} (hk : p.ring.readable.toNat ≤ k) (s : ParserSys c) (hp : s.parser = p)
    {count : Nat} (hpc : s.pc = .loop count) {nows : List UInt64} (hn : nows.length = (Parser.processFrom k p).2.length + 1) :
    ∃ s', Run.exec ParserSys.step s (nows.map .iterate) = some s' ∧ s'.pc = .idle ∧ s'.parser = (Parser.processFrom k p).1 ∧
      s'.outcomes = s.outcomes ++ (Parser.processFrom k p).2 ∧
      s'.returned = s.returned ++ [count + ((Parser.processFrom k p).2.map Outcome.counted).sum] := by
  induction k generalizing p s count nows with
  | zero =>
    -- nothing readable, so the first iteration breaks
    have hnone : p.iterate = none := by
      cases hi : p.iterate with
      | none => rfl
      | some x =>
        obtain ⟨p', o⟩ := x
        have hlt := iterate_readable hi
        omega
    exact ⟨_, exec_break hpc (hp ▸ hnone) hn, rfl, hp, (List.append_nil _).symm, rfl⟩
  | succ k ih =>
    unfold Parser.processFrom at hn ⊢
    cases hi : p.iterate with
    | none =>
      rw [hi] at hn
      exact ⟨_, exec_break hpc (hp ▸ hi) hn, rfl, hp, (List.append_nil _).symm, rfl⟩
    | some x =>
      obtain ⟨p', o⟩ := x
      rw [hi] at hn
      have hlt := iterate_readable hi
      cases nows with
      | nil => cases hn
      | cons now nows =>
        obtain ⟨s', hs', hidle, hparser, houtcomes, hreturned⟩ :=
          @ih p' (by omega) (s.iterated now count p' o) rfl (count + o.counted) rfl nows (by simpa using hn)
        refine ⟨s', Run.exec_cons_eq_some.mpr ⟨_, ParserSys.step_iterate_some hpc (hp ▸ hi) now, hs'⟩, hidle, hparser, ?_, ?_⟩
        · rw [houtcomes, ParserSys.iterated, List.append_assoc]
          rfl
        · rw [hreturned, List.map_cons, List.sum_cons, Nat.add_assoc]
          rfl

end ParserOpsAux

open ParserOpsAux

/-- A call of `process` with nothing fed in the meantime is `Parser.process`: it takes one iteration for each outcome and one that
breaks, and returns the number of messages counted. -/
theorem process_call (s : ParserSys c) (hidle : s.pc = .idle) {nows : List UInt64}
    (hn : nows.length = s.parser.process.2.length + 1) :
    ∃ s', Run.exec ParserSys.step s (processCall nows) = some s' ∧ s'.pc = .idle ∧ s'.parser = s.parser.process.1 ∧
      s'.outcomes = s.outcomes ++ s.parser.process.2 ∧
      s'.returned = s.returned ++ [(s.parser.process.2.map Outcome.counted).sum] := by
  have hcall : s.step .call = some { s with pc := .loop 0 } := by simp only [ParserSys.step, hidle]
  obtain ⟨s', hs', hpc, hparser, houtcomes, hreturned⟩ :=
    processFrom_exec (Nat.le_refl _) { s with pc := .loop 0 } rfl rfl hn
  refine ⟨s', Run.exec_cons_eq_some.mpr ⟨_, hcall, hs'⟩, hpc, hparser, houtcomes, ?_⟩
  rw [hreturned, Nat.zero_add]
  rfl

end MarketFeed
