import MarketFeed.PriceProcess

/-!
# The generator behind the tick loop

The tick thread with the generator of prices behind it is the tick loop that leaves the prices open: every run of the one is a run of
the other, message by message, so that what holds of every run of `TickLoop` holds of the code's generator (`tickThread_refines`). What
the generator puts into the messages, and what it keeps of the prices, whatever the operations on doubles are, is in the predicates
`Msg.Priced` and `Kept`.
-/

namespace MarketFeed

open Doubles

variable {D : Type} [Doubles D] {n : NumSymbols}

/-- The prices and quantities that a tick puts into a message: the ask of a quote is a tick size behind the bid at least, as far as the
comparison tells, or it is the bid plus a tick size; the quantity of a trade is bounded. -/
def Draw.Priced (D : Type) [Doubles D] : Draw → Prop
  | .quote payload => ∃ bid ask : D, payload.bidPrice = toBits bid ∧ payload.askPrice = toBits ask ∧
      (lt (ask - bid) tickSize = false ∨ ask = bid + tickSize)
  | .trade payload => payload.quantity ≤ 1000000

/-- A message that a tick has built from such a draw, or a heartbeat. -/
def Msg.Priced (D : Type) [Doubles D] : Msg → Prop
  | .quote _ _ _ payload => Draw.Priced D (.quote payload)
  | .trade _ _ _ payload => Draw.Priced D (.trade payload)
  | .heartbeat .. => True

/-- What a process is after any number of ticks: the parameters of the beginning, and a price that is the one of the beginning, rounded
or not, or has passed the floor guard. -/
structure Kept (start proc : SymbolProcess D) : Prop where
  symbolId : proc.symbolId = start.symbolId
  initialPrice : proc.initialPrice = start.initialPrice
  mu : proc.mu = start.mu
  sigma : proc.sigma = start.sigma
  spreadPct : proc.spreadPct = start.spreadPct
  price : proc.price = start.price ∨ proc.price = start.initialPrice ∨ lt proc.price 1.0 = false ∧ isFinite proc.price = true

theorem Kept.refl (p : SymbolProcess D) : Kept p p :=
  ⟨rfl, rfl, rfl, rfl, rfl, .inl rfl⟩

/-- A move keeps the parameters, and its guard the price. -/
theorem Kept.move {start p : SymbolProcess D} (h : Kept start p) (dt eps : D) : Kept start (p.move dt eps) := by
  refine ⟨h.symbolId, h.initialPrice, h.mu, h.sigma, h.spreadPct, ?_⟩
  simp only [SymbolProcess.move]
  split
  · exact .inr (.inl h.initialPrice)
  · rename_i hguard
    rw [Bool.or_eq_true, not_or, Bool.not_eq_true, Bool.not_eq_true', Bool.not_eq_false] at hguard
    exact .inr (.inr hguard)

/-- The tick thread is where the tick loop is, and what it has handed to `broadcast` are the bytes of the messages emitted there. -/
structure Refines (s : TickThread D) (l : TickLoop n) : Prop where
  running : s.running = l.running
  symbolIdx : s.symbolIdx = l.symbolIdx
  seq : s.seq = l.seq
  lastHeartbeatNs : s.lastHeartbeatNs = l.lastHeartbeatNs
  ticksGenerated : s.ticksGenerated = l.ticksGenerated
  pc : s.pc = l.pc
  broadcast : s.broadcast = l.emitted.map fun e => e.msg.bytes
  msgsBroadcast : s.msgsBroadcast = UInt64.ofNat l.emitted.length
  priced : ∀ e ∈ l.emitted, e.msg.Priced D

/-- Both go to another place. -/
theorem Refines.goTo {s : TickThread D} {l : TickLoop n} (h : Refines s l) (pc : TickLoopPc) :
    Refines { s with pc := pc } ({ l with pc := pc } : TickLoop n) :=
  { h with pc := rfl }

namespace GeneratorAux

/-! ## A tick -/

/-- The bytes of a message with this draw. -/
def drawBytes (symbolId : UInt16) (seqNum : UInt32) (nowNs : UInt64) : Draw → List UInt8
  | .quote payload => emitQuote symbolId seqNum nowNs payload
  | .trade payload => emitTrade symbolId seqNum nowNs payload

theorem nextNormal_processes {fuel : Nat} {g g' : TickGenerator D} {eps : D} (h : g.nextNormal fuel = some (eps, g')) :
    g'.processes = g.processes := by
  unfold TickGenerator.nextNormal at h
  split at h
  · cases h
    rfl
  · obtain ⟨⟨pair, rng⟩, -, h⟩ := Option.map_eq_some_iff.mp h
    cases h
    rfl

/-- The guard on the spread. -/
theorem ask_guard (bid ask : D) :
    lt ((if lt (ask - bid) tickSize then bid + tickSize else ask) - bid) tickSize = false ∨
      (if lt (ask - bid) tickSize then bid + tickSize else ask) = bid + tickSize := by
  cases hnarrow : lt (ask - bid) (tickSize : D) with
  | true => exact .inr rfl
  | false => exact .inl hnarrow

theorem generateQuote_spec {fuel : Nat} {g g' : TickGenerator D} {proc : SymbolProcess D} {eps : D} {seqNum : UInt32}
    {nowNs : UInt64} {msg : List UInt8} (h : g.generateQuote fuel proc eps seqNum nowNs = some (g', msg)) :
    g'.processes = g.processes ∧ ∃ draw, Draw.Priced D draw ∧ msg = drawBytes proc.symbolId seqNum nowNs draw := by
  unfold TickGenerator.generateQuote at h
  obtain ⟨⟨eps1, g1⟩, h1, h⟩ := Option.bind_eq_some_iff.mp h
  obtain ⟨⟨eps2, g2⟩, h2, h⟩ := Option.map_eq_some_iff.mp h
  cases h
  exact ⟨(nextNormal_processes h2).trans (nextNormal_processes h1), .quote _, ⟨_, _, rfl, rfl, ask_guard _ _⟩, rfl⟩

theorem generateTrade_spec {fuel : Nat} {g g' : TickGenerator D} {proc : SymbolProcess D} {eps : D} {seqNum : UInt32}
    {nowNs : UInt64} {msg : List UInt8} (h : g.generateTrade fuel proc eps seqNum nowNs = some (g', msg)) :
    g'.processes = g.processes ∧ ∃ draw, Draw.Priced D draw ∧ msg = drawBytes proc.symbolId seqNum nowNs draw := by
  unfold TickGenerator.generateTrade at h
  obtain ⟨⟨eps1, g1⟩, h1, h⟩ := Option.map_eq_some_iff.mp h
  cases h
  have hprocesses := nextNormal_processes h1
  refine ⟨hprocesses, .trade _, ?_, rfl⟩
  exact Std.min_le_right

/-- What a tick does: nothing for a symbol that is not there; otherwise it moves the process of the symbol, and no other, and builds one
message. -/
theorem generateTick_cases {fuel : Nat} {g g' : TickGenerator D} {symbolId : UInt16} {seqNum : UInt32} {nowNs : UInt64}
    {msgs : List (List UInt8)} (h : g.generateTick fuel symbolId seqNum nowNs = some (g', msgs)) :
    g.processes[symbolId.toNat]? = none ∧ g' = g ∧ msgs = [] ∨
      ∃ proc dt eps draw, g.processes[symbolId.toNat]? = some proc ∧
        g'.processes = g.processes.set symbolId.toNat (proc.move dt eps) ∧ Draw.Priced D draw ∧
        msgs = [drawBytes proc.symbolId seqNum nowNs draw] := by
  unfold TickGenerator.generateTick at h
  cases hproc : g.processes[symbolId.toNat]? with
  | none =>
    rw [hproc] at h
    cases h
    exact .inl ⟨rfl, rfl, rfl⟩
  | some proc =>
    rw [hproc] at h
    dsimp only at h
    generalize (1.0 / ofUInt64 (max 1 (g.tickRate / UInt32.ofNat g.processes.length)).toUInt64 : D) = dt at h
    obtain ⟨⟨eps, g1⟩, h1, h⟩ := Option.bind_eq_some_iff.mp h
    obtain ⟨⟨g2, msg⟩, h2, h⟩ := Option.map_eq_some_iff.mp h
    cases h
    have hspec : g2.processes = g1.processes.set symbolId.toNat (proc.move dt eps) ∧
        ∃ draw, Draw.Priced D draw ∧ msg = drawBytes (proc.move dt eps).symbolId seqNum nowNs draw := by
      split at h2
      · exact generateQuote_spec h2
      · exact generateTrade_spec h2
    obtain ⟨hprocesses, draw, hpriced, rfl⟩ := hspec
    rw [nextNormal_processes h1] at hprocesses
    exact .inr ⟨proc, dt, eps, draw, rfl, hprocesses, hpriced, rfl⟩

/-! ## The processes -/

/-- A tick keeps the processes. -/
theorem forall₂_kept {starts : List (SymbolProcess D)} {fuel : Nat} {g g' : TickGenerator D} {symbolId : UInt16} {seqNum : UInt32}
    {nowNs : UInt64} {msgs : List (List UInt8)} (hkept : List.Forall₂ Kept starts g.processes)
    (h : g.generateTick fuel symbolId seqNum nowNs = some (g', msgs)) : List.Forall₂ Kept starts g'.processes := by
  rcases generateTick_cases h with ⟨-, rfl, -⟩ | ⟨proc, dt, eps, draw, hproc, hprocesses, -, -⟩
  · exact hkept
  · rw [List.forall₂_iff_get] at hkept ⊢
    obtain ⟨hlen, hget⟩ := hkept
    rw [hprocesses]
    refine ⟨hlen.trans List.length_set.symm, ?_⟩
    intro i h1 h2
    have hold := hget i h1 (hlen ▸ h1)
    obtain ⟨hi, hprocEq⟩ := List.getElem?_eq_some_iff.mp hproc
    simp only [List.get_eq_getElem, List.getElem_set] at hold ⊢
    split
    · rename_i heq
      subst heq
      rw [hprocEq] at hold
      exact hold.move dt eps
    · exact hold

/-! ## The symbols -/

theorem length_newFrom (i k : Nat) (rng : Xoshiro256pp) : (SymbolProcess.newFrom (D := D) i k rng).length = k := by
  induction k generalizing i rng with
  | zero => rfl
  | succ k ih => simp [SymbolProcess.newFrom, ih]

/-- The process at an index is the one of the symbol. -/
theorem symbolId_newFrom {i k j : Nat} {rng : Xoshiro256pp} {p : SymbolProcess D} (h : (SymbolProcess.newFrom i k rng)[j]? = some p) :
    p.symbolId = UInt16.ofNat (i + j) := by
  induction k generalizing i j rng with
  | zero => simp [SymbolProcess.newFrom] at h
  | succ k ih =>
    cases j with
    | zero =>
      simp only [SymbolProcess.newFrom, List.getElem?_cons_zero, Option.some.injEq] at h
      rw [← h]
      rfl
    | succ j =>
      simp only [SymbolProcess.newFrom, List.getElem?_cons_succ] at h
      rw [ih h]
      congr 1
      omega

/-- The processes of the constructor. -/
def starts (D : Type) [Doubles D] (n : NumSymbols) (seed : UInt64) : List (SymbolProcess D) :=
  (TickGenerator.new n.val.toNat seed).processes

/-- The number of symbols is that of the exchange, and each symbol has kept its process. -/
structure HasSymbols (n : NumSymbols) (seed : UInt64) (s : TickThread D) : Prop where
  numSymbols : s.numSymbols = n.val
  kept : List.Forall₂ Kept (starts D n seed) s.tickGen.processes

theorem length_starts (n : NumSymbols) (seed : UInt64) : (starts D n seed).length = n.val.toNat := length_newFrom 0 _ _

/-- The process of a symbol. -/
theorem HasSymbols.symbolId {seed : UInt64} {s : TickThread D} (h : HasSymbols n seed s) {sym : UInt16} {p : SymbolProcess D}
    (hp : s.tickGen.processes[sym.toNat]? = some p) : p.symbolId = sym := by
  obtain ⟨hj, hget⟩ := List.getElem?_eq_some_iff.mp hp
  have hi : sym.toNat < (starts D n seed).length := h.kept.length_eq ▸ hj
  have hstart : (starts D n seed)[sym.toNat]? = some (starts D n seed)[sym.toNat] := List.getElem?_eq_getElem hi
  have hkept := (List.forall₂_iff_get.mp h.kept).2 sym.toNat hi hj
  simp only [List.get_eq_getElem] at hkept
  rw [← hget, hkept.symbolId, symbolId_newFrom hstart, Nat.zero_add, UInt16.ofNat_toNat]

/-- The message that the tick loop emits with a draw. -/
theorem generateTick_draw {sym : UInt16} (h : sym.toUInt32 < n.val) (seqNum : UInt32) (nowNs : UInt64) {draw : Draw}
    (hpriced : Draw.Priced D draw) :
    ∃ m, generateTick n sym seqNum nowNs draw = some m ∧ m.bytes = drawBytes sym seqNum nowNs draw ∧ m.Priced D := by
  unfold generateTick
  rw [dif_pos h]
  cases draw with
  | quote payload => exact ⟨_, rfl, rfl, hpriced⟩
  | trade payload => exact ⟨_, rfl, rfl, hpriced⟩

/-- One more message. -/
theorem priced_append {es : List Emitted} {e : Emitted} (h : ∀ a ∈ es, a.msg.Priced D) (he : e.msg.Priced D) :
    ∀ a ∈ es ++ [e], a.msg.Priced D := by
  intro a ha
  rcases List.mem_append.mp ha with ha | ha
  · exact h a ha
  · rw [List.mem_singleton] at ha
    rwa [ha]

theorem ofNat_length_append (es : List Emitted) (e : Emitted) :
    UInt64.ofNat (es ++ [e]).length = UInt64.ofNat es.length + UInt64.ofNat 1 := by
  rw [List.length_append, List.length_singleton, UInt64.ofNat_add]

/-- A tick of the thread is a tick of the loop, with the draw that the generator has made. -/
theorem tick_refines {seed : UInt64} {s s' : TickThread D} {l : TickLoop n} {fuel : Nat} {nowNs : UInt64} (hR : Refines s l)
    (hsyms : HasSymbols n seed s) (h : s.tick fuel nowNs = some s') :
    HasSymbols n seed s' ∧ ∃ draw, Refines s' (l.tick s.faultInjection draw nowNs) := by
  obtain ⟨⟨g', msgs⟩, hg, rfl⟩ := Option.map_eq_some_iff.mp h
  refine ⟨⟨hsyms.numSymbols, forall₂_kept hsyms.kept hg⟩, ?_⟩
  have hlt := ExchangeSimulatorAux.symbol_lt n s.symbolIdx
  rw [hsyms.numSymbols] at hg
  rcases generateTick_cases hg with ⟨hnone, -, -⟩ | ⟨proc, dt, eps, draw, hproc, -, hpriced, hmsgs⟩
  · -- the index is that of a symbol
    rw [List.getElem?_eq_none_iff, ← hsyms.kept.length_eq, length_starts] at hnone
    rw [UInt32.lt_iff_toNat_lt, UInt16.toNat_toUInt32] at hlt
    omega
  · obtain ⟨m, hm, hbytes, hmpriced⟩ := generateTick_draw hlt
      (if s.faultInjection && s.seq % 100 = 99 then s.seq + 2 else s.seq) nowNs hpriced
    rw [hsyms.symbolId hproc, ← hbytes] at hmsgs
    rw [hR.symbolIdx, hR.seq] at hm
    have hemitted : (l.tick s.faultInjection draw nowNs).emitted =
        l.emitted ++ [⟨s.faultInjection && l.seq % 100 = 99, m⟩] := by
      simp only [TickLoop.tick, hm]
      rfl
    refine ⟨draw, ⟨hR.running, ?_, ?_, hR.lastHeartbeatNs, ?_, hR.pc, ?_, ?_, ?_⟩⟩
    · exact congrArg (· + 1) hR.symbolIdx
    · simp only [TickLoop.tick, hR.seq]
    · exact congrArg (· + 1) hR.ticksGenerated
    · dsimp only [TickThread.callback]
      rw [hemitted, hmsgs, hR.broadcast, List.map_append]
      rfl
    · dsimp only [TickThread.callback]
      rw [hemitted, hmsgs, hR.msgsBroadcast, ofNat_length_append]
      rfl
    · rw [hemitted]
      exact priced_append hR.priced hmpriced

/-- The heartbeat of the thread is that of the loop. -/
theorem heartbeat_refines {s : TickThread D} {l : TickLoop n} (hR : Refines s l) (now nowNs : UInt64) :
    Refines (s.heartbeat now nowNs) (l.heartbeat now nowNs) := by
  unfold TickThread.heartbeat TickLoop.heartbeat
  rw [hR.lastHeartbeatNs]
  split
  · refine ⟨hR.running, hR.symbolIdx, ?_, rfl, hR.ticksGenerated, hR.pc, ?_, ?_, ?_⟩
    · exact congrArg (· + 1) hR.seq
    · dsimp only [TickThread.callback]
      rw [hR.broadcast, hR.seq, List.map_append]
      rfl
    · dsimp only [TickThread.callback]
      rw [hR.msgsBroadcast, ofNat_length_append]
      rfl
    · exact priced_append hR.priced trivial
  · exact hR

/-- A step of the thread is a step of the loop, or none where a setting is stored. -/
theorem step_refines {seed : UInt64} {s s' : TickThread D} {l : TickLoop n} {e : TickThreadEvent}
    (hR : Refines s l ∧ HasSymbols n seed s) (h : s.step e = some s') :
    ∃ fs l', Run.exec TickLoop.step l fs = some l' ∧ Refines s' l' ∧ HasSymbols n seed s' := by
  obtain ⟨hR, hsyms⟩ := hR
  cases e with
  | stop =>
    cases h
    exact ⟨[.stop], _, rfl, { hR with running := rfl }, ⟨hsyms.numSymbols, hsyms.kept⟩⟩
  | setTickRate tps =>
    cases h
    exact ⟨[], l, rfl, { hR with }, ⟨hsyms.numSymbols, hsyms.kept⟩⟩
  | enableFaultInjection enable =>
    cases h
    exact ⟨[], l, rfl, { hR with }, ⟨hsyms.numSymbols, hsyms.kept⟩⟩
  | batch =>
    simp only [TickThread.step] at h
    split at h
    · rename_i hpc
      obtain ⟨hrun, h⟩ := Option.ite_none_right_eq_some.mp h
      cases h
      refine ⟨[.batch s.tickRate], _, ?_, hR.goTo _, ⟨hsyms.numSymbols, hsyms.kept⟩⟩
      rw [hR.pc] at hpc
      rw [hR.running] at hrun
      simp only [Run.exec, TickLoop.step, hpc, hrun]
      rfl
    · cases h
  | tick fuel nowNs =>
    simp only [TickThread.step] at h
    split at h
    · rename_i b batchSize hpc
      obtain ⟨hgo, h⟩ := Option.ite_none_right_eq_some.mp h
      obtain ⟨s₁, hs₁, rfl⟩ := Option.map_eq_some_iff.mp h
      obtain ⟨hsyms', draw, hR'⟩ := tick_refines hR hsyms hs₁
      refine ⟨[.tick s.faultInjection draw nowNs], _, ?_, hR'.goTo _, ⟨hsyms'.numSymbols, hsyms'.kept⟩⟩
      rw [hR.pc] at hpc
      rw [hR.running] at hgo
      simp only [Run.exec, TickLoop.step, hpc]
      rw [if_pos hgo]
      rfl
    · cases h
  | endBatch now nowNs =>
    simp only [TickThread.step] at h
    split at h
    · rename_i b batchSize hpc
      obtain ⟨hgo, h⟩ := Option.ite_none_left_eq_some.mp h
      cases h
      have hR' := heartbeat_refines hR now nowNs
      have hsyms' : HasSymbols n seed (s.heartbeat now nowNs) := by
        unfold TickThread.heartbeat
        split <;> exact ⟨hsyms.numSymbols, hsyms.kept⟩
      refine ⟨[.endBatch now nowNs], _, ?_, hR'.goTo _, ⟨hsyms'.numSymbols, hsyms'.kept⟩⟩
      rw [hR.pc] at hpc
      rw [hR.running] at hgo
      simp only [Run.exec, TickLoop.step, hpc]
      rw [if_neg hgo]
      rfl
    · cases h

theorem init_refines (n : NumSymbols) (seed : UInt64) :
    Refines (TickThread.init (D := D) n.val.toNat seed) (TickLoop.init n) ∧
      HasSymbols n seed (TickThread.init (D := D) n.val.toNat seed) := by
  constructor
  · exact ⟨rfl, rfl, rfl, rfl, rfl, rfl, rfl, rfl, fun e he => by cases he⟩
  · refine ⟨?_, List.forall₂_same.mpr fun p _ => .refl p⟩
    have hlen := length_starts (D := D) n seed
    exact (congrArg UInt32.ofNat hlen).trans UInt32.ofNat_toNat

theorem simulates (seed : UInt64) :
    Run.Simulates (TickThread.step (D := D)) (fun _ _ => True) (TickLoop.step (n := n))
      fun s l => Refines s l ∧ HasSymbols n seed s where
  steps := by
    intro s e s' l hR _ hs
    exact step_refines hR hs

end GeneratorAux

open GeneratorAux

/-- Every run of the tick thread with the generator, from any seed, is a run of the tick loop that leaves prices open, at the same place
with the same counters, and hands the bytes of the same messages to `broadcast`, counting each; these are priced as `Msg.Priced` says.
Each symbol has kept its process. -/
theorem tickThread_refines (n : NumSymbols) (seed : UInt64) (es : List TickThreadEvent) (s : TickThread D)
    (h : Run.exec TickThread.step (TickThread.init n.val.toNat seed) es = some s) :
    (∃ fs l, Run.exec TickLoop.step (TickLoop.init n) fs = some l ∧ Refines s l) ∧
      List.Forall₂ Kept (TickGenerator.new n.val.toNat seed).processes s.tickGen.processes := by
  obtain ⟨fs, l, hexec, hR, hsyms⟩ := (simulates seed).exec (init_refines n seed) (Run.along_of_forall (fun _ _ => trivial) _) h
  exact ⟨⟨fs, l, hexec, hR⟩, hsyms.kept⟩

namespace GeneratorAux

/-- The first tick ends where the two loops in `box_muller` that it may come to do. -/
theorem generateTick_isSome {fuel : Nat} {g : TickGenerator D} {symbolId : UInt16} {u1 : UInt64} {rng : Xoshiro256pp}
    (hsymbol : symbolId.toNat < g.processes.length) (hspare : g.hasSpareNormal = false) (h1 : g.rng.drawU1 fuel = some (u1, rng))
    (h2 : (rng.uniform01.2.uniform01.2.drawU1 fuel).isSome) (seqNum : UInt32) (nowNs : UInt64) :
    (g.generateTick fuel symbolId seqNum nowNs).isSome := by
  have hproc : g.processes[symbolId.toNat]? = some g.processes[symbolId.toNat] := List.getElem?_eq_getElem hsymbol
  obtain ⟨x, h2⟩ := Option.isSome_iff_exists.mp h2
  simp only [TickGenerator.generateTick, hproc, TickGenerator.nextNormal, hspare, boxMuller, h1, Option.map_some, Option.bind_some,
    Bool.false_eq_true, if_false, Option.isSome_map]
  split
  · simp [TickGenerator.generateQuote, TickGenerator.nextNormal, TickGenerator.uniform01, boxMuller, h2]
  · simp [TickGenerator.generateTrade, TickGenerator.nextNormal, TickGenerator.uniform01]

/-- Two symbols. -/
def twoSymbols : NumSymbols := ⟨2, by decide, by decide⟩

/-- The exchange up to its first tick. -/
def toFirstTick : List TickThreadEvent := [.enableFaultInjection true, .setTickRate 50, .batch]

/-- The exchange before its first tick, on the doubles of Lean and with the seed of the constructor. -/
def beforeFirstTick : TickThread Float :=
  let s : TickThread Float := .init twoSymbols.val.toNat 0xdeadbeef12345678
  { s with faultInjection := true, tickRate := 50, tickGen := { s.tickGen with tickRate := 50 }, pc := .batch 0 1 }

end GeneratorAux

/-- A run to the first tick meets the hypothesis of `tickThread_refines`. -/
theorem tickThread_refines_firstTick :
    ∃ s : TickThread Float,
      Run.exec TickThread.step (TickThread.init twoSymbols.val.toNat 0xdeadbeef12345678) (toFirstTick ++ [.tick 1 5]) = some s ∧
      (∃ fs l, Run.exec TickLoop.step (TickLoop.init twoSymbols) fs = some l ∧ Refines s l) ∧
      List.Forall₂ Kept (TickGenerator.new twoSymbols.val.toNat 0xdeadbeef12345678).processes s.tickGen.processes := by
  have hbefore : Run.exec TickThread.step (TickThread.init (D := Float) twoSymbols.val.toNat 0xdeadbeef12345678) toFirstTick =
      some beforeFirstTick := rfl
  have hdraw : ∃ x, beforeFirstTick.tickGen.rng.drawU1 1 = some x ∧ (x.2.uniform01.2.uniform01.2.drawU1 1).isSome := by
    decide +kernel
  obtain ⟨⟨u1, rng⟩, h1, h2⟩ := hdraw
  have htick : (beforeFirstTick.tick 1 5).isSome := by
    rw [TickThread.tick, Option.isSome_map]
    exact generateTick_isSome (by decide) rfl h1 h2 _ _
  obtain ⟨t, ht⟩ := Option.isSome_iff_exists.mp htick
  have hstep : beforeFirstTick.step (.tick 1 5) = some { t with pc := .batch 1 1 } := by
    have hgo : beforeFirstTick.step (.tick 1 5) = (beforeFirstTick.tick 1 5).map fun s => { s with pc := .batch 1 1 } := rfl
    rw [hgo, ht]
    rfl
  have hlast : Run.exec TickThread.step beforeFirstTick [.tick 1 5] = some { t with pc := .batch 1 1 } :=
    Run.exec_cons_eq_some.mpr ⟨_, hstep, rfl⟩
  have hexec := (Run.exec_append hbefore).trans hlast
  exact ⟨_, hexec, tickThread_refines twoSymbols 0xdeadbeef12345678 _ _ hexec⟩

end MarketFeed
