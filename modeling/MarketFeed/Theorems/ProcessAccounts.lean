import MarketFeed.ParserOps

/-!
# `process` accounts for every byte

Every iteration of the loop of `process` either breaks or consumes what its outcome says, no more than is readable, so the loop ends.
What it consumed is made up of the messages it accepted and of the bytes it skipped, and the counters say how many of each there were.
-/

namespace MarketFeed

variable {c : Capacity}

namespace Outcome

/-- The message that the iteration accepted: it was consumed as a whole. -/
def window : Outcome → Option (List UInt8)
  | .unknownType _ => none
  | .checksumError _ _ => none
  | .outOfRange w => some w
  | .heartbeat w => some w
  | .dispatched w _ => some w

def isUnknownType : Outcome → Bool
  | .unknownType _ => true
  | _ => false

def isChecksumError : Outcome → Bool
  | .checksumError _ _ => true
  | _ => false

def isHeartbeat : Outcome → Bool
  | .heartbeat _ => true
  | _ => false

/-- The iteration accepted a message of the type. -/
def accepts (t : UInt16) (o : Outcome) : Bool :=
  match o.window with
  | some w => (MsgHeader.ofBytes w).msgType = t
  | none => false

/-- `expected_seq_` after the iteration. -/
def expectedAfter (expected : UInt32) (o : Outcome) : UInt32 :=
  match o.window with
  | some w => (MsgHeader.ofBytes w).seqNum + 1
  | none => expected

/-- An accepted message is complete and verified; it is out of range when it is a trade or a quote with a symbol id of 500 or more, and
a heartbeat when its type says so. -/
structure Sound (o : Outcome) (w : List UInt8) : Prop where
  length : w.length = totalSizeForType (MsgHeader.ofBytes w).msgType
  known : (MsgHeader.ofBytes w).msgType = msgTrade ∨ (MsgHeader.ofBytes w).msgType = msgQuote ∨
    (MsgHeader.ofBytes w).msgType = msgHeartbeat
  verified : verifyChecksum w w.length = true
  outOfRange : o = .outOfRange w ↔ (MsgHeader.ofBytes w).msgType ≠ msgHeartbeat ∧ (MsgHeader.ofBytes w).symbolId ≥ maxSymbols
  heartbeat : o = .heartbeat w ↔ (MsgHeader.ofBytes w).msgType = msgHeartbeat

end Outcome

/-- The bytes that the iterations consumed. -/
def consumed (os : List Outcome) : Nat := (os.map Outcome.size).sum

/-- What `process` returns after iterations with these outcomes: the calls of the callback and the heartbeats. -/
def counted (os : List Outcome) : Nat := (os.filterMap Outcome.message).length + os.countP Outcome.isHeartbeat

/-- What iterations with these outcomes have made of the parser. -/
structure Accounts (p p' : Parser c) (os : List Outcome) : Prop where
  consumed_le : consumed os ≤ p.ring.contents.length
  contents : p'.ring.contents = p.ring.contents.drop (consumed os)
  weighted : consumed os = 20 * os.countP (Outcome.accepts msgHeartbeat) + 32 * os.countP (Outcome.accepts msgTrade) +
    44 * os.countP (Outcome.accepts msgQuote) + os.countP Outcome.isChecksumError + os.countP Outcome.isUnknownType
  msgsParsed : p'.msgsParsed = p.msgsParsed + UInt64.ofNat (counted os)
  checksumErrors : p'.checksumErrors = p.checksumErrors + UInt64.ofNat (os.countP Outcome.isChecksumError)
  expectedSeq : p'.expectedSeq = os.foldl Outcome.expectedAfter p.expectedSeq
  sound : ∀ o ∈ os, ∀ w, o.window = some w → o.Sound w

/-- What `process` leaves in the ring: less than a header, or the front of a message of a known type that is not all there. -/
def Leftover (bs : List UInt8) : Prop :=
  bs.length < headerSize ∨
    totalSizeForType (MsgHeader.ofBytes bs).msgType ≠ 0 ∧ bs.length < totalSizeForType (MsgHeader.ofBytes bs).msgType

namespace ProcessAccountsAux

open ParserScanAux ParserOpsAux

/-- Where the loop breaks. -/
theorem leftover_of_wait {bs : List UInt8} (h : verdict bs = .wait) : Leftover bs := by
  by_cases hh : bs.length < headerSize
  · exact .inl hh
  · rw [ScanAux.verdict_of_header (by omega)] at h
    split_ifs at h with h0 hlt
    exact .inr ⟨h0, hlt⟩

theorem Leftover.length_le {bs : List UInt8} (h : Leftover bs) : bs.length ≤ 43 := by
  rcases h with h | ⟨-, h⟩
  · rw [headerSize] at h
    omega
  · rcases totalSizeForType_cases (MsgHeader.ofBytes bs).msgType with ht | ht | ht | ht <;> omega

/-- A type with a size is one of the three. -/
theorem known_of_size {t : UInt16} (h : totalSizeForType t ≠ 0) : t = msgTrade ∨ t = msgQuote ∨ t = msgHeartbeat := by
  unfold totalSizeForType at h
  split_ifs at h with h1 h2 h3
  · exact .inl h1
  · exact .inr (.inl h2)
  · exact .inr (.inr h3)
  · exact absurd rfl h

/-! ## Adding up outcomes -/

theorem counted_eq_sum (os : List Outcome) : counted os = (os.map Outcome.counted).sum := by
  induction os with
  | nil => rfl
  | cons o os ih =>
    rw [List.map_cons, List.sum_cons, ← ih]
    unfold counted
    rw [List.filterMap_cons, List.countP_cons]
    cases o <;> simp [Outcome.message, Outcome.isHeartbeat, Outcome.counted] <;> omega

theorem counted_append (os os' : List Outcome) : counted (os ++ os') = counted os + counted os' := by
  simp [counted_eq_sum]

theorem consumed_append (os os' : List Outcome) : consumed (os ++ os') = consumed os + consumed os' := by
  simp [consumed]

/-- The bytes of one outcome, by its kind. -/
theorem weighted_singleton {o : Outcome} (h : ∀ w, o.window = some w → o.Sound w) :
    consumed [o] = 20 * [o].countP (Outcome.accepts msgHeartbeat) + 32 * [o].countP (Outcome.accepts msgTrade) +
      44 * [o].countP (Outcome.accepts msgQuote) + [o].countP Outcome.isChecksumError + [o].countP Outcome.isUnknownType := by
  cases hw : o.window with
  | none => cases o <;> first | rfl | cases hw
  | some w =>
    have hsound := h w hw
    have hkind : o.size = w.length ∧ o.isChecksumError = false ∧ o.isUnknownType = false := by
      cases o <;> cases hw <;> exact ⟨rfl, rfl, rfl⟩
    obtain ⟨hsize, herror, hunknown⟩ := hkind
    have hlen := hsound.length
    rcases hsound.known with ht | ht | ht <;> rw [ht] at hlen <;>
      simp [consumed, List.countP_singleton, Outcome.accepts, hw, ht, hsize, herror, hunknown, hlen] <;> decide

/-- Every message counted is at least twenty bytes. -/
theorem counted_le {os : List Outcome} (h : ∀ o ∈ os, ∀ w, o.window = some w → o.Sound w) : 20 * counted os ≤ consumed os := by
  induction os with
  | nil => exact Nat.le_refl 0
  | cons o os ih =>
    have hrest := ih fun o' ho' => h o' (List.mem_cons_of_mem o ho')
    have hsize : ∀ w, o.Sound w → 20 ≤ w.length := by
      intro w hw
      have hlen := hw.length
      rcases hw.known with ht | ht | ht <;> rw [ht] at hlen <;> rw [hlen] <;> decide
    have ho : 20 * o.counted ≤ o.size := by
      cases o with
      | heartbeat w => exact hsize w (h _ List.mem_cons_self w rfl)
      | dispatched w pm => exact hsize w (h _ List.mem_cons_self w rfl)
      | unknownType t => exact Nat.zero_le _
      | checksumError a b => exact Nat.zero_le _
      | outOfRange w => exact Nat.zero_le _
    rw [counted_eq_sum] at hrest ⊢
    unfold consumed at hrest ⊢
    rw [List.map_cons, List.map_cons, List.sum_cons, List.sum_cons]
    omega

theorem Accounts.refl (p : Parser c) : Accounts p p [] where
  consumed_le := Nat.zero_le _
  contents := rfl
  weighted := rfl
  msgsParsed := (UInt64.add_zero _).symm
  checksumErrors := (UInt64.add_zero _).symm
  expectedSeq := rfl
  sound := fun _ ho => absurd ho List.not_mem_nil

theorem Accounts.trans {p p' p'' : Parser c} {os os' : List Outcome} (h : Accounts p p' os) (h' : Accounts p' p'' os') :
    Accounts p p'' (os ++ os') := by
  have hle := h'.consumed_le
  have hle' := h.consumed_le
  rw [h.contents, List.length_drop] at hle
  refine ⟨?_, ?_, ?_, ?_, ?_, ?_, ?_⟩
  · rw [consumed_append]
    omega
  · rw [h'.contents, h.contents, List.drop_drop, consumed_append]
  · rw [consumed_append, h.weighted, h'.weighted]
    simp only [List.countP_append]
    ring
  · rw [h'.msgsParsed, h.msgsParsed, counted_append, UInt64.ofNat_add, UInt64.add_assoc]
  · rw [h'.checksumErrors, h.checksumErrors, List.countP_append, UInt64.ofNat_add, UInt64.add_assoc]
  · rw [h'.expectedSeq, h.expectedSeq, List.foldl_append]
  · intro o ho
    rcases List.mem_append.mp ho with ho | ho
    · exact h.sound o ho
    · exact h'.sound o ho

/-! ## One iteration -/

/-- Phases 5 to 7 on a verified message of a known type. -/
theorem accept_accounts {p : Parser c} {w rest : List UInt8} (hs : p.scratch = w ++ rest)
    (hlen : w.length = totalSizeForType (MsgHeader.ofBytes w).msgType) (h0 : w.length ≠ 0)
    (hok : verifyChecksum w w.length = true) :
    ∃ p' o, p.accept (MsgHeader.ofBytes w) w.length = (p', o) ∧ o.window = some w ∧ o.Sound w ∧
      p'.msgsParsed = p.msgsParsed + UInt64.ofNat (counted [o]) ∧ p'.checksumErrors = p.checksumErrors ∧
      p'.expectedSeq = (MsgHeader.ofBytes w).seqNum + 1 ∧ p'.ring = p.ring := by
  have hwin : p.scratch.take w.length = w := by rw [hs, List.take_left]
  have hknown := known_of_size (hlen ▸ h0)
  obtain ⟨hparsed, herrors, hexpected⟩ := detectGap_counters p (MsgHeader.ofBytes w)
  have hring := (detectGap_keeps p (MsgHeader.ofBytes w)).ring
  unfold Parser.accept
  simp only [hwin]
  split_ifs with hrange hbeat
  · -- symbol out of range: nothing is counted
    refine ⟨_, _, rfl, rfl, ⟨hlen, hknown, hok, ?_, ?_⟩, ?_, herrors, hexpected, hring⟩
    · simp [hrange.1, hrange.2]
    · simp [hrange.2]
    · simp [counted_eq_sum, Outcome.counted, hparsed]
  · refine ⟨_, _, rfl, rfl, ⟨hlen, hknown, hok, ?_, ?_⟩, ?_, herrors, hexpected, hring⟩
    · simp [hbeat]
    · simp [hbeat]
    · simp [counted_eq_sum, Outcome.counted, hparsed]
  · refine ⟨_, _, rfl, rfl, ⟨hlen, hknown, hok, ?_, ?_⟩, ?_, herrors, hexpected, hring⟩
    · have hin : ¬maxSymbols ≤ (MsgHeader.ofBytes w).symbolId := fun hge => hrange ⟨hge, hbeat⟩
      simp [hin]
    · simp [hbeat]
    · simp [counted_eq_sum, Outcome.counted, hparsed]

/-- A byte is skipped. -/
theorem accounts_skip {p p' : Parser c} {o : Outcome} (hwindow : o.window = none) (hle : 1 ≤ p.ring.contents.length)
    (hcon : p'.ring.contents = p.ring.contents.drop 1) (hparsed : p'.msgsParsed = p.msgsParsed)
    (herrors : p'.checksumErrors = p.checksumErrors + UInt64.ofNat ([o].countP Outcome.isChecksumError))
    (hexpected : p'.expectedSeq = p.expectedSeq) : Accounts p p' [o] := by
  have hall : ∀ w, o.window = some w → o.Sound w := by
    intro w hw
    rw [hwindow] at hw
    cases hw
  have hone : consumed [o] = 1 ∧ counted [o] = 0 := by
    cases o <;> cases hwindow <;> exact ⟨rfl, rfl⟩
  obtain ⟨hsize, hcounted⟩ := hone
  refine ⟨?_, ?_, weighted_singleton hall, ?_, herrors, ?_, List.forall_mem_singleton.mpr hall⟩
  · rw [hsize]
    exact hle
  · rw [hsize]
    exact hcon
  · rw [hparsed, hcounted]
    exact (UInt64.add_zero _).symm
  · rw [hexpected, List.foldl_cons, List.foldl_nil, Outcome.expectedAfter, hwindow]

/-- A message is accepted. -/
theorem accounts_take {p p' : Parser c} {o : Outcome} {w : List UInt8} (hwindow : o.window = some w) (hsound : o.Sound w)
    (hle : w.length ≤ p.ring.contents.length) (hcon : p'.ring.contents = p.ring.contents.drop w.length)
    (hparsed : p'.msgsParsed = p.msgsParsed + UInt64.ofNat (counted [o])) (herrors : p'.checksumErrors = p.checksumErrors)
    (hexpected : p'.expectedSeq = (MsgHeader.ofBytes w).seqNum + 1) : Accounts p p' [o] := by
  have hall : ∀ u, o.window = some u → o.Sound u := by
    intro u hu
    rw [hwindow] at hu
    cases hu
    exact hsound
  have hkind : consumed [o] = w.length ∧ [o].countP Outcome.isChecksumError = 0 := by
    unfold consumed
    cases o <;> cases hwindow <;> exact ⟨Nat.add_zero _, rfl⟩
  obtain ⟨hsize, hnoError⟩ := hkind
  refine ⟨?_, ?_, weighted_singleton hall, hparsed, ?_, ?_, List.forall_mem_singleton.mpr hall⟩
  · rw [hsize]
    exact hle
  · rw [hsize]
    exact hcon
  · rw [herrors, hnoError]
    exact (UInt64.add_zero _).symm
  · rw [hexpected, List.foldl_cons, List.foldl_nil, Outcome.expectedAfter, hwindow]

/-- The message that the scan takes has the header that it was taken for. -/
theorem header_take {bs : List UInt8} {n : Nat} (hv : verdict bs = .take n) :
    (bs.take n).length = n ∧ MsgHeader.ofBytes (bs.take n) = MsgHeader.ofBytes bs := by
  obtain ⟨-, hle, htype, h0, -⟩ := ScanAux.verdict_take hv
  have hlen : (bs.take n).length = n := List.length_take_of_le hle
  have h16 : headerSize ≤ (bs.take n).length := by
    rw [hlen]
    rcases totalSizeForType_cases (MsgHeader.ofBytes bs).msgType with ht | ht | ht | ht <;> simp only [headerSize] <;> omega
  refine ⟨hlen, ?_⟩
  conv_rhs => rw [← List.take_append_drop n bs]
  rw [MsgHeader.ofBytes_append _ h16]

/-- An iteration that goes on accounts for what it consumed. -/
theorem iterate_accounts {p p' : Parser c} {o : Outcome} (hb : p.ring.Bounded) (h : p.iterate = some (p', o)) :
    Accounts p p' [o] ∧ p'.ring.Bounded := by
  rw [iterate_eq hb] at h
  dsimp only at h
  cases hv : verdict p.ring.contents with
  | wait =>
    rw [hv] at h
    cases h
  | skip why =>
    have hne : verdict p.ring.contents ≠ .wait := by simp [hv]
    have hheader := ScanAux.header_of_ne_wait hne
    rw [headerSize] at hheader
    have hle : 1 ≤ p.ring.contents.length := by omega
    obtain ⟨hcon, hbd⟩ := ByteRingBuffer.consume_spec hb hle
    rw [hv] at h
    cases why with
    | unknownType =>
      cases h
      exact ⟨accounts_skip rfl hle hcon rfl (UInt64.add_zero _).symm rfl, hbd⟩
    | badChecksum =>
      cases h
      exact ⟨accounts_skip rfl hle hcon rfl rfl rfl, hbd⟩
  | take n =>
    obtain ⟨-, hle, htype, h0, hok⟩ := ScanAux.verdict_take hv
    obtain ⟨hlen, hhdr⟩ := header_take hv
    obtain ⟨hcon, hbd⟩ := ByteRingBuffer.consume_spec hb hle
    rw [hv] at h
    dsimp only at h
    obtain ⟨w, hw⟩ : ∃ w, p.ring.contents.take n = w := ⟨_, rfl⟩
    rw [hw] at hlen hhdr hok
    subst hlen
    rw [← hhdr] at htype h
    obtain ⟨q, o', hq, hwindow, hsound, hparsed, herrors, hexpected, hring⟩ := accept_accounts
      (p := { peeked p w.length with ring := p.ring.consume w.length }) (by simp only [peeked, hw]; rfl) htype.symm h0 hok
    rw [hq] at h
    cases h
    refine ⟨accounts_take hwindow hsound hle ?_ hparsed herrors hexpected, ?_⟩
    · rw [hring]
      exact hcon
    · rw [hring]
      exact hbd

/-- An iteration that breaks waits for more. -/
theorem wait_of_iterate_none {p : Parser c} (hb : p.ring.Bounded) (h : p.iterate = none) : verdict p.ring.contents = .wait := by
  rw [iterate_eq hb] at h
  dsimp only at h
  cases hv : verdict p.ring.contents with
  | wait => rfl
  | skip why =>
    rw [hv] at h
    cases why <;> cases h
  | take n =>
    rw [hv] at h
    cases h

/-! ## The whole call -/

/-- The first iterations of a call. -/
theorem processFrom_accounts (k : Nat) {p : Parser c} (hb : p.ring.Bounded) :
    Accounts p (Parser.processFrom k p).1 (Parser.processFrom k p).2 ∧ (Parser.processFrom k p).1.ring.Bounded := by
  induction k generalizing p with
  | zero => exact ⟨Accounts.refl p, hb⟩
  | succ k ih =>
    unfold Parser.processFrom
    cases hi : p.iterate with
    | none => exact ⟨Accounts.refl p, hb⟩
    | some x =>
      obtain ⟨p', o⟩ := x
      obtain ⟨hstep, hb'⟩ := iterate_accounts hb hi
      obtain ⟨hrest, hb''⟩ := ih hb'
      exact ⟨Accounts.trans hstep hrest, hb''⟩

/-- Fewer iterations have the first of the outcomes. -/
theorem processFrom_take {k n : Nat} (h : k ≤ n) (p : Parser c) :
    (Parser.processFrom k p).2 = (Parser.processFrom n p).2.take k := by
  induction k generalizing n p with
  | zero => rfl
  | succ k ih =>
    obtain ⟨m, rfl⟩ : ∃ m, n = m + 1 := ⟨n - 1, by omega⟩
    unfold Parser.processFrom
    cases hi : p.iterate with
    | none => rfl
    | some x =>
      obtain ⟨p', o⟩ := x
      dsimp only
      rw [List.take_succ_cons, ih (n := m) (by omega)]

theorem length_processFrom_le (k : Nat) (p : Parser c) : (Parser.processFrom k p).2.length ≤ k := by
  have htake := congrArg List.length (processFrom_take (Nat.le_refl k) p)
  rw [List.length_take] at htake
  omega

/-- Once the bytes in the ring bound the iterations, the loop has come to its break. -/
theorem processFrom_breaks {k : Nat} {p : Parser c} (hk : p.ring.readable.toNat ≤ k) : (Parser.processFrom k p).1.iterate = none := by
  induction k generalizing p with
  | zero =>
    cases hi : p.iterate with
    | none => exact hi
    | some x =>
      obtain ⟨p', o⟩ := x
      have hlt := iterate_readable hi
      omega
  | succ k ih =>
    unfold Parser.processFrom
    cases hi : p.iterate with
    | none => exact hi
    | some x =>
      obtain ⟨p', o⟩ := x
      have hlt := iterate_readable hi
      exact ih (by omega)

/-- From the head of the loop, as many iterations as there are outcomes. -/
theorem exec_iterates {nows : List UInt64} {s : ParserSys c} {count : Nat} (hpc : s.pc = .loop count)
    (hn : nows.length = (Parser.processFrom nows.length s.parser).2.length) :
    ∃ t, Run.exec ParserSys.step s (nows.map .iterate) = some t ∧ t.parser = (Parser.processFrom nows.length s.parser).1 ∧
      t.outcomes = s.outcomes ++ (Parser.processFrom nows.length s.parser).2 := by
  induction nows generalizing s count with
  | nil => exact ⟨s, rfl, rfl, (List.append_nil _).symm⟩
  | cons now nows ih =>
    simp only [List.length_cons] at hn ⊢
    unfold Parser.processFrom at hn ⊢
    cases hi : s.parser.iterate with
    | none =>
      rw [hi] at hn
      cases hn
    | some x =>
      obtain ⟨p', o⟩ := x
      rw [hi] at hn
      have hstep := ParserSys.step_iterate_some hpc hi now
      have hrest : nows.length = (Parser.processFrom nows.length p').2.length := by simpa using hn
      obtain ⟨t, ht, hparser, houtcomes⟩ := ih (s := s.iterated now count p' o) rfl hrest
      refine ⟨t, Run.exec_cons_eq_some.mpr ⟨_, hstep, ht⟩, hparser, ?_⟩
      rw [houtcomes, ParserSys.iterated, List.append_assoc]
      rfl

end ProcessAccountsAux

open ProcessAccountsAux ParserOpsAux ParserScanAux

/-- A call of `process` with nothing fed in the meantime, from any state of the parser and any contents of the ring. It returns, after
one iteration for each outcome and one that breaks, whatever the clock reads; at every point it has consumed no more than was readable,
all of it accounted for (`Accounts`). What is left is not a whole message (`Leftover`), at most 43 bytes. It returns the number of calls
of the callback and of heartbeats, which is what `msgs_parsed_` has gone up by, and small enough for an `int` with the ring's 8 MB. -/
theorem process_accounts (s : ParserSys c) (hidle : s.pc = .idle) (hb : s.parser.ring.Bounded) :
    ∃ os : List Outcome,
      (∀ nows : List UInt64, nows.length ≤ os.length → ∃ t, Run.exec ParserSys.step s (processCall nows) = some t ∧
        t.outcomes = s.outcomes ++ os.take nows.length ∧ Accounts s.parser t.parser (os.take nows.length)) ∧
      ∀ nows : List UInt64, nows.length = os.length + 1 → ∃ t, Run.exec ParserSys.step s (processCall nows) = some t ∧
        t.pc = .idle ∧ t.outcomes = s.outcomes ++ os ∧ Accounts s.parser t.parser os ∧
        Leftover t.parser.ring.contents ∧ t.parser.ring.contents.length ≤ 43 ∧
        t.returned = s.returned ++ [counted os] ∧ (t.parser.msgsParsed - s.parser.msgsParsed).toNat = counted os ∧
        20 * counted os ≤ c.val := by
  obtain ⟨haccounts, hb'⟩ := processFrom_accounts s.parser.ring.readable.toNat hb
  refine ⟨s.parser.process.2, ?_, ?_⟩
  · intro nows hn
    have hcall : s.step .call = some { s with pc := .loop 0 } := by simp only [ParserSys.step, hidle]
    have hbound : s.parser.process.2.length ≤ s.parser.ring.readable.toNat := length_processFrom_le _ s.parser
    have htake := processFrom_take (Nat.le_trans hn hbound) s.parser
    have hlen : nows.length = (Parser.processFrom nows.length s.parser).2.length := by
      rw [htake, List.length_take]
      exact (Nat.min_eq_left hn).symm
    obtain ⟨t, ht, hparser, houtcomes⟩ := exec_iterates (s := { s with pc := .loop 0 }) rfl hlen
    refine ⟨t, Run.exec_cons_eq_some.mpr ⟨_, hcall, ht⟩, ?_, ?_⟩
    · rw [houtcomes, htake]
      rfl
    · have hfirst := (processFrom_accounts nows.length hb).1
      rw [htake] at hfirst
      rw [hparser]
      exact hfirst
  · intro nows hn
    obtain ⟨t, ht, hpc, hparser, houtcomes, hreturned⟩ := process_call s hidle hn
    have hle := haccounts.consumed_le
    have hcount := counted_le haccounts.sound
    have hbytes : s.parser.ring.contents.length ≤ c.val := by
      rw [ByteRingBuffer.length_contents]
      exact hb
    have hc := c.lt_size
    have hleft : Leftover t.parser.ring.contents := by
      rw [hparser]
      exact leftover_of_wait (wait_of_iterate_none hb' (processFrom_breaks (Nat.le_refl _)))
    refine ⟨t, ht, hpc, houtcomes, ?_, hleft, Leftover.length_le hleft, ?_, ?_, ?_⟩
    · rw [hparser]
      exact haccounts
    · rw [hreturned, ← counted_eq_sum]
    · rw [hparser, Parser.process, haccounts.msgsParsed, UInt64.add_comm, UInt64.add_sub_cancel]
      exact UInt64.toNat_ofNat_of_lt' (by simp only [UInt64.size]; omega)
    · exact Nat.le_trans hcount (Nat.le_trans hle hbytes)

namespace ProcessAccountsAux

/-- A stray byte and a heartbeat, in a ring whose positions are about to wrap. -/
def wrappingState : ParserSys recvBufSize :=
  { ParserSys.init recvBufSize with
    parser := { Parser.fresh recvBufSize with
      ring := (ByteRingBuffer.write { buf := fun _ => 0, writePos := 0xFFFFFFFFFFFFFFFF, readPos := 0xFFFFFFFFFFFFFFFF }
        [9, 3, 0, 7, 0, 0, 0, 0, 0, 0, 0, 0, 0, 0, 0, 0, 0, 3, 0, 7, 0]).1 } }

end ProcessAccountsAux

/-- The state `wrappingState` meets the hypotheses of `process_accounts`. -/
theorem process_accounts_wrappingState :
    ∃ os t, Run.exec ParserSys.step wrappingState (processCall (List.replicate (os.length + 1) 0)) = some t ∧
      Accounts wrappingState.parser t.parser os ∧ Leftover t.parser.ring.contents ∧ t.returned = [counted os] := by
  have hb : wrappingState.parser.ring.Bounded := (ByteRingBuffer.write_spec (Nat.zero_le _) _).2.2
  obtain ⟨os, -, hall⟩ := process_accounts wrappingState rfl hb
  obtain ⟨t, ht, -, -, haccounts, hleft, -, hreturned, -⟩ := hall (List.replicate (os.length + 1) 0) List.length_replicate
  exact ⟨os, t, ht, haccounts, hleft, hreturned⟩

end MarketFeed
