import MarketFeed.Lemmas.RingInv
import MarketFeed.ResetThreads

/-!
# The invariant of the three ring threads

As long as every reset runs in one piece and finds the other two threads holding nothing, the ring keeps the invariant of its two
threads, counted from the last reset on, and `process` finds the bytes that it knows to be there.
-/

namespace MarketFeed

variable {c : Capacity}

/-- The producer holds nothing it has loaded: it is outside `write`, or has not loaded a position yet. -/
def ProducerPc.HoldsNothing : ProducerPc → Prop
  | .idle => True
  | .sizing _ none none _ => True
  | _ => False

instance : DecidablePred ProducerPc.HoldsNothing := fun pc => by
  unfold ProducerPc.HoldsNothing
  split <;> infer_instance

/-- The parse thread holds nothing it has loaded: it is outside `process`, or at the head of its loop. -/
def ResetSys.AtHead (s : ResetSys c) : Prop :=
  s.stage = .outside ∧ s.sys.consumer = .idle ∨ s.stage = .needHeader ∧ s.sys.consumer = .sizing .readable none none

instance (s : ResetSys c) : Decidable s.AtHead := inferInstanceAs (Decidable (_ ∨ _))

/-- The condition on the steps: the first store of `reset` comes when the other two threads hold nothing and the write position is at
most a capacity, and the second store comes right after it. -/
def ResetSys.InOnePiece (s : ResetSys c) : ResetEvent → Prop
  | .ui .storeReadPos => s.sys.producer.HoldsNothing ∧ s.AtHead ∧ s.sys.ring.writePos.toNat ≤ c.val
  | .ui .storeWritePos => True
  | _ => s.ui = .idle

instance (s : ResetSys c) : (e : ResetEvent) → Decidable (s.InOnePiece e)
  | .ui .storeReadPos => inferInstanceAs (Decidable (_ ∧ _))
  | .ui .storeWritePos => isTrue trivial
  | .network _ => inferInstanceAs (Decidable (_ = _))
  | .parse _ => inferInstanceAs (Decidable (_ = _))

namespace ResetInvAux

open RingInvAux

/-! ## What process knows -/

/-- The number of bytes `process` knows to be in the ring when it makes the call. -/
def held : ProcessStage → Nat
  | .peekHeader => headerSize
  | .peekMessage msgType => messageSize msgType
  | _ => 0

/-- The call of the ring that `process` makes. -/
def ringCall : ProcessStage → Option ConsumerCall
  | .outside => none
  | .needHeader | .needMessage _ => some .readable
  | .peekHeader => some (.peek headerSize)
  | .peekMessage msgType => some (.peek (messageSize msgType))

/-- What `process` has when a call of the ring has returned: the number of `readable`, the bytes of `peek`. -/
def Returned (s : ResetSys c) : ProcessStage → Prop
  | .outside => True
  | .needHeader | .needMessage _ => s.sys.consumed.length + s.lastReadable.toNat ≤ s.sys.accepted.length
  | .peekHeader => s.dst.length = headerSize ∧ s.sys.consumed ++ s.dst <+: s.sys.accepted ∧ s.dst.length ≤ s.sys.peeked.length
  | .peekMessage msgType =>
    s.dst.length = messageSize msgType ∧ s.sys.consumed ++ s.dst <+: s.sys.accepted ∧ s.dst.length ≤ s.sys.peeked.length

/-- What `process` knows at its program counter. -/
def CallOk (s : ResetSys c) : ConsumerPc → Prop
  | .idle => Returned s s.stage
  | .sizing call wp _ =>
    ringCall s.stage = some call ∧
      ∀ w, wp = some w → ∃ k, s.sys.consumed.length + held s.stage ≤ k ∧ k ≤ s.sys.accepted.length ∧ w = UInt64.ofNat k
  | .locating call len => ringCall s.stage = some call ∧ call = .peek len ∧ len = held s.stage
  | .copying call len _ _ => ringCall s.stage = some call ∧ call = .peek len ∧ len = held s.stage
  | .consuming _ => False

/-- What `process` knows. -/
structure ProcessOk (s : ResetSys c) : Prop where
  room : s.sys.consumed.length + held s.stage ≤ s.sys.accepted.length
  call : CallOk s s.sys.consumer

/-- The invariant of the three threads. -/
structure ResetInv (s : ResetSys c) : Prop where
  readables : ∀ n ∈ s.sys.readables, n.toNat ≤ c.val
  looks : ∀ l ∈ s.looks, l.Written
  idle : s.ui = .idle → RingInv s.sys ∧ ProcessOk s
  between : s.ui = .betweenStores →
    s.sys.producer.HoldsNothing ∧ s.AtHead ∧ s.sys.ring.readPos = 0 ∧ s.sys.ring.writePos.toNat ≤ c.val

theorem ResetInv.init (c : Capacity) : ResetInv (ResetSys.init c) where
  readables := fun _ hn => absurd hn List.not_mem_nil
  looks := fun _ hl => absurd hl List.not_mem_nil
  idle := fun _ => ⟨RingInv.init c, Nat.zero_le _, trivial⟩
  between := fun h => by cases h

/-- A call that is made of bytes that are there is a `peek` of at least one. -/
theorem held_peek {stage : ProcessStage} {len : Nat} (h : ringCall stage = some (.peek len)) : len = held stage ∧ 0 < len := by
  cases stage <;> simp only [ringCall, Option.some.injEq, ConsumerCall.peek.injEq, reduceCtorEq] at h
  · exact ⟨h.symm, by rw [← h]; decide⟩
  · refine ⟨h.symm, ?_⟩
    rw [← h, messageSize, headerSize]
    omega

/-- `process` never calls `read`. -/
theorem ringCall_ne_read {stage : ProcessStage} {len : Nat} : ringCall stage ≠ some (.read len) := by
  intro h
  cases stage <;> cases h

/-! ## The network thread -/

/-- What a step of the producer leaves as it is; it accepts bytes if anything. -/
structure ProducerMoves (s t : RingSys c) : Prop where
  consumer : t.consumer = s.consumer
  peeked : t.peeked = s.peeked
  consumed : t.consumed = s.consumed
  readables : t.readables = s.readables
  accepted : s.accepted <+: t.accepted

theorem ProducerMoves.sized (s : RingSys c) (src : List UInt8) (wp rp : Option UInt64) (free : Nat) :
    ProducerMoves s (s.sized src wp rp free) := by
  unfold RingSys.sized
  split
  · dsimp only
    generalize (if src.length > _ then _ else src.length) = len
    split
    · exact ⟨rfl, rfl, rfl, rfl, by simp [RingSys.accepted]⟩
    · exact ⟨rfl, rfl, rfl, rfl, List.prefix_refl _⟩
  · exact ⟨rfl, rfl, rfl, rfl, List.prefix_refl _⟩

theorem producerStep_moves {s t : RingSys c} {e : ProducerEvent} (h : s.producerStep e = some t) : ProducerMoves s t := by
  cases e <;> simp only [RingSys.producerStep] at h
  case write src =>
    split at h <;> cases h
    exact ⟨rfl, rfl, rfl, rfl, List.prefix_refl _⟩
  case loadWritePos =>
    split at h <;> cases h
    · exact .sized _ _ _ _ _
    · exact ⟨rfl, rfl, rfl, rfl, List.prefix_refl _⟩
  case loadReadPos =>
    split at h <;> cases h
    exact .sized _ _ _ _ _
  case storeByte =>
    split at h
    · split at h <;> cases h
      exact ⟨rfl, rfl, rfl, rfl, List.prefix_refl _⟩
    · cases h
  case publish =>
    split at h
    · split at h <;> cases h
      refine ⟨rfl, rfl, rfl, rfl, ?_⟩
      simp only [RingSys.accepted, List.flatMap_append]
      exact List.prefix_append _ _
    · cases h

/-- Bytes accepted in the meantime do not disturb what `process` knows. -/
theorem ProcessOk.network {s : ResetSys c} {t : RingSys c} (h : ProcessOk s) (hmoves : ProducerMoves s.sys t) :
    ProcessOk { s with sys := t } := by
  obtain ⟨hcons, hpeek, hconsumed, hread, hacc⟩ := hmoves
  have hle := hacc.length_le
  obtain ⟨hroom, hcall⟩ := h
  refine ⟨?_, ?_⟩ <;> dsimp only
  · rw [hconsumed]
    exact hroom.trans hle
  · rw [hcons]
    cases hpc : s.sys.consumer <;> rw [hpc] at hcall
    case idle =>
      unfold CallOk at hcall ⊢
      cases hstage : s.stage <;> rw [hstage] at hcall <;>
        simp only [Returned, ResetSys.lastReadable, hconsumed, hread, hpeek] at hcall ⊢
      · exact hcall.trans hle
      · exact ⟨hcall.1, hcall.2.1.trans hacc, hcall.2.2⟩
      · exact hcall.trans hle
      · exact ⟨hcall.1, hcall.2.1.trans hacc, hcall.2.2⟩
    case sizing call wp rp =>
      refine ⟨hcall.1, fun w hw => ?_⟩
      obtain ⟨k, hk, hk', hwk⟩ := hcall.2 w hw
      exact ⟨k, by dsimp only; rw [hconsumed]; exact hk, hk'.trans hle, hwk⟩
    case locating => exact hcall
    case copying => exact hcall
    case consuming => exact hcall

/-! ## The parse thread inside a call -/

/-- The end of a `peek`. -/
theorem ProcessOk.peekDone {s : ResetSys c} {len : Nat} {dst : List UInt8}
    (hroom : s.sys.consumed.length + held s.stage ≤ s.sys.accepted.length) (hcall : ringCall s.stage = some (.peek len))
    (hlen : dst.length = len) (hdst : s.sys.consumed ++ dst <+: s.sys.accepted) :
    ProcessOk { s with sys := s.sys.peekDone (.peek len) dst, dst := dst } := by
  have hpeeked : dst.length ≤ (if s.sys.peeked.length ≤ dst.length then dst else s.sys.peeked).length := by
    split_ifs <;> omega
  have hreturned : ∀ stage, ringCall stage = some (.peek len) →
      Returned { s with sys := s.sys.peekDone (.peek len) dst, dst := dst } stage := by
    intro stage hstage
    have hheld := (held_peek hstage).1
    cases stage with
    | outside => cases hstage
    | needHeader => cases hstage
    | needMessage => cases hstage
    | peekHeader => exact ⟨hlen.trans hheld, hdst, hpeeked⟩
    | peekMessage => exact ⟨hlen.trans hheld, hdst, hpeeked⟩
  exact ⟨hroom, hreturned _ hcall⟩

/-- The load that completes `readable`, or the first of its two loads. -/
theorem ProcessOk.counted {s : ResetSys c} (hinv : RingInv s.sys)
    (hroom : s.sys.consumed.length + held s.stage ≤ s.sys.accepted.length) {call : ConsumerCall} {wp rp : Option UInt64}
    (hcall : ringCall s.stage = some call)
    (hwp : ∀ w, wp = some w → ∃ k, s.sys.consumed.length + held s.stage ≤ k ∧ k ≤ s.sys.accepted.length ∧ w = UInt64.ofNat k)
    (hrp : ∀ r, rp = some r → r = s.sys.ring.readPos) :
    ProcessOk { s with sys := s.sys.counted call wp rp } ∧
      ∀ n ∈ (s.sys.counted call wp rp).readables, n ∈ s.sys.readables ∨ n.toNat ≤ c.val := by
  have hc := c.lt_size
  have hb := hinv.bounded
  unfold RingSys.counted
  split
  · rename_i w r
    obtain ⟨k, hk, hk', hwk⟩ := hwp w rfl
    have havail : (w - r).toNat = k - s.sys.consumed.length := by
      rw [hwk, hrp r rfl, hinv.readPos]
      exact pos_sub (by omega) (by omega)
    cases call with
    | readable =>
      have hlast : s.sys.consumed.length + ((s.sys.readables ++ [w - r]).getLast?.getD 0).toNat ≤ s.sys.accepted.length := by
        rw [List.getLast?_concat, Option.getD_some, havail]
        omega
      have hreturned : ∀ stage, ringCall stage = some .readable →
          Returned { s with sys := { s.sys with consumer := .idle, readables := s.sys.readables ++ [w - r] } } stage := by
        intro stage hstage
        cases stage with
        | outside => cases hstage
        | needHeader => exact hlast
        | needMessage => exact hlast
        | peekHeader => cases hstage
        | peekMessage => cases hstage
      refine ⟨⟨hroom, hreturned _ hcall⟩, ?_⟩
      · intro n hn
        rcases List.mem_append.mp hn with hn | hn
        · exact Or.inl hn
        · rw [List.mem_singleton.mp hn, havail]
          exact Or.inr (by omega)
    | peek len =>
      obtain ⟨hlen, hpos⟩ := held_peek hcall
      have hcut : (if len > (w - r).toNat then (w - r).toNat else len) = len := if_neg (by omega)
      dsimp only
      rw [hcut, if_neg (by omega)]
      exact ⟨⟨hroom, hcall, rfl, hlen⟩, fun n hn => Or.inl hn⟩
    | read len => exact absurd hcall ringCall_ne_read
  · exact ⟨⟨hroom, hcall, hwp⟩, fun n hn => Or.inl hn⟩

/-- A load of the parse thread keeps what `process` knows. -/
theorem ProcessOk.load {s t : ResetSys c} (h : ProcessOk s) (hinv : RingInv s.sys) {e : ParseEvent} (he : ∀ u, e ≠ .resume u)
    (hs : s.parseStep e = some t) :
    ProcessOk t ∧ RingInv t.sys ∧ t.ui = s.ui ∧ t.looks = s.looks ∧
      ∀ n ∈ t.sys.readables, n ∈ s.sys.readables ∨ n.toNat ≤ c.val := by
  obtain ⟨hroom, hcall⟩ := h
  have hcons := hinv.consumer
  have hle := hinv.consumed_le
  cases e with
  | loadWritePos =>
    obtain ⟨u, hu, rfl⟩ := Option.map_eq_some_iff.mp hs
    have hinv' := hinv.consumerStep hu
    simp only [RingSys.consumerStep] at hu
    split at hu <;> rename_i hpc <;> cases hu
    rw [hpc] at hcall hcons
    have hnew : ∀ w, some s.sys.ring.writePos = some w →
        ∃ k, s.sys.consumed.length + held s.stage ≤ k ∧ k ≤ s.sys.accepted.length ∧ w = UInt64.ofNat k := by
      intro w hw
      rw [← Option.some.inj hw]
      exact ⟨_, hroom, Nat.le_refl _, hinv.writePos⟩
    obtain ⟨hok, hread⟩ := ProcessOk.counted hinv hroom hcall.1 hnew hcons.2
    exact ⟨hok, hinv', rfl, rfl, hread⟩
  | loadReadPos =>
    obtain ⟨u, hu, rfl⟩ := Option.map_eq_some_iff.mp hs
    have hinv' := hinv.consumerStep hu
    simp only [RingSys.consumerStep] at hu
    split at hu <;> rename_i hpc <;> cases hu
    · rw [hpc] at hcall hcons
      obtain ⟨hok, hread⟩ := ProcessOk.counted hinv hroom hcall.1 hcall.2 (fun r hr => (Option.some.inj hr).symm)
      exact ⟨hok, hinv', rfl, rfl, hread⟩
    · rw [hpc] at hcall
      exact ⟨⟨hroom, hcall⟩, hinv', rfl, rfl, fun n hn => Or.inl hn⟩
  | loadByte =>
    simp only [ResetSys.parseStep] at hs
    split at hs
    · rename_i call len rp dst hpc
      obtain ⟨u, hu, rfl⟩ := Option.map_eq_some_iff.mp hs
      have hinv' := hinv.consumerStep hu
      have hload := hinv.load hpc
      simp only [RingSys.consumerStep, hpc] at hu
      rw [hpc] at hcall
      obtain ⟨hring, rfl, hheld⟩ := hcall
      split at hu <;> rename_i hfull <;> cases hu
      · exact ⟨ProcessOk.peekDone hroom hring hfull hload, hinv', rfl, rfl, fun n hn => Or.inl hn⟩
      · exact ⟨⟨hroom, hring, rfl, hheld⟩, hinv', rfl, rfl, fun n hn => Or.inl hn⟩
    · cases hs
  | resume u => exact absurd rfl (he u)

/-! ## The parse thread between two calls -/

/-- `process` goes on to a call of the ring for bytes that are there. -/
theorem ProcessOk.callNext {s : ResetSys c} (hinv : RingInv s.sys) {stage : ProcessStage} {call : ConsumerCall}
    (hroom : s.sys.consumed.length + held stage ≤ s.sys.accepted.length) (hcall : ringCall stage = some call) :
    ProcessOk (s.call stage call) ∧ RingInv (s.call stage call).sys :=
  ⟨⟨hroom, hcall, nofun⟩, hinv.consumer_move ⟨nofun, nofun⟩⟩

/-- `process` finds too few bytes and returns. -/
theorem ProcessOk.breakOut {s : ResetSys c} (hle : s.sys.consumed.length ≤ s.sys.accepted.length) (hidle : s.sys.consumer = .idle) :
    ProcessOk { s with stage := .outside } := by
  refine ⟨hle, ?_⟩
  dsimp only
  rw [hidle]
  trivial

/-- `process` consumes bytes it has peeked and goes back to the head of its loop. -/
theorem ProcessOk.consumeNext {s : ResetSys c} (hinv : RingInv s.sys) (hidle : s.sys.consumer = .idle) {n : Nat}
    (hn : n ≤ s.sys.peeked.length) :
    ProcessOk ((s.consume n).call .needHeader .readable) ∧ RingInv ((s.consume n).call .needHeader .readable).sys := by
  have hstep : s.sys.consumerStep (.consume n) = some (s.consume n).sys := by
    simp only [RingSys.consumerStep, hidle, if_pos hn, ResetSys.consume]
  have hinv' := hinv.consumerStep hstep
  exact ProcessOk.callNext hinv' hinv'.consumed_le rfl

/-- Bytes copied from behind the consumed ones are written and waiting. -/
theorem look_written {s : ResetSys c} {wanted : Nat} (hlen : s.dst.length = wanted)
    (hdst : s.sys.consumed ++ s.dst <+: s.sys.accepted) : ∀ l ∈ (s.look wanted).looks, l ∈ s.looks ∨ l.Written := by
  intro l hl
  rcases List.mem_append.mp hl with hl | hl
  · exact Or.inl hl
  · rw [List.mem_singleton.mp hl]
    obtain ⟨rest, hrest⟩ := hdst
    refine Or.inr ⟨hlen, rest, ?_⟩
    rw [← hrest, List.append_assoc, List.drop_left]

/-- What `process` does between two calls keeps what it knows. -/
theorem ProcessOk.resume {s : ResetSys c} (h : ProcessOk s) (hinv : RingInv s.sys) (hidle : s.sys.consumer = .idle)
    (uninit : List UInt8) :
    (ProcessOk (s.resume uninit) ∧ RingInv (s.resume uninit).sys) ∧ (s.resume uninit).ui = s.ui ∧
      (s.resume uninit).sys.readables = s.sys.readables ∧ ∀ l ∈ (s.resume uninit).looks, l ∈ s.looks ∨ l.Written := by
  obtain ⟨hroom, hcall⟩ := h
  have hle := hinv.consumed_le
  rw [hidle] at hcall
  unfold ResetSys.resume
  cases hstage : s.stage <;> simp only [CallOk, hstage, Returned] at hcall <;> dsimp only
  case outside => exact ⟨ProcessOk.callNext hinv hle rfl, rfl, rfl, fun l hl => Or.inl hl⟩
  case needHeader =>
    split <;> rename_i hread
    · exact ⟨⟨ProcessOk.breakOut hle hidle, hinv⟩, rfl, rfl, fun l hl => Or.inl hl⟩
    · exact ⟨ProcessOk.callNext hinv (by simp only [held]; omega) rfl, rfl, rfl, fun l hl => Or.inl hl⟩
  case needMessage msgType =>
    split <;> rename_i hread
    · exact ⟨⟨ProcessOk.breakOut hle hidle, hinv⟩, rfl, rfl, fun l hl => Or.inl hl⟩
    · exact ⟨ProcessOk.callNext hinv (by simp only [held]; omega) rfl, rfl, rfl, fun l hl => Or.inl hl⟩
  case peekHeader =>
    obtain ⟨hlen, hdst, hpeeked⟩ := hcall
    have hone : 1 ≤ s.sys.peeked.length := by
      unfold headerSize at hlen
      omega
    split
    · exact ⟨ProcessOk.consumeNext (s := s.look headerSize) hinv hidle hone, rfl, rfl, look_written hlen hdst⟩
    · exact ⟨ProcessOk.callNext (s := s.look headerSize) hinv hle rfl, rfl, rfl, look_written hlen hdst⟩
  case peekMessage msgType =>
    obtain ⟨hlen, hdst, hpeeked⟩ := hcall
    have hone : 1 ≤ s.sys.peeked.length := by
      unfold messageSize headerSize at hlen
      omega
    let s' : ResetSys c := { s.look (messageSize msgType) with scratch := s.dst ++ s.scratch.drop s.dst.length }
    split
    · exact ⟨ProcessOk.consumeNext (s := s') hinv hidle hone, rfl, rfl, look_written hlen hdst⟩
    · exact ⟨ProcessOk.consumeNext (s := s') hinv hidle (hlen ▸ hpeeked), rfl, rfl, look_written hlen hdst⟩

/-! ## Resetting -/

/-- A ring whose positions are 0 starts afresh when both its threads hold nothing. -/
theorem ringInv_restart {s : RingSys c} (hprod : s.producer.HoldsNothing)
    (hcons : s.consumer = .idle ∨ s.consumer = .sizing .readable none none) (hread : s.ring.readPos = 0) :
    RingInv (c := c) { s with ring := { s.ring with writePos := 0 }, reports := [], peeked := [], consumed := [] } := by
  have hproducer : ∀ r : ByteRingBuffer c, ProducerOk r [] [] s.producer := by
    intro r
    unfold ProducerPc.HoldsNothing at hprod
    split at hprod <;> rename_i hpc
    · rw [hpc]
      trivial
    · rw [hpc]
      exact ⟨nofun, nofun⟩
    · exact hprod.elim
  have hconsumer : ∀ r : ByteRingBuffer c, ConsumerOk r [] [] s.consumer := by
    intro r
    rcases hcons with hpc | hpc <;> rw [hpc]
    · trivial
    · exact ⟨nofun, nofun⟩
  exact { writePos := rfl, readPos := hread, bounded := Nat.zero_le _, held := fun j _ hj => absurd hj (Nat.not_lt_zero j),
          peeked := List.prefix_refl _, reports := fun _ hr => absurd hr List.not_mem_nil, producer := hproducer _,
          consumer := hconsumer _ }

/-- Every step that meets the condition keeps the invariant. -/
theorem ResetInv.step {s t : ResetSys c} (h : ResetInv s) {e : ResetEvent} (hok : s.InOnePiece e) (hs : s.step e = some t) :
    ResetInv t := by
  cases e with
  | network e =>
    have hui : s.ui = .idle := hok
    obtain ⟨hinv, hproc⟩ := h.idle hui
    obtain ⟨u, hu, rfl⟩ := Option.map_eq_some_iff.mp hs
    have hmoves := producerStep_moves hu
    refine ⟨?_, h.looks, fun _ => ⟨hinv.producerStep hu, hproc.network hmoves⟩, fun hb => ?_⟩
    · dsimp only
      rw [hmoves.readables]
      exact h.readables
    · cases hui.symm.trans hb
  | parse e =>
    have hui : s.ui = .idle := hok
    obtain ⟨hinv, hproc⟩ := h.idle hui
    by_cases hresume : ∃ uninit, e = .resume uninit
    · obtain ⟨uninit, rfl⟩ := hresume
      simp only [ResetSys.step, ResetSys.parseStep] at hs
      split at hs <;> rename_i hidle <;> cases hs
      obtain ⟨⟨hproc', hinv'⟩, hui', hread, hlooks⟩ := hproc.resume hinv hidle uninit
      refine ⟨hread ▸ h.readables, fun l hl => (hlooks l hl).elim (h.looks l) id, fun _ => ⟨hinv', hproc'⟩, fun hb => ?_⟩
      rw [hui', hui] at hb
      cases hb
    · obtain ⟨hproc', hinv', hui', hlooks, hread⟩ := hproc.load hinv (fun u hu => hresume ⟨u, hu⟩) hs
      refine ⟨fun n hn => (hread n hn).elim (h.readables n) id, hlooks ▸ h.looks, fun _ => ⟨hinv', hproc'⟩, fun hb => ?_⟩
      rw [hui', hui] at hb
      cases hb
  | ui e =>
    cases e with
    | storeReadPos =>
      obtain ⟨hprod, hhead, hwrite⟩ := hok
      simp only [ResetSys.step, ResetSys.uiStep] at hs
      split at hs <;> cases hs
      exact ⟨h.readables, h.looks, fun hb => (by cases hb), fun _ => ⟨hprod, hhead, rfl, hwrite⟩⟩
    | storeWritePos =>
      simp only [ResetSys.step, ResetSys.uiStep] at hs
      split at hs <;> rename_i hui <;> cases hs
      obtain ⟨hprod, hhead, hread, -⟩ := h.between hui
      refine ⟨h.readables, h.looks, fun _ => ⟨?_, ?_⟩, fun hb => by cases hb⟩
      · exact ringInv_restart hprod (hhead.imp (·.2) (·.2)) hread
      · rcases hhead with ⟨hstage, hpc⟩ | ⟨hstage, hpc⟩
        · exact ⟨by simp [hstage, held], by dsimp only; rw [hpc]; simp only [CallOk, hstage, Returned]⟩
        · exact ⟨by simp [hstage, held], by dsimp only; rw [hpc]; exact ⟨by simp only [hstage, ringCall], fun _ hw => by cases hw⟩⟩

/-- The positions are at most a capacity apart. -/
theorem ResetInv.bounded {s : ResetSys c} (h : ResetInv s) : (s.sys.ring.writePos - s.sys.ring.readPos).toNat ≤ c.val := by
  cases hui : s.ui with
  | idle =>
    obtain ⟨hinv, -⟩ := h.idle hui
    have hread : (s.sys.ring.writePos - s.sys.ring.readPos).toNat = s.sys.accepted.length - s.sys.consumed.length :=
      hinv.readable_eq
    have hb := hinv.bounded
    omega
  | betweenStores =>
    obtain ⟨-, -, hread, hwrite⟩ := h.between hui
    rw [hread, UInt64.sub_zero]
    exact hwrite

end ResetInvAux

end MarketFeed
