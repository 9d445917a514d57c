import MarketFeed.FeedHandler

/-!
# The flags of the connection

`connected_` and `reconnect_pending_` are changed by the network thread alone. At the points between its operations one of them holds,
unless the handler has been stopped; inside an operation the point says which.
-/

namespace MarketFeed

namespace ConnectionFlagsAux

/-- Never both flags; and one of them, while the handler is running. -/
def Settled (s : FeedHandler) : Prop :=
  (s.connected = true → s.reconnectPending = false) ∧
    (s.running = true → s.connected = false → s.reconnectPending = true)

/-- The flags at each point of the network thread. -/
def FlagsOk (s : FeedHandler) : NetworkPoint → Prop
  | .connect _ | .storeConnected _ | .connectFailed _ => s.connected = false ∧ s.reconnectPending = false
  | .resetPolicy _ => s.connected = true ∧ s.reconnectPending = false
  | .closeSocket _ | .loadRunning _ | .storePending _ => s.connected = false ∧ s.reconnectPending = false
  | .signal _ => s.connected = false ∧ s.reconnectPending = true
  | .head | .epollWait | .events _ | .exchangePending _ | .drain _ => Settled s
  | .exchangeConnected _ | .loadConnected | .checkTimeout => Settled s
  | .finished => True

/-- Where `do_connect` and `on_disconnect` return to, the flags are settled. -/
theorem flagsOk_point {s : FeedHandler} (h : Settled s) (k : Resume) : FlagsOk s k.point := by
  cases k <;> exact h

/-- They are when the handler is connected, -/
theorem settled_connected {s : FeedHandler} (hc : s.connected = true) (hp : s.reconnectPending = false) : Settled s := by
  simp [Settled, hc, hp]

/-- when it is not and a reconnect is pending, -/
theorem settled_pending {s : FeedHandler} (hc : s.connected = false) (hp : s.reconnectPending = true) : Settled s := by
  simp [Settled, hc, hp]

/-- and when it has been stopped. -/
theorem settled_stopped {s : FeedHandler} (hr : s.running = false) (hc : s.connected = false) : Settled s := by
  simp [Settled, hr, hc]

/-- What a step of the other threads or of the peer leaves to the network thread. -/
structure LeavesNetwork (s t : FeedHandler) : Prop where
  network : t.network = s.network
  connected : t.connected = s.connected
  pending : t.reconnectPending = s.reconnectPending
  ended : t.ended = s.ended
  running : t.running = true → s.running = true

/-- A step of the reconnect thread leaves the network thread, its flags and the socket. -/
theorem reconnectStep_leaves {s t : FeedHandler} {e : ReconnectEvent} (hs : s.reconnectStep e = some t) :
    LeavesNetwork s t ∧ t.socket = s.socket := by
  cases e with
  | step =>
    simp only [FeedHandler.reconnectStep] at hs
    split at hs <;> cases hs
    case h_4 => exact ⟨⟨rfl, rfl, rfl, rfl, nofun⟩, rfl⟩
    all_goals exact ⟨⟨rfl, rfl, rfl, rfl, id⟩, rfl⟩
  | delay rand =>
    simp only [FeedHandler.reconnectStep] at hs
    split at hs <;> cases hs
    exact ⟨⟨rfl, rfl, rfl, rfl, id⟩, rfl⟩

/-- So does a step of `stop`. -/
theorem stopStep_leaves (s : FeedHandler) : LeavesNetwork s s.stopStep ∧ s.stopStep.socket = s.socket := by
  unfold FeedHandler.stopStep
  split
  · exact ⟨⟨rfl, rfl, rfl, rfl, nofun⟩, rfl⟩
  · exact ⟨⟨rfl, rfl, rfl, rfl, id⟩, rfl⟩

/-- What a step of the peer does: it needs a connection without a FIN. -/
theorem peerStep_cases {s t : FeedHandler} {e : PeerEvent} (hs : s.peerStep e = some t) :
    s.socket.isOpen = true ∧ s.socket.fin = false ∧
      ((∃ bytes, t = { s with
          socket := { s.socket with sent := s.socket.sent ++ bytes, queue := s.socket.queue ++ bytes, fresh := true } }) ∨
        t = { s with socket := { s.socket with fin := true } }) := by
  unfold FeedHandler.peerStep at hs
  split at hs
  · rename_i h
    cases e with
    | arrive bytes =>
      dsimp only at hs
      split at hs <;> cases hs
      exact ⟨h.1, h.2, Or.inl ⟨bytes, rfl⟩⟩
    | fin =>
      cases hs
      exact ⟨h.1, h.2, Or.inr rfl⟩
  · cases hs

/-- A step of the peer leaves all but the socket. -/
theorem peerStep_leaves {s t : FeedHandler} {e : PeerEvent} (hs : s.peerStep e = some t) : LeavesNetwork s t := by
  obtain ⟨-, -, ⟨bytes, rfl⟩ | rfl⟩ := peerStep_cases hs
  · exact ⟨rfl, rfl, rfl, rfl, id⟩
  · exact ⟨rfl, rfl, rfl, rfl, id⟩

/-- A step that is not the network thread's leaves the flags in order. -/
theorem FlagsOk.leave {s t : FeedHandler} {p : NetworkPoint} (h : FlagsOk s p) (hl : LeavesNetwork s t) : FlagsOk t p := by
  have hsettled : Settled s → Settled t := by
    unfold Settled
    rw [hl.connected, hl.pending]
    exact fun hs => ⟨hs.1, fun hr => hs.2 (hl.running hr)⟩
  cases p <;> simp only [FlagsOk] at h ⊢ <;> first | exact hsettled h | (rw [hl.connected, hl.pending]; exact h)

/-- Every step of the network thread keeps the flags in order. -/
theorem FlagsOk.network {s t : FeedHandler} {e : NetworkEvent} (h : FlagsOk s s.network) (hs : s.networkStep e = some t) :
    FlagsOk t t.network := by
  have hmove := FeedHandler.networkStep_moves hs
  generalize hp : s.network = p at h hmove
  cases hmove with
  | storeConnected k => exact ⟨rfl, h.2⟩
  | resetPolicy k => exact flagsOk_point (settled_connected h.1 h.2) k
  | connectFailed k =>
    refine flagsOk_point (settled_pending ?_ rfl) k
    exact h.1
  | takePending rest hpending =>
    have hc : s.connected = false := by
      by_contra hc
      exact absurd (h.1 (by simpa using hc)) (by simp [hpending])
    exact ⟨hc, rfl⟩
  | received rest n hmay =>
    dsimp only
    rw [hp]
    exact h
  | tryAgain rest hmay =>
    rw [hp]
    exact h
  | disconnect k hc => exact ⟨rfl, h.1 hc⟩
  | alreadyDisconnected k hc => exact flagsOk_point h k
  | stopped k hr => exact flagsOk_point (settled_stopped hr h.1) k
  | storePending k => exact ⟨h.1, rfl⟩
  | signal k => exact flagsOk_point (settled_pending h.1 h.2) k
  | leaveLoop hr => trivial
  | failed => trivial
  -- the other steps go from one point to another with the same flags
  | _ => exact h

/-- Every step keeps the flags in order. -/
theorem FlagsOk.step {s t : FeedHandler} {e : HandlerEvent} (h : FlagsOk s s.network) (hs : s.step e = some t) :
    FlagsOk t t.network := by
  cases e with
  | network e => exact h.network hs
  | reconnect e =>
    obtain ⟨hl, -⟩ := reconnectStep_leaves hs
    rw [hl.network]
    exact h.leave hl
  | stop =>
    cases hs
    obtain ⟨hl, -⟩ := stopStep_leaves s
    rw [hl.network]
    exact h.leave hl
  | peer e =>
    have hl := peerStep_leaves hs
    rw [hl.network]
    exact h.leave hl

/-- At the start, on the way to the first `connect`, neither flag is set. -/
theorem flagsOk_init : FlagsOk FeedHandler.init FeedHandler.init.network := ⟨rfl, rfl⟩

end ConnectionFlagsAux

end MarketFeed
