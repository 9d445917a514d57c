import MarketFeed.Lemmas.ClientRuns
import MarketFeed.Theorems.Subscriptions

/-!
# What an operation does to one connection

Every operation of the manager except a `send_to` by itself, seen from one descriptor, which may be in the table or not: it is accepted
anew, it receives, it is sent a broadcast message, it is flushed, or its entry and its streams stay as they are.
-/

namespace MarketFeed

open ClientSendAux ClientRunsAux BroadcastAux SubscriptionsAux

/-- A connection just accepted. -/
def Connection.fresh : Connection := { wire := [], epollOut := false, handed := [] }

/-- What the operation does to the descriptor `fd`. -/
inductive Server.Moves (v v' : Server) (fd : Fd) : ServerEvent → Prop where
  | accepted (peerAddr : String) (now : Int64) (order : List Fd)
      (hstate : v'.clients.state fd = { fd, connectedAt := now, lastSend := now, peerAddr }) (hconn : v'.conns fd = .fresh) :
    Moves v v' fd (.accept fd peerAddr now order)
  | received (data : List UInt8) (hmem : fd ∈ v.clients.keys) (hkeys : v'.clients.keys = v.clients.keys)
      (hstate : v'.clients.state fd = (v.clients.state fd).onRecv data) (hconn : v'.conns fd = v.conns fd) :
    Moves v v' fd (.recv fd data)
  | sent (data : List UInt8) (outs : Fd → SendOutcome) (now : Int64) (hlive : v.IsLive fd)
      (hstays : ¬Drops (v.clients.state fd) data (outs fd)) (hkeys : v'.clients.keys = v.clients.keys)
      (hstate : v'.clients.state fd = ((v.clients.state fd).sendResult (v.conns fd) data (outs fd) now).cs)
      (hconn : v'.conns fd = ((v.clients.state fd).sendResult (v.conns fd) data (outs fd) now).conn) :
    Moves v v' fd (.broadcast data outs now)
  | flushed (outs : Nat → SendOutcome) (hmem : fd ∈ v.clients.keys) (hkeys : v'.clients.keys = v.clients.keys)
      (hstate : v'.clients.state fd = ((v.clients.state fd).flushQueue (v.conns fd) outs).1)
      (hwire : (v'.conns fd).wire = ((v.clients.state fd).flushQueue (v.conns fd) outs).2.1.wire)
      (hhanded : (v'.conns fd).handed = (v.conns fd).handed) : Moves v v' fd (.flush fd outs)
  | same {e : ServerEvent} (hstate : v'.clients.state fd = v.clients.state fd) (hwire : (v'.conns fd).wire = (v.conns fd).wire)
      (hhanded : (v'.conns fd).handed = (v.conns fd).handed) (hkeys : fd ∈ v'.clients.keys → fd ∈ v.clients.keys)
      (hother : ∀ peerAddr now order, e ≠ .accept fd peerAddr now order)
      (hquiet : ∀ data outs now, e = .broadcast data outs now → ¬v.IsLive fd) : Moves v v' fd e

namespace ClientMovesAux

variable {v v' : Server}

/-- A broadcast that comes to its end sends the message to the client if it is live, and does not drop it; otherwise it leaves it
alone. -/
theorem broadcast_cases {data : List UInt8} {outs : Fd → SendOutcome} {now : Int64} {calls : List Fd}
    (hdone : v.broadcast data outs now = .done v' calls) (fd : Fd) :
    (¬v.IsLive fd ∧ v'.clients.state fd = v.clients.state fd ∧ v'.conns fd = v.conns fd) ∨
      (v.IsLive fd ∧ ¬Drops (v.clients.state fd) data (outs fd) ∧
        v'.clients.state fd = ((v.clients.state fd).sendResult (v.conns fd) data (outs fd) now).cs ∧
        v'.conns fd = ((v.clients.state fd).sendResult (v.conns fd) data (outs fd) now).conn) := by
  have hall := broadcast_induction (P := fun u => u.clients.keys = v.clients.keys ∧
    ((u.clients.state fd = v.clients.state fd ∧ u.conns fd = v.conns fd) ∨
      (v.IsLive fd ∧ ¬Drops (v.clients.state fd) data (outs fd) ∧
        u.clients.state fd = ((v.clients.state fd).sendResult (v.conns fd) data (outs fd) now).cs ∧
        u.conns fd = ((v.clients.state fd).sendResult (v.conns fd) data (outs fd) now).conn))) hdone ⟨rfl, .inl ⟨rfl, rfl⟩⟩ ?_
  · rcases hall.2 with ⟨hstate, hconn⟩ | hsent
    · refine .inl ⟨fun hlive => ?_, hstate, hconn⟩
      -- the message would have been handed over
      have hhanded := broadcast_handed hdone fd
      rw [hconn, if_pos hlive] at hhanded
      simp at hhanded
    · exact .inr hsent
  · intro u k hu hmem hstate hconn hl hd
    refine ⟨hu.1, ?_⟩
    by_cases hk : fd = k
    · subst hk
      rw [hu.1] at hmem
      exact .inr ⟨⟨hmem, hl⟩, hd, afterSend_state u fd _, afterSend_conns u fd _⟩
    · have ht := afterSend_touches u k ((v.clients.state k).sendResult (v.conns k) data (outs k) now)
      rw [ht.state fd hk, ht.conns fd hk]
      exact hu.2

theorem broadcast_moves {data : List UInt8} {outs : Fd → SendOutcome} {now : Int64} {calls : List Fd}
    (hdone : v.broadcast data outs now = .done v' calls) (fd : Fd) : v.Moves v' fd (.broadcast data outs now) := by
  have hkeys : v'.clients.keys = v.clients.keys := broadcast_keys hdone
  rcases broadcast_cases hdone fd with ⟨hquiet, hstate, hconn⟩ | ⟨hlive, hd, hstate, hconn⟩
  · exact .same hstate (by rw [hconn]) (by rw [hconn]) (fun h => hkeys ▸ h) nofun fun _ _ _ _ => hquiet
  · exact .sent data outs now hlive hd hkeys hstate hconn

/-- An operation on another client. -/
theorem moves_of_touches {k fd : Fd} {e : ServerEvent} (ht : Touches k v v') (hne : fd ≠ k)
    (hother : ∀ peerAddr now order, e ≠ .accept fd peerAddr now order) (hquiet : ∀ data outs now, e ≠ .broadcast data outs now) :
    v.Moves v' fd e :=
  .same (ht.state fd hne) (by rw [ht.conns fd hne]) (by rw [ht.conns fd hne]) (ht.keys fd) hother
    fun data outs now he => absurd he (hquiet data outs now)

theorem accept_moves {k : Fd} {peerAddr : String} {now : Int64} {order : List Fd} (hfresh : k ∉ v.clients.keys)
    (horder : order.Perm (k :: v.clients.keys)) (fd : Fd) :
    v.Moves (v.addClient k peerAddr now order) fd (.accept k peerAddr now order) := by
  have hnodup : order.Nodup := horder.nodup_iff.mpr (List.nodup_cons.mpr ⟨hfresh, v.clients.nodup⟩)
  by_cases hk : fd = k
  · subst hk
    refine .accepted peerAddr now order ?_ (Function.update_self ..)
    simp [Server.addClient, ClientTable.emplace, hnodup]
  · have hstate : (v.addClient k peerAddr now order).clients.state fd = v.clients.state fd := by
      simp [Server.addClient, ClientTable.emplace, hnodup, hk]
    have hconn : (v.addClient k peerAddr now order).conns fd = v.conns fd := Function.update_of_ne hk ..
    refine .same hstate (by rw [hconn]) (by rw [hconn]) (fun h => ?_) ?_ (by simp)
    · simp only [Server.addClient, ClientTable.emplace, dif_pos hnodup] at h
      exact (List.mem_cons.mp (horder.mem_iff.mp h)).resolve_left hk
    · intro _ _ _ he
      cases he
      exact hk rfl

/-- Every operation except a `send_to` by itself, seen from a descriptor. -/
theorem step_moves {e : ServerEvent} (hs : v.step e = some v') (hsend : ∀ k data out now, e ≠ .send k data out now) (fd : Fd) :
    v.Moves v' fd e := by
  cases e with
  | accept k peerAddr now order =>
    simp only [Server.step] at hs
    split at hs <;> rename_i h <;> cases hs
    exact accept_moves h.1 h.2 fd
  | remove k =>
    cases hs
    obtain ⟨hstate, hconns⟩ := removeClient_frame v k
    exact .same (congrFun hstate fd) (hconns fd).1 (hconns fd).2 ((Touches.refl k v).removeClient.keys fd) (by simp) (by simp)
  | recv k data =>
    cases hs
    by_cases hk : fd = k ∧ k ∈ v.clients.keys
    · obtain ⟨rfl, hmem⟩ := hk
      refine .received data hmem (onRecv_keys v fd data) ?_ ?_
      · rw [Server.onRecv, find_of_mem hmem]
        exact setClient_state_self v fd _
      · rw [Server.onRecv, find_of_mem hmem]
        rfl
    · by_cases hmem : k ∈ v.clients.keys
      · refine moves_of_touches (k := k) ?_ (fun he => hk ⟨he, hmem⟩) (by simp) (by simp)
        rw [Server.onRecv, find_of_mem hmem]
        exact (Touches.refl k v).setClient _
      · have hnone : v.clients.find k = none := if_neg hmem
        rw [Server.onRecv, hnone]
        exact .same rfl rfl rfl id (by simp) (by simp)
  | send k data out now => exact absurd rfl (hsend k data out now)
  | broadcast data outs now =>
    simp only [Server.step] at hs
    split at hs <;> rename_i hb <;> cases hs
    exact broadcast_moves hb fd
  | flush k outs =>
    cases hs
    by_cases hk : fd = k ∧ k ∈ v.clients.keys
    · obtain ⟨rfl, hmem⟩ := hk
      obtain ⟨hstate, hconn⟩ := flushPending_client outs hmem
      exact .flushed outs hmem (flushPending_keys v fd outs) hstate (by rw [hconn]) (flushPending_handed v fd outs fd)
    · by_cases hmem : k ∈ v.clients.keys
      · exact moves_of_touches (flushPending_touches v k outs) (fun he => hk ⟨he, hmem⟩) (by simp) (by simp)
      · have hnone : v.clients.find k = none := if_neg hmem
        rw [Server.flushPending, hnone]
        exact .same rfl rfl rfl id (by simp) (by simp)
  | tick =>
    cases hs
    obtain ⟨hstate, hconns⟩ := tick_frame v
    exact .same (congrFun hstate fd) (hconns fd).1 (hconns fd).2 (tick_keys v fd) (by simp) (by simp)

/-! ## Streams and phases -/

/-- What the kernel has taken over, and the queue, are what was handed over. -/
def Streams (v : Server) (fd : Fd) : Prop :=
  (v.conns fd).wire ++ (v.clients.state fd).pending.flatten = (v.conns fd).handed.flatten

/-- Being sent a message or being flushed adds to the wire. -/
theorem sendResult_wire (cs : ClientState) (conn : Connection) (data : List UInt8) (out : SendOutcome) (now : Int64) :
    conn.wire <+: (cs.sendResult conn data out now).conn.wire ∧
      (cs.sendResult conn data out now).conn.handed = conn.handed ++ [data] ∧
      (cs.sendResult conn data out now).cs.phase = cs.phase := by
  unfold ClientState.sendResult
  split
  · exact ⟨List.prefix_rfl, rfl, rfl⟩
  · cases out with
    | accept k =>
      dsimp only
      split
      · exact ⟨List.prefix_append _ _, rfl, rfl⟩
      · exact ⟨List.prefix_append _ _, rfl, rfl⟩
    | again => exact ⟨List.prefix_rfl, rfl, rfl⟩
    | error => exact ⟨List.prefix_rfl, rfl, rfl⟩

theorem flushQueue_wire (cs : ClientState) (conn : Connection) (outs : Nat → SendOutcome) :
    conn.wire <+: (cs.flushQueue conn outs).2.1.wire ∧ (cs.flushQueue conn outs).1.phase = cs.phase := by
  refine flushQueue_induction (P := fun cs' conn' => conn.wire <+: conn'.wire ∧ cs'.phase = cs.phase) ?_ ?_ outs
    ⟨List.prefix_rfl, rfl⟩
  · exact fun _ _ _ _ _ h => ⟨h.1.trans (List.prefix_append _ _), h.2⟩
  · exact fun _ _ _ _ _ _ _ h => ⟨h.1.trans (List.prefix_append _ _), h.2⟩

/-- Streams stay in step, in the table and out of it. -/
theorem Streams.moves {fd : Fd} {e : ServerEvent} (h : Streams v fd) (hm : v.Moves v' fd e) : Streams v' fd := by
  unfold Streams at h ⊢
  cases hm with
  | accepted peerAddr now order hstate hconn =>
    rw [hstate, hconn]
    rfl
  | received data hmem hkeys hstate hconn =>
    rw [hstate, hconn, (onRecv_frame _ data).1]
    exact h
  | sent data outs now hlive hstays hkeys hstate hconn =>
    rw [hstate, hconn]
    exact sendResult_stream now hstays h
  | flushed outs hmem hkeys hstate hwire hhanded =>
    rw [hstate, hwire, hhanded, flushQueue_stream]
    exact h
  | same hstate hwire hhanded hkeys hother hquiet =>
    rw [hstate, hwire, hhanded]
    exact h

end ClientMovesAux

end MarketFeed
