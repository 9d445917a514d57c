import MarketFeed.Lemmas.ClientBroadcast

/-!
# What holds of every client

A property of a client and its connection that holds of a new client, and that `on_recv`, `flush_pending` and a `send_to` which does
not drop the client keep, holds of every client in the table after any run. What is known of each `send_to` (of its message, of what
the kernel does with it) is a parameter.
-/

namespace MarketFeed

/-- The property holds of every client in the table. -/
def Server.Each (Q : ClientState → Connection → Prop) (v : Server) : Prop :=
  ∀ fd ∈ v.clients.keys, Q (v.clients.state fd) (v.conns fd)

/-- What is known of the calls of `send_to` that the event makes. -/
def Server.SendsOk (ok : ClientState → List UInt8 → SendOutcome → Prop) (v : Server) : ServerEvent → Prop
  | .send fd data out _ => fd ∈ v.clients.keys → ok (v.clients.state fd) data out
  | .broadcast data outs _ =>
    ∀ fd ∈ v.clients.keys, (v.clients.state fd).phase = .live → ok (v.clients.state fd) data (outs fd)
  | _ => True

instance Server.SendsOk.decidable (ok : ClientState → List UInt8 → SendOutcome → Prop)
    [∀ cs data out, Decidable (ok cs data out)] (v : Server) : ∀ e, Decidable (v.SendsOk ok e)
  | .send fd data out _ => inferInstanceAs (Decidable (fd ∈ v.clients.keys → ok (v.clients.state fd) data out))
  | .broadcast data outs _ =>
    List.decidableBAll (fun fd => (v.clients.state fd).phase = .live → ok (v.clients.state fd) data (outs fd)) v.clients.keys
  | .accept _ _ _ _ => isTrue trivial
  | .remove _ => isTrue trivial
  | .recv _ _ => isTrue trivial
  | .flush _ _ => isTrue trivial
  | .tick => isTrue trivial

/-- What has to be shown of one client. -/
structure ClientRule (ok : ClientState → List UInt8 → SendOutcome → Prop) (Q : ClientState → Connection → Prop) : Prop where
  added : ∀ (fd : Fd) (peerAddr : String) (now : Int64),
    Q { fd, connectedAt := now, lastSend := now, peerAddr } { wire := [], epollOut := false, handed := [] }
  received : ∀ (cs : ClientState) (conn : Connection) (data : List UInt8), Q cs conn → Q (cs.onRecv data) conn
  sent : ∀ (cs : ClientState) (conn : Connection) (data : List UInt8) (out : SendOutcome) (now : Int64), ok cs data out →
    ¬Drops cs data out → Q cs conn → Q (cs.sendResult conn data out now).cs (cs.sendResult conn data out now).conn
  flushed : ∀ (cs : ClientState) (conn : Connection) (outs : Nat → SendOutcome), Q cs conn →
    Q (cs.flushQueue conn outs).1
      { (cs.flushQueue conn outs).2.1 with
        epollOut := if (cs.flushQueue conn outs).2.2 = true then false else (cs.flushQueue conn outs).2.1.epollOut }

/-- The messages that the event sends are of the kind. -/
def ServerEvent.Sends (ok : List UInt8 → Prop) : ServerEvent → Prop
  | .send _ data _ _ => ok data
  | .broadcast data _ _ => ok data
  | _ => True

/-- What is known of the messages is known of the calls. -/
theorem ServerEvent.Sends.sendsOk {ok : List UInt8 → Prop} {e : ServerEvent} (h : e.Sends ok) (v : Server) :
    v.SendsOk (fun _ data _ => ok data) e := by
  cases e with
  | send fd data out now => exact fun _ => h
  | broadcast data outs now => exact fun _ _ _ => h
  | accept fd peerAddr now order => trivial
  | remove fd => trivial
  | recv fd data => trivial
  | flush fd outs => trivial
  | tick => trivial

namespace ClientRunsAux

open ClientSendAux BroadcastAux

variable {ok : ClientState → List UInt8 → SendOutcome → Prop} {Q : ClientState → Connection → Prop} {v v' : Server}

/-- An operation on one client under which the property stays true of it if it stays. -/
theorem each_touch {fd : Fd} (h : v.Each Q) (ht : Touches fd v v')
    (hfd : fd ∈ v'.clients.keys → Q (v'.clients.state fd) (v'.conns fd)) : v'.Each Q := by
  intro k hk
  by_cases hkfd : k = fd
  · subst hkfd
    exact hfd hk
  · rw [ht.state k hkfd, ht.conns k hkfd]
    exact h k (ht.keys k hk)

/-- `remove_client` leaves the property to the clients that stay. -/
theorem each_removeClient (h : v.Each Q) (fd : Fd) : (v.removeClient fd).Each Q := by
  refine each_touch h (Touches.refl fd v).removeClient (fun hstays => ?_)
  have hmem : fd ∈ v.clients.keys := (Touches.refl fd v).removeClient.keys fd hstays
  rw [removeClient_keys hmem] at hstays
  exact absurd hstays v.clients.nodup.not_mem_erase

/-- So does `tick`. -/
theorem each_tick (h : v.Each Q) : v.tick.Each Q := by
  unfold Server.tick
  generalize v.clients.keys.filter _ = toRemove
  dsimp only
  induction toRemove generalizing v with
  | nil => exact h
  | cons fd toRemove ih => exact ih (each_removeClient h fd)

/-- A `send_to` that does not drop its client. -/
theorem each_afterSend (hQ : ClientRule ok Q) (h : v.Each Q) {fd : Fd} (hmem : fd ∈ v.clients.keys) {data : List UInt8}
    {out : SendOutcome} (now : Int64) (hok : ok (v.clients.state fd) data out) (hd : ¬Drops (v.clients.state fd) data out) :
    (v.afterSend fd ((v.clients.state fd).sendResult (v.conns fd) data out now)).Each Q := by
  refine each_touch h (afterSend_touches v fd _) (fun _ => ?_)
  rw [afterSend_state, afterSend_conns]
  exact hQ.sent _ _ data out now hok hd (h fd hmem)

/-- `send_to` keeps it by the rule, and where it drops its client by the others. -/
theorem each_sendTo (hQ : ClientRule ok Q) (h : v.Each Q) (fd : Fd) {data : List UInt8} {out : SendOutcome}
    (hok : fd ∈ v.clients.keys → ok (v.clients.state fd) data out) (now : Int64) : (v.sendTo fd data out now).1.Each Q := by
  have ht := sendTo_touches v fd data out now
  by_cases hd : fd ∈ v.clients.keys ∧ ¬Drops (v.clients.state fd) data out
  · rw [sendTo_stays now hd.1 hd.2]
    exact each_afterSend hQ h hd.1 now (hok hd.1) hd.2
  · refine each_touch h ht (fun hstays => ?_)
    have hmem : fd ∈ v.clients.keys := ht.keys fd hstays
    rw [sendTo_drops now hmem (not_not.mp fun hn => hd ⟨hmem, hn⟩)] at hstays
    exact absurd hstays v.clients.nodup.not_mem_erase

/-- `flush_pending` keeps it by the rule, -/
theorem each_flushPending (hQ : ClientRule ok Q) (h : v.Each Q) (fd : Fd) (outs : Nat → SendOutcome) :
    (v.flushPending fd outs).Each Q := by
  have ht := flushPending_touches v fd outs
  refine each_touch h ht (fun hstays => ?_)
  have hmem : fd ∈ v.clients.keys := ht.keys fd hstays
  obtain ⟨hstate, hconn⟩ := flushPending_client outs hmem
  rw [hstate, hconn]
  exact hQ.flushed _ _ outs (h fd hmem)

/-- `on_recv` too, -/
theorem each_onRecv (hQ : ClientRule ok Q) (h : v.Each Q) (fd : Fd) (data : List UInt8) : (v.onRecv fd data).Each Q := by
  unfold Server.onRecv
  split
  · exact h
  · rename_i cs hfind
    obtain ⟨hmem, hcs⟩ := find_eq_some hfind
    refine each_touch h ((Touches.refl fd v).setClient _) (fun _ => ?_)
    rw [setClient_state_self, setClient_conns, ← hcs]
    exact hQ.received _ _ data (h fd hmem)

/-- `broadcast`, one `send_to` after another, -/
theorem each_broadcast (hQ : ClientRule ok Q) (h : v.Each Q) {data : List UInt8} {outs : Fd → SendOutcome} {now : Int64}
    (hok : ∀ fd ∈ v.clients.keys, (v.clients.state fd).phase = .live → ok (v.clients.state fd) data (outs fd))
    {calls : List Fd} (hdone : v.broadcast data outs now = .done v' calls) : v'.Each Q := by
  have hboth : v'.Each Q ∧ ∀ fd ∈ v'.clients.keys, fd ∈ v.clients.keys := by
    refine broadcast_induction (P := fun u => u.Each Q ∧ ∀ fd ∈ u.clients.keys, fd ∈ v.clients.keys) hdone ⟨h, fun _ hk => hk⟩ ?_
    intro u fd hu hmem hstate hconn hl hd
    rw [← hstate, ← hconn]
    refine ⟨each_afterSend hQ hu.1 hmem now ?_ (hstate ▸ hd), hu.2⟩
    rw [hstate]
    exact hok fd (hu.2 fd hmem) hl
  exact hboth.1

/-- and `add_client`. -/
theorem each_addClient (hQ : ClientRule ok Q) (h : v.Each Q) {fd : Fd} {order : List Fd}
    (horder : order.Perm (fd :: v.clients.keys)) (hfresh : fd ∉ v.clients.keys) (peerAddr : String) (now : Int64) :
    (v.addClient fd peerAddr now order).Each Q := by
  have hnodup : order.Nodup := horder.nodup_iff.mpr (List.nodup_cons.mpr ⟨hfresh, v.clients.nodup⟩)
  intro k hk
  simp only [Server.addClient, ClientTable.emplace, dif_pos hnodup] at hk ⊢
  by_cases hkfd : k = fd
  · subst hkfd
    rw [Function.update_self, Function.update_self]
    exact hQ.added k peerAddr now
  · rw [Function.update_of_ne hkfd, Function.update_of_ne hkfd]
    rcases List.mem_cons.mp (horder.mem_iff.mp hk) with hk | hk
    · exact absurd hk hkfd
    · exact h k hk

/-- Every operation keeps the property true of every client. -/
theorem each_step (hQ : ClientRule ok Q) (h : v.Each Q) {e : ServerEvent} (hok : v.SendsOk ok e) (hs : v.step e = some v') :
    v'.Each Q := by
  cases e with
  | accept fd peerAddr now order =>
    simp only [Server.step] at hs
    split at hs <;> rename_i hfresh
    · cases hs
      exact each_addClient hQ h hfresh.2 hfresh.1 peerAddr now
    · cases hs
  | remove fd =>
    cases hs
    exact each_removeClient h fd
  | recv fd data =>
    cases hs
    exact each_onRecv hQ h fd data
  | send fd data out now =>
    cases hs
    exact each_sendTo hQ h fd hok now
  | broadcast data outs now =>
    simp only [Server.step] at hs
    split at hs <;> rename_i hb
    · cases hs
      exact each_broadcast hQ h hok hb
    · cases hs
    · cases hs
  | flush fd outs =>
    cases hs
    exact each_flushPending hQ h fd outs
  | tick =>
    cases hs
    exact each_tick h

/-- No client, so nothing to show. -/
theorem each_empty (Q : ClientState → Connection → Prop) : Server.empty.Each Q := fun _ hk => absurd hk List.not_mem_nil

/-- The property holds of every client after any run in which it is known of every `send_to`. -/
theorem each_exec_along (hQ : ClientRule ok Q) {es : List ServerEvent} (hok : Run.Along Server.step (Server.SendsOk ok) v es)
    (hs : v.Each Q) (h : Run.exec Server.step v es = some v') : v'.Each Q :=
  Run.exec_invariant_along (fun _ _ _ hv he hstep => each_step hQ hv he hstep) hs hok h

/-- The same where only the messages matter. -/
theorem each_exec {ok : List UInt8 → Prop} (hQ : ClientRule (fun _ data _ => ok data) Q) {es : List ServerEvent}
    (hok : ∀ e ∈ es, e.Sends ok) (hs : v.Each Q) (h : Run.exec Server.step v es = some v') : v'.Each Q :=
  Run.exec_invariant_along (fun u _ _ hu he hstep => each_step hQ hu (he.sendsOk u) hstep) hs (Run.along_of_forall hok v) h

/-! ## Clients that leave -/

/-- Removing a client leaves the entries and the streams as they were. -/
theorem removeClient_frame (v : Server) (k : Fd) :
    (v.removeClient k).clients.state = v.clients.state ∧
      ∀ fd, ((v.removeClient k).conns fd).wire = (v.conns fd).wire ∧ ((v.removeClient k).conns fd).handed = (v.conns fd).handed := by
  unfold Server.removeClient
  split
  · refine ⟨rfl, fun fd => ?_⟩
    by_cases hfd : fd = k
    · subst hfd
      simp [Server.armEpollout, Server.setConn]
    · simp [Server.armEpollout, Server.setConn, hfd]
  · exact ⟨rfl, fun _ => ⟨rfl, rfl⟩⟩

/-- `tick` leaves the entries and the streams as they are. -/
theorem tick_frame (v : Server) :
    v.tick.clients.state = v.clients.state ∧
      ∀ fd, (v.tick.conns fd).wire = (v.conns fd).wire ∧ (v.tick.conns fd).handed = (v.conns fd).handed := by
  unfold Server.tick
  generalize v.clients.keys.filter _ = toRemove
  dsimp only
  induction toRemove generalizing v with
  | nil => exact ⟨rfl, fun _ => ⟨rfl, rfl⟩⟩
  | cons k toRemove ih =>
    obtain ⟨hstate, hconns⟩ := removeClient_frame v k
    obtain ⟨hstate', hconns'⟩ := ih (v.removeClient k)
    exact ⟨hstate'.trans hstate, fun fd => ⟨(hconns' fd).1.trans (hconns fd).1, (hconns' fd).2.trans (hconns fd).2⟩⟩

/-- It only takes clients out of the table. -/
theorem tick_keys (v : Server) : ∀ fd ∈ v.tick.clients.keys, fd ∈ v.clients.keys := by
  unfold Server.tick
  generalize v.clients.keys.filter _ = toRemove
  dsimp only
  induction toRemove generalizing v with
  | nil => exact fun _ hfd => hfd
  | cons k toRemove ih =>
    intro fd hfd
    exact (Touches.refl k v).removeClient.keys fd (ih (v.removeClient k) fd hfd)

/-- A broadcast that comes to its end drops nobody. -/
theorem broadcast_keys {data : List UInt8} {outs : Fd → SendOutcome} {now : Int64} {calls : List Fd}
    (hdone : v.broadcast data outs now = .done v' calls) : v'.clients.keys = v.clients.keys :=
  broadcast_induction (P := fun u => u.clients.keys = v.clients.keys) hdone rfl (fun _ _ hu _ _ _ _ _ => hu)

/-- `on_recv` leaves the table, -/
theorem onRecv_keys (v : Server) (fd : Fd) (data : List UInt8) : (v.onRecv fd data).clients.keys = v.clients.keys := by
  unfold Server.onRecv
  split
  · rfl
  · rfl

/-- and `flush_pending` does. -/
theorem flushPending_keys (v : Server) (fd : Fd) (outs : Nat → SendOutcome) :
    (v.flushPending fd outs).clients.keys = v.clients.keys := by
  unfold Server.flushPending
  split
  · rfl
  · dsimp only
    split
    · rfl
    · rfl

/-- `send_to` to one client leaves the others in the table. -/
theorem mem_keys_sendTo {fd k : Fd} (hk : fd ≠ k) (hmem : fd ∈ v.clients.keys) (data : List UInt8) (out : SendOutcome) (now : Int64) :
    fd ∈ (v.sendTo k data out now).1.clients.keys := by
  by_cases hkmem : k ∈ v.clients.keys
  · by_cases hd : Drops (v.clients.state k) data out
    · rw [sendTo_drops now hkmem hd]
      exact (List.mem_erase_of_ne hk).mpr hmem
    · rw [(sendTo_keeps now hkmem hd).1]
      exact hmem
  · have hnone : v.clients.find k = none := if_neg hkmem
    unfold Server.sendTo
    rw [hnone]
    exact hmem

/-- A `send_to` that drops its client leaves what the sending made of the client. -/
theorem sendTo_drops_frame {fd : Fd} (hmem : fd ∈ v.clients.keys) {data : List UInt8} {out : SendOutcome} (now : Int64)
    (hd : Drops (v.clients.state fd) data out) :
    (v.sendTo fd data out now).1.clients.state fd = ((v.clients.state fd).sendResult (v.conns fd) data out now).cs ∧
      ((v.sendTo fd data out now).1.conns fd).wire = ((v.clients.state fd).sendResult (v.conns fd) data out now).conn.wire ∧
      ((v.sendTo fd data out now).1.conns fd).handed = ((v.clients.state fd).sendResult (v.conns fd) data out now).conn.handed := by
  have hgoes : ¬((v.clients.state fd).sendResult (v.conns fd) data out now).stays = true := by
    rw [stays_iff]
    exact not_not_intro hd
  obtain ⟨hstate, hconns⟩ := removeClient_frame
    (v.afterSend fd ((v.clients.state fd).sendResult (v.conns fd) data out now)) fd
  rw [sendTo_eq hmem]
  dsimp only
  rw [if_neg hgoes, hstate, (hconns fd).1, (hconns fd).2, afterSend_state, afterSend_conns]
  exact ⟨rfl, rfl, rfl⟩

/-- How a client leaves the table: it is removed as it is, or a `send_to` drops it. -/
theorem step_leaves {e : ServerEvent} {fd : Fd} (hs : v.step e = some v') (hmem : fd ∈ v.clients.keys)
    (hgone : fd ∉ v'.clients.keys) :
    (v'.clients.state fd = v.clients.state fd ∧ (v'.conns fd).wire = (v.conns fd).wire ∧
        (v'.conns fd).handed = (v.conns fd).handed) ∨
      ∃ data out now, e = .send fd data out now ∧ Drops (v.clients.state fd) data out ∧
        v'.clients.state fd = ((v.clients.state fd).sendResult (v.conns fd) data out now).cs ∧
        (v'.conns fd).wire = ((v.clients.state fd).sendResult (v.conns fd) data out now).conn.wire ∧
        (v'.conns fd).handed = ((v.clients.state fd).sendResult (v.conns fd) data out now).conn.handed := by
  cases e with
  | accept k peerAddr now order =>
    simp only [Server.step] at hs
    split at hs <;> rename_i hfresh
    · cases hs
      have hnodup : order.Nodup := hfresh.2.nodup_iff.mpr (List.nodup_cons.mpr ⟨hfresh.1, v.clients.nodup⟩)
      simp only [Server.addClient, ClientTable.emplace, dif_pos hnodup] at hgone
      exact absurd (hfresh.2.mem_iff.mpr (List.mem_cons_of_mem k hmem)) hgone
    · cases hs
  | remove k =>
    cases hs
    obtain ⟨hstate, hconns⟩ := removeClient_frame v k
    exact Or.inl ⟨congrFun hstate fd, (hconns fd).1, (hconns fd).2⟩
  | recv k data =>
    cases hs
    rw [onRecv_keys] at hgone
    exact absurd hmem hgone
  | send k data out now =>
    cases hs
    by_cases hk : fd = k
    · subst hk
      by_cases hd : Drops (v.clients.state fd) data out
      · exact Or.inr ⟨data, out, now, rfl, hd, sendTo_drops_frame hmem now hd⟩
      · rw [(sendTo_keeps now hmem hd).1] at hgone
        exact absurd hmem hgone
    · exact absurd (mem_keys_sendTo hk hmem data out now) hgone
  | broadcast data outs now =>
    simp only [Server.step] at hs
    split at hs <;> rename_i hb
    · cases hs
      rw [broadcast_keys hb] at hgone
      exact absurd hmem hgone
    · cases hs
    · cases hs
  | flush k outs =>
    cases hs
    rw [flushPending_keys] at hgone
    exact absurd hmem hgone
  | tick =>
    cases hs
    obtain ⟨hstate, hconns⟩ := tick_frame v
    exact Or.inl ⟨congrFun hstate fd, (hconns fd).1, (hconns fd).2⟩

end ClientRunsAux

end MarketFeed
