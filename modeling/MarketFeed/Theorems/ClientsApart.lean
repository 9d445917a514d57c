import MarketFeed.Lemmas.ClientMoves

/-!
# Clients do not affect each other

The manager keeps all clients in one table and goes through it in `broadcast` and `tick`. Seen from one descriptor it is a machine for
that client alone: what becomes of its entry and its connection depends on the calls about it and on what the kernel makes of its own
sends, however many others there are, however slow they are and whatever becomes of them, as long as no broadcast drops one: what
`broadcast` does then is undefined for all.
-/

namespace MarketFeed

open ClientSendAux ClientRunsAux ClientMovesAux

/-- An entry of the table with its connection. -/
abbrev Client := ClientState × Connection

/-- What happens to one client. -/
inductive ClientCall where
  | accept (peerAddr : String) (now : Int64)
  | remove
  | recv (data : List UInt8)
  | send (data : List UInt8) (out : SendOutcome) (now : Int64)
  | broadcast (data : List UInt8) (out : SendOutcome) (now : Int64)
  | flush (outs : Nat → SendOutcome)
  | tick

namespace Client

/-- `send_to` for the client: what is left of it, if anything. -/
def send (cl : Client) (data : List UInt8) (out : SendOutcome) (now : Int64) : Option Client :=
  if Drops cl.1 data out then none
  else
    let r := cl.1.sendResult cl.2 data out now
    some (r.cs, r.conn)

/-- `flush_pending` for the client. -/
def flush (cl : Client) (outs : Nat → SendOutcome) : Client :=
  let (cs, conn, flushed) := cl.1.flushQueue cl.2 outs
  (cs, { conn with epollOut := if flushed then false else conn.epollOut })

/-- The machine of one client, which may be there or not. A `broadcast` that drops the client is undefined behaviour. -/
def step (fd : Fd) : Option Client → ClientCall → Option (Option Client)
  | none, .accept peerAddr now => some (some ({ fd, connectedAt := now, lastSend := now, peerAddr }, .fresh))
  | some _, .accept _ _ => none
  | none, _ => some none
  | some _, .remove => some none
  | some cl, .recv data => some (some (cl.1.onRecv data, cl.2))
  | some cl, .send data out now => some (cl.send data out now)
  | some cl, .broadcast data out now =>
    if cl.1.phase = .live then (cl.send data out now).map some else some (some cl)
  | some cl, .flush outs => some (some (cl.flush outs))
  | some cl, .tick => some (if cl.1.pendingBytes > slowClientDropBytes then none else some cl)

end Client

/-- The client that is in the table under a descriptor. -/
def Server.view (v : Server) (fd : Fd) : Option Client :=
  if fd ∈ v.clients.keys then some (v.clients.state fd, v.conns fd) else none

/-- What an operation is for one descriptor. -/
def ServerEvent.about (fd : Fd) : ServerEvent → Option ClientCall
  | .accept k peerAddr now _ => if k = fd then some (.accept peerAddr now) else none
  | .remove k => if k = fd then some .remove else none
  | .recv k data => if k = fd then some (.recv data) else none
  | .send k data out now => if k = fd then some (.send data out now) else none
  | .broadcast data outs now => some (.broadcast data (outs fd) now)
  | .flush k outs => if k = fd then some (.flush outs) else none
  | .tick => some .tick

namespace ClientsApartAux

variable {v v' : Server} {fd : Fd}

/-- A client that is in the table is seen with its connection. -/
theorem view_of_mem (h : fd ∈ v.clients.keys) : v.view fd = some (v.clients.state fd, v.conns fd) := if_pos h

/-- One that is not there is not seen. -/
theorem view_of_not_mem (h : fd ∉ v.clients.keys) : v.view fd = none := if_neg h

/-- Nothing has changed for the client. -/
theorem view_congr (hkeys : fd ∈ v'.clients.keys ↔ fd ∈ v.clients.keys) (hstate : v'.clients.state fd = v.clients.state fd)
    (hconn : v'.conns fd = v.conns fd) : v'.view fd = v.view fd := by
  unfold Server.view
  rw [if_congr hkeys rfl rfl, hstate, hconn]

/-- An operation on another client. -/
theorem view_of_touches {k : Fd} (ht : Touches k v v') (hk : k ≠ fd) (hkeys : fd ∈ v.clients.keys → fd ∈ v'.clients.keys) :
    v'.view fd = v.view fd :=
  view_congr ⟨ht.keys fd, hkeys⟩ (ht.state fd hk.symm) (ht.conns fd hk.symm)

/-- A call about a client that is not there leaves it so, unless it is accepted by it. -/
theorem step_of_not_mem (h : fd ∉ v.clients.keys) (hsame : v' = v) {f : ClientCall} (hf : ∀ peerAddr now, f ≠ .accept peerAddr now) :
    Client.step fd (v.view fd) f = some (v'.view fd) := by
  rw [hsame, view_of_not_mem h]
  cases f <;> first | rfl | exact absurd rfl (hf _ _)

/-- After `remove_client` the client is gone. -/
theorem removeClient_view (v : Server) (fd : Fd) : (v.removeClient fd).view fd = none := by
  refine view_of_not_mem ?_
  by_cases hmem : fd ∈ v.clients.keys
  · rw [removeClient_keys hmem]
    exact v.clients.nodup.not_mem_erase
  · unfold Server.removeClient
    rwa [if_neg hmem]

/-- Another client is seen as before. -/
theorem removeClient_view_of_ne {k : Fd} (hk : k ≠ fd) : (v.removeClient k).view fd = v.view fd := by
  refine view_of_touches (Touches.refl k v).removeClient hk fun hmem => ?_
  unfold Server.removeClient
  split
  · exact (List.mem_erase_of_ne hk.symm).mpr hmem
  · exact hmem

/-! ## Each operation -/

/-- `add_client` is the start of the client's machine, and nothing to the others. -/
theorem accept_view {k : Fd} {peerAddr : String} {now : Int64} {order : List Fd} (hfresh : k ∉ v.clients.keys)
    (horder : order.Perm (k :: v.clients.keys)) :
    if k = fd then Client.step fd (v.view fd) (.accept peerAddr now) = some ((v.addClient k peerAddr now order).view fd)
    else (v.addClient k peerAddr now order).view fd = v.view fd := by
  have hnodup : order.Nodup := horder.nodup_iff.mpr (List.nodup_cons.mpr ⟨hfresh, v.clients.nodup⟩)
  split <;> rename_i hk
  · subst hk
    have hmem : k ∈ (v.addClient k peerAddr now order).clients.keys := by
      simp [Server.addClient, ClientTable.emplace, hnodup, horder.mem_iff]
    rw [view_of_not_mem hfresh, view_of_mem hmem]
    simp [Client.step, Server.addClient, ClientTable.emplace, hnodup, Connection.fresh]
  · refine view_congr ?_ ?_ ?_
    · have hne : fd ≠ k := fun h => hk h.symm
      simp [Server.addClient, ClientTable.emplace, hnodup, horder.mem_iff, hne]
    · have hne : fd ≠ k := fun h => hk h.symm
      simp [Server.addClient, ClientTable.emplace, hnodup, hne]
    · exact Function.update_of_ne (fun h => hk h.symm) ..

/-- `send_to` is a step of its client's machine, dropped or not. -/
theorem sendTo_view (v : Server) (fd : Fd) (data : List UInt8) (out : SendOutcome) (now : Int64) :
    Client.step fd (v.view fd) (.send data out now) = some ((v.sendTo fd data out now).1.view fd) := by
  by_cases hmem : fd ∈ v.clients.keys
  · rw [view_of_mem hmem]
    by_cases hd : Drops (v.clients.state fd) data out
    · have hgone : fd ∉ (v.sendTo fd data out now).1.clients.keys := by
        rw [sendTo_drops now hmem hd]
        exact v.clients.nodup.not_mem_erase
      rw [view_of_not_mem hgone]
      exact congrArg some (if_pos hd)
    · have hstays := sendTo_stays now hmem hd
      have hkeys : fd ∈ (v.sendTo fd data out now).1.clients.keys := by
        rw [hstays]
        exact hmem
      rw [view_of_mem hkeys, hstays, afterSend_state, afterSend_conns]
      exact congrArg some (if_neg hd)
  · refine step_of_not_mem hmem ?_ (by simp)
    have hnone : v.clients.find fd = none := if_neg hmem
    unfold Server.sendTo
    rw [hnone]

/-- `broadcast` is a step of every client's machine, with the outcome of the client's own `send`. -/
theorem broadcast_view {data : List UInt8} {outs : Fd → SendOutcome} {now : Int64} {calls : List Fd}
    (hdone : v.broadcast data outs now = .done v' calls) :
    Client.step fd (v.view fd) (.broadcast data (outs fd) now) = some (v'.view fd) := by
  have hkeys := broadcast_keys hdone
  by_cases hmem : fd ∈ v.clients.keys
  · have hmem' : fd ∈ v'.clients.keys := by rwa [hkeys]
    rw [view_of_mem hmem, view_of_mem hmem']
    rcases broadcast_cases hdone fd with ⟨hquiet, hstate, hconn⟩ | ⟨hlive, hd, hstate, hconn⟩
    · rw [hstate, hconn]
      exact if_neg fun hphase => hquiet ⟨hmem, hphase⟩
    · rw [hstate, hconn]
      refine (if_pos hlive.2).trans ?_
      rw [Client.send, if_neg hd]
      rfl
  · have hmem' : fd ∉ v'.clients.keys := by rwa [hkeys]
    rw [view_of_not_mem hmem, view_of_not_mem hmem']
    rfl

/-- `flush_pending` is a step of its client's machine. -/
theorem flushPending_view (v : Server) (fd : Fd) (outs : Nat → SendOutcome) :
    Client.step fd (v.view fd) (.flush outs) = some ((v.flushPending fd outs).view fd) := by
  by_cases hmem : fd ∈ v.clients.keys
  · obtain ⟨hstate, hconn⟩ := flushPending_client outs hmem
    have hmem' : fd ∈ (v.flushPending fd outs).clients.keys := by rwa [flushPending_keys]
    rw [view_of_mem hmem, view_of_mem hmem', hstate, hconn]
    rfl
  · refine step_of_not_mem hmem ?_ (by simp)
    have hnone : v.clients.find fd = none := if_neg hmem
    unfold Server.flushPending
    rw [hnone]

/-- `on_recv` leaves the other clients. -/
theorem onRecv_touches (v : Server) (k : Fd) (data : List UInt8) : Touches k v (v.onRecv k data) := by
  unfold Server.onRecv
  split
  · exact .refl k v
  · exact (Touches.refl k v).setClient _

/-- It is a step of its client's machine. -/
theorem onRecv_view (v : Server) (fd : Fd) (data : List UInt8) :
    Client.step fd (v.view fd) (.recv data) = some ((v.onRecv fd data).view fd) := by
  by_cases hmem : fd ∈ v.clients.keys
  · have hmem' : fd ∈ (v.onRecv fd data).clients.keys := by rwa [onRecv_keys]
    rw [view_of_mem hmem, view_of_mem hmem', Server.onRecv, find_of_mem hmem]
    simp [Client.step]
  · refine step_of_not_mem hmem ?_ (by simp)
    have hnone : v.clients.find fd = none := if_neg hmem
    unfold Server.onRecv
    rw [hnone]

/-- Removing some clients one after the other. -/
theorem foldl_removeClient_view (ks : List Fd) (v : Server) :
    (ks.foldl Server.removeClient v).view fd = if fd ∈ ks then none else v.view fd := by
  induction ks generalizing v with
  | nil => rfl
  | cons k ks ih =>
    rw [List.foldl_cons, ih]
    by_cases hk : k = fd
    · subst hk
      rw [removeClient_view, if_pos List.mem_cons_self, ite_self]
    · have hne : fd ≠ k := fun h => hk h.symm
      have hiff : fd ∈ k :: ks ↔ fd ∈ ks := by simp [hne]
      rw [removeClient_view_of_ne hk, if_congr hiff rfl rfl]

/-- `tick` is a step of every client's machine: whether it is removed depends on its own backlog. -/
theorem tick_view (v : Server) (fd : Fd) : Client.step fd (v.view fd) .tick = some (v.tick.view fd) := by
  unfold Server.tick
  rw [foldl_removeClient_view]
  by_cases hmem : fd ∈ v.clients.keys
  · rw [view_of_mem hmem]
    simp [Client.step, hmem]
  · rw [view_of_not_mem hmem, ite_self]
    rfl

/-- Every operation is, for each descriptor, the step of its machine that it is about, or no step of it. -/
theorem server_projects (fd : Fd) : Run.Projects Server.step (Client.step fd) (fun v => v.view fd) (ServerEvent.about fd) where
  steps := by
    intro v e v' hs
    cases e with
    | accept k peerAddr now order =>
      simp only [Server.step] at hs
      split at hs <;> rename_i h <;> cases hs
      have haccept := @accept_view v fd k peerAddr now order h.1 h.2
      simp only [ServerEvent.about]
      split at haccept <;> rename_i hk
      · rw [if_pos hk]
        exact haccept
      · rw [if_neg hk]
        exact haccept
    | remove k =>
      cases hs
      simp only [ServerEvent.about]
      by_cases hk : k = fd
      · subst hk
        rw [if_pos rfl]
        dsimp only
        rw [removeClient_view]
        cases v.view k <;> rfl
      · rw [if_neg hk]
        exact removeClient_view_of_ne hk
    | recv k data =>
      cases hs
      simp only [ServerEvent.about]
      by_cases hk : k = fd
      · subst hk
        rw [if_pos rfl]
        exact onRecv_view v k data
      · rw [if_neg hk]
        exact view_of_touches (onRecv_touches v k data) hk fun hmem => by rwa [onRecv_keys]
    | send k data out now =>
      cases hs
      simp only [ServerEvent.about]
      by_cases hk : k = fd
      · subst hk
        rw [if_pos rfl]
        exact sendTo_view v k data out now
      · rw [if_neg hk]
        exact view_of_touches (sendTo_touches v k data out now) hk fun hmem => mem_keys_sendTo (fun h => hk h.symm) hmem data out now
    | broadcast data outs now =>
      simp only [Server.step] at hs
      split at hs <;> rename_i hb <;> cases hs
      exact broadcast_view hb
    | flush k outs =>
      cases hs
      simp only [ServerEvent.about]
      by_cases hk : k = fd
      · subst hk
        rw [if_pos rfl]
        exact flushPending_view v k outs
      · rw [if_neg hk]
        exact view_of_touches (flushPending_touches v k outs) hk fun hmem => by rwa [flushPending_keys]
    | tick =>
      cases hs
      exact tick_view v fd

end ClientsApartAux

open ClientsApartAux

/-- Every run of the manager in which no broadcast drops a client is, for each descriptor, a run of the machine of that one client: of the
calls about it, and of the broadcasts with what the kernel makes of its own sends. -/
theorem clients_apart (es : List ServerEvent) (v : Server) (h : Run.exec Server.step .empty es = some v) (fd : Fd) :
    Run.exec (Client.step fd) none (es.filterMap (ServerEvent.about fd)) = some (v.view fd) := by
  exact (server_projects fd).exec h

namespace ClientsApartAux

/-- The client 5 goes live, gets a message in full and a second one in part. The client 7 is blocked all the time, is flushed in vain, and
hangs up. -/
def twoClientRun : List ServerEvent :=
  [.accept 5 "10.0.0.1:4000" 1 [5], .accept 7 "10.0.0.2:4000" 2 [7, 5], .recv 7 [255, 0, 0], .recv 5 [255, 0, 0],
    .broadcast [1, 2, 3] (fun fd => if fd = 5 then .accept 9 else .again) 3, .flush 7 (fun _ => .again),
    .broadcast [4, 5] (fun fd => if fd = 5 then .accept 0 else .again) 4, .tick, .remove 7]

/-- The client 5 by itself. -/
def aloneRun : List ServerEvent :=
  [.accept 5 "10.0.0.1:4000" 1 [5], .recv 5 [255, 0, 0], .broadcast [1, 2, 3] (fun _ => .accept 9) 3,
    .broadcast [4, 5] (fun _ => .accept 0) 4, .tick]

end ClientsApartAux

/-- The client 5 is in the same state after `twoClientRun` as after `aloneRun`. -/
theorem clients_apart_twoClientRun :
    ∃ v v', Run.exec Server.step .empty twoClientRun = some v ∧ Run.exec Server.step .empty aloneRun = some v' ∧
      v.view 5 = v'.view 5 ∧ (v.conns 5).wire = [1, 2, 3, 4] := by
  have hrun : ∃ v, Run.exec Server.step .empty twoClientRun = some v ∧ (v.conns 5).wire = [1, 2, 3, 4] := by decide +kernel
  have halone : ∃ v', Run.exec Server.step .empty aloneRun = some v' ∧ (v'.conns 5).wire = [1, 2, 3, 4] := by decide +kernel
  obtain ⟨v, hv, hwire⟩ := hrun
  obtain ⟨v', hv', -⟩ := halone
  have hview := clients_apart twoClientRun v hv 5
  have hview' := clients_apart aloneRun v' hv' 5
  have hsame : twoClientRun.filterMap (ServerEvent.about 5) = aloneRun.filterMap (ServerEvent.about 5) := rfl
  rw [hsame, hview'] at hview
  exact ⟨v, v', hv, hv', (Option.some.inj hview).symm, hwire⟩

end MarketFeed
