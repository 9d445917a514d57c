import MarketFeed.Lemmas.ClientSend

/-!
# The loop of `broadcast`

`broadcast` visits the entries in their order. A visit touches no other entry, so what it finds at an entry is what was there when
the call began. A broadcast that comes to its end is one `send_to` after another, for the live clients, none of which is dropped
(`broadcast_induction`). One that drops a client does not come to its end, and the manager has no step for it (`Server.step_iff`): every
statement about a run of the manager is about a run in which no broadcast drops a client.
-/

namespace MarketFeed

open ClientSendAux

/-- A client of the table that receives broadcasts. -/
def Server.IsLive (v : Server) (fd : Fd) : Prop := fd ∈ v.clients.keys ∧ (v.clients.state fd).phase = .live

instance (v : Server) (fd : Fd) : Decidable (v.IsLive fd) :=
  inferInstanceAs (Decidable (fd ∈ v.clients.keys ∧ (v.clients.state fd).phase = .live))

namespace BroadcastAux

/-- The key behind `fd` in a list without duplicates. -/
theorem nextKey_append {fd : Fd} {before after : List Fd} (h : (before ++ fd :: after).Nodup) :
    ClientTable.nextKey fd (before ++ fd :: after) = some after.head? := by
  induction before with
  | nil => exact if_pos rfl
  | cons k before ih =>
    obtain ⟨hk, hrest⟩ := List.nodup_cons.mp h
    have hne : k ≠ fd := by
      intro he
      exact hk (he ▸ List.mem_append_right before List.mem_cons_self)
    rw [List.cons_append, ClientTable.nextKey, if_neg hne]
    exact ih hrest

/-- There is no key behind one that is not there. -/
theorem nextKey_of_not_mem {fd : Fd} {keys : List Fd} (h : fd ∉ keys) : ClientTable.nextKey fd keys = none := by
  induction keys with
  | nil => rfl
  | cons k keys ih =>
    rw [List.mem_cons, not_or] at h
    rw [ClientTable.nextKey, if_neg (Ne.symm h.1)]
    exact ih h.2

/-- What the visit of an entry makes of the table. -/
theorem visit_keys {v : Server} {fd : Fd} (data : List UInt8) (out : SendOutcome) (now : Int64) (hmem : fd ∈ v.clients.keys) :
    (v.visit fd data out now).1.clients.keys =
      if (v.clients.state fd).phase = .live ∧ Drops (v.clients.state fd) data out then v.clients.keys.erase fd
      else v.clients.keys := by
  unfold Server.visit
  by_cases hl : (v.clients.state fd).phase = .live
  · by_cases hd : Drops (v.clients.state fd) data out
    · rw [if_neg (not_not.mpr hl), if_pos ⟨hl, hd⟩]
      exact sendTo_drops now hmem hd
    · rw [if_neg (not_not.mpr hl), if_neg (fun h => hd h.2)]
      exact (sendTo_keeps now hmem hd).1
  · rw [if_pos hl, if_neg (fun h => hl h.1)]

/-- The visit of an entry calls `send_to` when the entry is live. -/
theorem visit_called (v : Server) (fd : Fd) (data : List UInt8) (out : SendOutcome) (now : Int64) :
    (v.visit fd data out now).2 = if (v.clients.state fd).phase = .live then [fd] else [] := by
  unfold Server.visit
  by_cases hl : (v.clients.state fd).phase = .live
  · rw [if_neg (not_not.mpr hl), if_pos hl]
  · rw [if_pos hl, if_neg hl]

theorem visit_touches (v : Server) (fd : Fd) (data : List UInt8) (out : SendOutcome) (now : Int64) :
    Touches fd v (v.visit fd data out now).1 := by
  unfold Server.visit
  split
  · exact .refl fd v
  · exact sendTo_touches v fd data out now

/-- When the entry under the iterator is dropped, the increment is made on an erased node. -/
theorem broadcastFrom_dropped {v : Server} {fd : Fd} {data : List UInt8} {outs : Fd → SendOutcome} (now : Int64)
    (hmem : fd ∈ v.clients.keys) (hdrop : (v.clients.state fd).phase = .live ∧ Drops (v.clients.state fd) data (outs fd))
    (n : Nat) (calls : List Fd) :
    Server.broadcastFrom data outs now (n + 1) v (some fd) calls =
      .dangling (v.visit fd data (outs fd) now).1 (calls ++ (v.visit fd data (outs fd) now).2) := by
  have hnext : (v.visit fd data (outs fd) now).1.clients.next fd = none := by
    rw [ClientTable.next, visit_keys data (outs fd) now hmem, if_pos hdrop]
    exact nextKey_of_not_mem v.clients.nodup.not_mem_erase
  rw [Server.broadcastFrom]
  dsimp only
  rw [hnext]

/-- When the entry under the iterator is kept, the iterator moves on, and the table and the entries still to come are as before. -/
theorem broadcastFrom_kept {v : Server} {fd : Fd} {data : List UInt8} {outs : Fd → SendOutcome} (now : Int64)
    {before after : List Fd} (hkeys : v.clients.keys = before ++ fd :: after)
    (hkept : ¬((v.clients.state fd).phase = .live ∧ Drops (v.clients.state fd) data (outs fd))) (n : Nat) (calls : List Fd) :
    Server.broadcastFrom data outs now (n + 1) v (some fd) calls =
        Server.broadcastFrom data outs now n (v.visit fd data (outs fd) now).1 after.head?
          (calls ++ (v.visit fd data (outs fd) now).2) ∧
      (v.visit fd data (outs fd) now).1.clients.keys = (before ++ [fd]) ++ after ∧
      ∀ k ∈ after, (v.visit fd data (outs fd) now).1.clients.state k = v.clients.state k := by
  have hnodup := v.clients.nodup
  rw [hkeys] at hnodup
  have hmem : fd ∈ v.clients.keys := by
    rw [hkeys]
    exact List.mem_append_right before List.mem_cons_self
  have hvisit := visit_keys data (outs fd) now hmem
  rw [if_neg hkept, hkeys] at hvisit
  have hnext : (v.visit fd data (outs fd) now).1.clients.next fd = some after.head? := by
    rw [ClientTable.next, hvisit]
    exact nextKey_append hnodup
  refine ⟨?_, ?_, fun k hk => ?_⟩
  · rw [Server.broadcastFrom]
    dsimp only
    rw [hnext]
  · rw [hvisit, List.append_assoc, List.singleton_append]
  · apply (visit_touches v fd data (outs fd) now).state
    intro he
    subst he
    exact (List.nodup_cons.mp (List.nodup_append.mp hnodup).2.1).1 hk

/-- The loop from an entry on, as far as it comes to its end: every `send_to` keeps the property. -/
theorem broadcastFrom_induction {P : Server → Prop} {u v v' : Server} {data : List UInt8} {outs : Fd → SendOutcome} {now : Int64}
    {before after : List Fd} {calls calls' : List Fd} (hkeys : u.clients.keys = before ++ after)
    (hsame : ∀ fd ∈ after, u.clients.state fd = v.clients.state fd ∧ u.conns fd = v.conns fd)
    (hdone : Server.broadcastFrom data outs now after.length u after.head? calls = .done v' calls') (hP : P u)
    (hsend : ∀ (u : Server) (fd : Fd), P u → fd ∈ u.clients.keys → u.clients.state fd = v.clients.state fd →
      u.conns fd = v.conns fd → (v.clients.state fd).phase = .live → ¬Drops (v.clients.state fd) data (outs fd) →
        P (u.afterSend fd ((v.clients.state fd).sendResult (v.conns fd) data (outs fd) now))) : P v' := by
  induction after generalizing u before calls with
  | nil =>
    cases hdone
    exact hP
  | cons fd after ih =>
    have hmem : fd ∈ u.clients.keys := by
      rw [hkeys]
      exact List.mem_append_right before List.mem_cons_self
    have hnodup := u.clients.nodup
    rw [hkeys] at hnodup
    have hfd : fd ∉ after := (List.nodup_cons.mp (List.nodup_append.mp hnodup).2.1).1
    obtain ⟨hstate, hconn⟩ := hsame fd List.mem_cons_self
    rw [List.length_cons, List.head?_cons] at hdone
    by_cases hdrop : (u.clients.state fd).phase = .live ∧ Drops (u.clients.state fd) data (outs fd)
    · rw [broadcastFrom_dropped now hmem hdrop] at hdone
      cases hdone
    · obtain ⟨hnext, hkeys', hlater⟩ := broadcastFrom_kept now hkeys hdrop after.length calls
      rw [hnext] at hdone
      refine ih hkeys' ?_ hdone ?_
      · intro k hk
        have hne : k ≠ fd := by
          intro he
          exact hfd (he ▸ hk)
        rw [hlater k hk, (visit_touches u fd data (outs fd) now).conns k hne]
        exact hsame k (List.mem_cons_of_mem fd hk)
      · unfold Server.visit
        by_cases hl : (u.clients.state fd).phase = .live
        · have hd : ¬Drops (u.clients.state fd) data (outs fd) := fun hd => hdrop ⟨hl, hd⟩
          rw [if_neg (not_not.mpr hl)]
          dsimp only
          rw [sendTo_stays now hmem hd]
          rw [hstate] at hl hd ⊢
          rw [hconn]
          exact hsend u fd hP hmem hstate hconn hl hd
        · rw [if_pos hl]
          exact hP

/-- What every `send_to` to a live client keeps, a broadcast that comes to its end keeps. -/
theorem broadcast_induction {P : Server → Prop} {v v' : Server} {data : List UInt8} {outs : Fd → SendOutcome} {now : Int64}
    {calls : List Fd} (hdone : v.broadcast data outs now = .done v' calls) (hP : P v)
    (hsend : ∀ (u : Server) (fd : Fd), P u → fd ∈ u.clients.keys → u.clients.state fd = v.clients.state fd →
      u.conns fd = v.conns fd → (v.clients.state fd).phase = .live → ¬Drops (v.clients.state fd) data (outs fd) →
        P (u.afterSend fd ((v.clients.state fd).sendResult (v.conns fd) data (outs fd) now))) : P v' :=
  broadcastFrom_induction (List.nil_append v.clients.keys).symm (fun _ _ => ⟨rfl, rfl⟩) hdone hP hsend

/-! ## How the loop ends -/

/-- The loop from an entry on, if no live entry from there on is dropped: it gets to the end, with a call for each of them. -/
theorem broadcastFrom_done {v : Server} {data : List UInt8} {outs : Fd → SendOutcome} (now : Int64) {before after : List Fd}
    (calls : List Fd) (hkeys : v.clients.keys = before ++ after)
    (hnone : ∀ fd ∈ after, ¬((v.clients.state fd).phase = .live ∧ Drops (v.clients.state fd) data (outs fd))) :
    ∃ v', Server.broadcastFrom data outs now after.length v after.head? calls =
      .done v' (calls ++ after.filter (fun fd => (v.clients.state fd).phase = .live)) := by
  induction after generalizing v before calls with
  | nil => exact ⟨v, by simp [Server.broadcastFrom]⟩
  | cons fd after ih =>
    obtain ⟨hnext, hkeys', hstate⟩ := broadcastFrom_kept now hkeys (hnone fd List.mem_cons_self) after.length calls
    have hrest : ∀ k ∈ after, ¬(((v.visit fd data (outs fd) now).1.clients.state k).phase = .live ∧
        Drops ((v.visit fd data (outs fd) now).1.clients.state k) data (outs k)) := by
      intro k hk
      rw [hstate k hk]
      exact hnone k (List.mem_cons_of_mem fd hk)
    have hsame : after.filter (fun k => ((v.visit fd data (outs fd) now).1.clients.state k).phase = .live) =
        after.filter (fun k => (v.clients.state k).phase = .live) :=
      List.filter_congr (fun k hk => by rw [hstate k hk])
    obtain ⟨v', hdone⟩ := ih (calls ++ (v.visit fd data (outs fd) now).2) hkeys' hrest
    refine ⟨v', ?_⟩
    rw [List.length_cons, List.head?_cons, hnext, hdone, hsame, visit_called, List.filter_cons, List.append_assoc]
    by_cases hl : (v.clients.state fd).phase = .live
    · simp [hl]
    · simp [hl]

/-- The loop from an entry on, if a live entry from there on is dropped: it comes to an erased entry. -/
theorem broadcastFrom_dangling {v : Server} {data : List UInt8} {outs : Fd → SendOutcome} (now : Int64)
    {before after : List Fd} (calls : List Fd) (hkeys : v.clients.keys = before ++ after)
    (hsome : ∃ fd ∈ after, (v.clients.state fd).phase = .live ∧ Drops (v.clients.state fd) data (outs fd)) :
    ∃ v' calls', Server.broadcastFrom data outs now after.length v after.head? calls = .dangling v' calls' := by
  induction after generalizing v before calls with
  | nil =>
    obtain ⟨fd, hmem, -⟩ := hsome
    cases hmem
  | cons fd after ih =>
    rw [List.length_cons, List.head?_cons]
    by_cases hdrop : (v.clients.state fd).phase = .live ∧ Drops (v.clients.state fd) data (outs fd)
    · have hmem : fd ∈ v.clients.keys := by
        rw [hkeys]
        exact List.mem_append_right before List.mem_cons_self
      exact ⟨_, _, broadcastFrom_dropped now hmem hdrop after.length calls⟩
    · obtain ⟨hnext, hkeys', hstate⟩ := broadcastFrom_kept now hkeys hdrop after.length calls
      rw [hnext]
      apply ih _ hkeys'
      obtain ⟨k, hk, hbad⟩ := hsome
      rcases List.mem_cons.mp hk with hk | hk
      · subst hk
        exact absurd hbad hdrop
      · exact ⟨k, hk, by rw [hstate k hk]; exact hbad⟩

end BroadcastAux

/-! ## When an operation can be taken -/

/-- No client is dropped by the broadcast. -/
def Server.DropsNone (v : Server) : ServerEvent → Prop
  | .broadcast data outs _ =>
    ∀ fd ∈ v.clients.keys, (v.clients.state fd).phase = .live → ¬Drops (v.clients.state fd) data (outs fd)
  | _ => True

/-- A connection is accepted on a descriptor that is not in the table. -/
def Server.AcceptsFresh (v : Server) : ServerEvent → Prop
  | .accept fd _ _ order => fd ∉ v.clients.keys ∧ order.Perm (fd :: v.clients.keys)
  | _ => True

instance (v : Server) : (e : ServerEvent) → Decidable (v.DropsNone e)
  | .broadcast .. => List.decidableBAll (fun _ => _ → _) _
  | .accept .. | .remove _ | .recv .. | .send .. | .flush .. | .tick => isTrue trivial

instance (v : Server) : (e : ServerEvent) → Decidable (v.AcceptsFresh e)
  | .accept .. => inferInstanceAs (Decidable (_ ∧ _))
  | .broadcast .. | .remove _ | .recv .. | .send .. | .flush .. | .tick => isTrue trivial

namespace BroadcastAux

/-- A broadcast that drops no client comes to its end. -/
theorem broadcast_done {v : Server} {data : List UInt8} {outs : Fd → SendOutcome} {now : Int64}
    (h : v.DropsNone (.broadcast data outs now)) : ∃ v' calls, v.broadcast data outs now = .done v' calls := by
  obtain ⟨v', hdone⟩ :=
    broadcastFrom_done now [] (List.nil_append v.clients.keys).symm (fun fd hmem hdrop => h fd hmem hdrop.1 hdrop.2)
  exact ⟨v', _, hdone⟩

/-- A broadcast that drops a client comes to an erased entry. -/
theorem broadcast_dangling {v : Server} {data : List UInt8} {outs : Fd → SendOutcome} {now : Int64}
    (h : ¬v.DropsNone (.broadcast data outs now)) : ∃ v' calls, v.broadcast data outs now = .dangling v' calls := by
  simp only [Server.DropsNone, not_forall, not_not] at h
  obtain ⟨fd, hmem, hlive, hdrop⟩ := h
  exact broadcastFrom_dangling now [] (List.nil_append v.clients.keys).symm ⟨fd, hmem, hlive, hdrop⟩

end BroadcastAux

open BroadcastAux

/-- An operation can be taken exactly when it does not accept a descriptor that is in use and does not drop a client in a broadcast. -/
theorem Server.step_iff (v : Server) (e : ServerEvent) : (∃ v', v.step e = some v') ↔ v.AcceptsFresh e ∧ v.DropsNone e := by
  cases e with
  | accept fd peerAddr now order =>
    simp only [Server.step, Server.AcceptsFresh, Server.DropsNone, and_true]
    split <;> rename_i hfresh
    · simp [hfresh]
    · simp only [hfresh, iff_false, not_exists]
      intro v' hv
      cases hv
  | broadcast data outs now =>
    simp only [Server.AcceptsFresh, true_and]
    constructor
    · rintro ⟨v', hv⟩
      by_contra hdrops
      obtain ⟨u, calls, hdangling⟩ := broadcast_dangling hdrops
      simp only [Server.step, hdangling] at hv
      cases hv
    · intro hnone
      obtain ⟨u, calls, hdone⟩ := broadcast_done hnone
      exact ⟨u, by simp only [Server.step, hdone]⟩
  | remove fd => exact iff_of_true ⟨_, rfl⟩ ⟨trivial, trivial⟩
  | recv fd data => exact iff_of_true ⟨_, rfl⟩ ⟨trivial, trivial⟩
  | send fd data out now => exact iff_of_true ⟨_, rfl⟩ ⟨trivial, trivial⟩
  | flush fd outs => exact iff_of_true ⟨_, rfl⟩ ⟨trivial, trivial⟩
  | tick => exact iff_of_true ⟨_, rfl⟩ ⟨trivial, trivial⟩

end MarketFeed
