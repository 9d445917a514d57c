import MarketFeed.Lemmas.ClientBroadcast

/-!
# Broadcast and dropped clients

`send_to` erases a client that it drops from the map that `broadcast` is iterating over, while the loop stands at that client. The
increment that follows is then made on an erased node. So a broadcast gets through its clients exactly when it drops none of
them.
-/

namespace MarketFeed

open ClientSendAux

/-- `broadcast` reaches `end()` without an increment from an erased entry, and calls `send_to` once for every client that is live
on entry and for no other. -/
def Server.BroadcastsOnce (v : Server) (data : List UInt8) (outs : Fd → SendOutcome) (now : Int64) : Prop :=
  ∃ v' calls, v.broadcast data outs now = .done v' calls ∧ ∀ fd, calls.count fd = if v.IsLive fd then 1 else 0

namespace BroadcastAux

/-- The live entries, each once. -/
theorem count_live (v : Server) (fd : Fd) :
    (v.clients.keys.filter (fun fd => (v.clients.state fd).phase = .live)).count fd = if v.IsLive fd then 1 else 0 := by
  have hnodup := v.clients.nodup.filter (fun fd => (v.clients.state fd).phase = .live)
  have hiff : fd ∈ v.clients.keys.filter (fun fd => (v.clients.state fd).phase = .live) ↔ v.IsLive fd := by
    simp [Server.IsLive]
  by_cases hl : v.IsLive fd
  · rw [if_pos hl]
    exact List.count_eq_one_of_mem hnodup (hiff.mpr hl)
  · rw [if_neg hl]
    exact List.count_eq_zero_of_not_mem (fun h => hl (hiff.mp h))

end BroadcastAux

open BroadcastAux

/-- `broadcast` serves every live client once and never increments an erased iterator exactly when no live client is dropped by its
`send_to`: none has a backlog that the message takes over the limit, and the `send` to none without a backlog fails for good. -/
theorem broadcast_iff_no_drop (v : Server) (data : List UInt8) (outs : Fd → SendOutcome) (now : Int64) :
    v.BroadcastsOnce data outs now ↔ ∀ fd, v.IsLive fd → ¬Drops (v.clients.state fd) data (outs fd) := by
  constructor
  · rintro ⟨v', calls, hdone, -⟩ fd hlive hdrop
    have hdrops : ¬v.DropsNone (.broadcast data outs now) := fun hnone => hnone fd hlive.1 hlive.2 hdrop
    obtain ⟨v'', calls', hdangling⟩ := broadcast_dangling hdrops
    rw [hdangling] at hdone
    cases hdone
  · intro hnone
    obtain ⟨v', hdone⟩ := broadcastFrom_done now [] (List.nil_append v.clients.keys).symm
      (fun fd hmem hbad => hnone fd ⟨hmem, hbad.1⟩ hbad.2)
    exact ⟨v', _, hdone, count_live v⟩

namespace BroadcastAux

/-- One live client. -/
def oneClient : Server := (Server.empty.addClient 5 "10.0.0.1:4000" 1 [5]).onRecv 5 [1, 2, 3]

end BroadcastAux

/-- One live client whose connection has been reset: `broadcast` increments the iterator of the entry that `send_to` erased. -/
theorem broadcast_reset_client : ¬oneClient.BroadcastsOnce [1, 2, 3, 4] (fun _ => .error) 2 := by
  rintro ⟨v', calls, hdone, -⟩
  have hdangling : (match oneClient.broadcast [1, 2, 3, 4] (fun _ => .error) 2 with
      | .dangling _ _ => true
      | _ => false) = true := by decide +kernel
  rw [hdone] at hdangling
  cases hdangling

end MarketFeed
