import MarketFeed.Lemmas.ClientSend
import MarketFeed.Socket

/-!
# The server reads the subscription the client sent

The request arrives in pieces of any sizes, and whatever follows it is ignored: `on_recv` decodes it with the call that completes it,
and only then.
-/

namespace MarketFeed

open Bytes

/-- The calls of `on_recv` for a client, one for each piece. -/
def Server.recvAll (v : Server) (fd : Fd) (chunks : List (List UInt8)) : Server :=
  chunks.foldl (fun v data => v.onRecv fd data) v

namespace SubscribeRoundTripAux

open ClientSendAux SocketAux

/-- The client after the bytes `got` of the request and what follows it: waiting with these bytes, or live with the ids decoded. -/
def Decoded (ids : List UInt16) (got : List UInt8) (cs : ClientState) : Prop :=
  if got.length < 3 + 2 * ids.length then cs.phase ≠ .live ∧ cs.recvBuf = got
  else cs.phase = .live ∧ cs.subscribedSymbols = ids.filter (fun id => id < maxSymbols) ∧ cs.subscribeAll = ids.isEmpty

/-- The decoded ids are the ids of the request, once it is in the buffer. -/
theorem map_readLE_request (ids : List UInt16) (buf rest extra : List UInt8) (hbuf : buf ++ rest = subscriptionRequest ids ++ extra)
    (hlen : 3 + 2 * ids.length ≤ buf.length) :
    (List.range ids.length).map (fun i => UInt16.ofNat (readLE (3 + i * 2) 2 buf)) = ids := by
  refine List.ext_getElem (by simp) (fun i _ hi => ?_)
  have hread : readLE (3 + i * 2) 2 (buf ++ rest) = readLE (3 + i * 2) 2 buf := readLE_append_right (by omega)
  rw [List.getElem_map, List.getElem_range, ← hread, hbuf, readLE_id ids extra hi, UInt16.ofNat_toNat]

/-- One call: as long as the request is not complete the bytes are kept, then it is decoded. -/
theorem Decoded.onRecv {ids : List UInt16} (hids : ids.length ≤ 65535) {got data rest extra : List UInt8} {cs : ClientState}
    (h : Decoded ids got cs) (hcut : got ++ data ++ rest = subscriptionRequest ids ++ extra) :
    Decoded ids (got ++ data) (cs.onRecv data) := by
  unfold Decoded at h
  by_cases hgot : got.length < 3 + 2 * ids.length
  · rw [if_pos hgot] at h
    obtain ⟨hphase, hbuf⟩ := h
    unfold ClientState.onRecv
    rw [if_neg hphase, hbuf]
    dsimp only
    split <;> rename_i hshort
    · -- the count field is not complete
      unfold Decoded
      rw [if_pos (by omega)]
      exact ⟨hphase, rfl⟩
    · have hfirst : (got ++ data)[0]? = some msgSubscribe := by
        have hget : (got ++ data ++ rest)[0]? = (got ++ data)[0]? := List.getElem?_append_left (by omega)
        rw [← hget, hcut]
        rfl
      have hcount : readLE 1 2 (got ++ data) = ids.length := by
        have hread : readLE 1 2 (got ++ data ++ rest) = readLE 1 2 (got ++ data) := readLE_append_right (by omega)
        rw [← hread, hcut, readLE_count hids]
      rw [if_neg (not_not.mpr hfirst), hcount]
      split <;> rename_i hwait
      · -- an id is not complete
        unfold Decoded
        rw [if_pos (by omega)]
        exact ⟨hphase, rfl⟩
      · unfold Decoded
        rw [if_neg (by omega)]
        refine ⟨rfl, ?_, ?_⟩
        · dsimp only
          rw [map_readLE_request ids (got ++ data) rest extra hcut (by omega)]
        · cases ids <;> simp
  · rw [if_neg hgot] at h
    obtain ⟨hphase, hdecoded⟩ := h
    unfold ClientState.onRecv
    rw [if_pos hphase]
    unfold Decoded
    rw [if_neg (by rw [List.length_append]; omega)]
    exact ⟨hphase, hdecoded⟩

/-- Any number of calls, from a client that has the bytes `got`. -/
theorem Decoded.recvAll {ids : List UInt16} (hids : ids.length ≤ 65535) {fd : Fd} {extra : List UInt8} {chunks : List (List UInt8)} :
    ∀ {got rest : List UInt8} {v : Server} {cs : ClientState}, v.clients.find fd = some cs → Decoded ids got cs →
      got ++ chunks.flatten ++ rest = subscriptionRequest ids ++ extra →
        ∃ cs', (v.recvAll fd chunks).clients.find fd = some cs' ∧ Decoded ids (got ++ chunks.flatten) cs' := by
  induction chunks with
  | nil =>
    intro got rest v cs hfind h _
    exact ⟨cs, hfind, by simpa using h⟩
  | cons data chunks ih =>
    intro got rest v cs hfind h hcut
    have hcut' : got ++ data ++ (chunks.flatten ++ rest) = subscriptionRequest ids ++ extra := by
      rw [← hcut, List.flatten_cons]
      simp only [List.append_assoc]
    have hfind' : (v.onRecv fd data).clients.find fd = some (cs.onRecv data) := by
      obtain ⟨hmem, -⟩ := find_eq_some hfind
      unfold Server.onRecv
      rw [hfind]
      exact (find_of_mem (t := (v.setClient fd (cs.onRecv data)).clients) hmem).trans
        (congrArg some (setClient_state_self v fd (cs.onRecv data)))
    have hrest : got ++ data ++ chunks.flatten ++ rest = subscriptionRequest ids ++ extra := by
      rw [← hcut', List.append_assoc]
    obtain ⟨cs', hcs', hdecoded⟩ := ih hfind' (h.onRecv hids hcut') hrest
    refine ⟨cs', hcs', ?_⟩
    rw [List.flatten_cons, ← List.append_assoc]
    exact hdecoded

/-- A client just added has nothing yet. -/
theorem find_addClient {v : Server} {fd : Fd} {order : List Fd} (horder : order.Perm (fd :: v.clients.keys))
    (hfresh : fd ∉ v.clients.keys) (peerAddr : String) (now : Int64) :
    (v.addClient fd peerAddr now order).clients.find fd = some { fd, connectedAt := now, lastSend := now, peerAddr } := by
  have hnodup : order.Nodup := horder.nodup_iff.mpr (List.nodup_cons.mpr ⟨hfresh, v.clients.nodup⟩)
  have hmem : fd ∈ order := horder.mem_iff.mpr List.mem_cons_self
  simp [Server.addClient, ClientTable.emplace, ClientTable.find, hnodup, hmem]

end SubscribeRoundTripAux

open SubscribeRoundTripAux

/-- For every list of at most 65535 ids and every way of cutting the request for them, and anything that follows it, into calls of
`on_recv` for a client just added: after any number of these calls the client is live if and only if the whole request has arrived,
and then it has the ids of the request below `MAX_SYMBOLS` in their order, and receives all symbols exactly when no id was sent. -/
theorem subscription_round_trip (ids : List UInt16) (hids : ids.length ≤ 65535) (extra : List UInt8) (chunks : List (List UInt8))
    (hcut : chunks.flatten = subscriptionRequest ids ++ extra) (v : Server) (fd : Fd) (hfresh : fd ∉ v.clients.keys) (order : List Fd)
    (horder : order.Perm (fd :: v.clients.keys)) (peerAddr : String) (now : Int64) (n : Nat) :
    ∃ cs, ((v.addClient fd peerAddr now order).recvAll fd (chunks.take n)).clients.find fd = some cs ∧
      (cs.phase = .live ↔ 3 + 2 * ids.length ≤ (chunks.take n).flatten.length) ∧
      (cs.phase = .live → cs.subscribedSymbols = ids.filter (fun id => id < maxSymbols) ∧ (cs.subscribeAll = true ↔ ids = [])) := by
  have hstart : Decoded ids [] { fd, connectedAt := now, lastSend := now, peerAddr } := by
    unfold Decoded
    rw [if_pos (by simp)]
    exact ⟨nofun, rfl⟩
  have hsplit : [] ++ (chunks.take n).flatten ++ (chunks.drop n).flatten = subscriptionRequest ids ++ extra := by
    rw [List.nil_append, ← List.flatten_append, List.take_append_drop, hcut]
  obtain ⟨cs, hcs, hdecoded⟩ := hstart.recvAll hids (find_addClient horder hfresh peerAddr now) hsplit
  rw [List.nil_append] at hdecoded
  refine ⟨cs, hcs, ?_⟩
  unfold Decoded at hdecoded
  split at hdecoded <;> rename_i harrived
  · obtain ⟨hphase, -⟩ := hdecoded
    exact ⟨⟨fun hlive => absurd hlive hphase, fun hle => absurd harrived (Nat.not_lt.mpr hle)⟩, fun hlive => absurd hlive hphase⟩
  · obtain ⟨hphase, hsymbols, hall⟩ := hdecoded
    refine ⟨⟨fun _ => Nat.not_lt.mp harrived, fun _ => hphase⟩, fun _ => ⟨hsymbols, ?_⟩⟩
    rw [hall, List.isEmpty_iff]

namespace SubscribeRoundTripAux

/-- The request for three ids, cut inside the count and inside an id, with two bytes behind it. -/
def pieces : List (List UInt8) := [[0xFF, 3], [0, 7, 0, 0xF4], [1, 7, 0], [9, 9]]

end SubscribeRoundTripAux

/-- The pieces `pieces`, the third of which completes the request; of the ids 7, 500, 7 the second is filtered out. -/
theorem subscription_round_trip_pieces :
    ∃ cs, ((Server.empty.addClient 5 "10.0.0.1:4000" 1 [5]).recvAll 5 (pieces.take 3)).clients.find 5 = some cs ∧
      cs.phase = .live ∧ cs.subscribedSymbols = [7, 7] := by
  obtain ⟨cs, hcs, hlive, hids⟩ := subscription_round_trip [7, 500, 7] (by decide) [9, 9] pieces (by decide) Server.empty 5 nofun [5]
    List.Perm.rfl "10.0.0.1:4000" 1 3
  have hphase : cs.phase = .live := hlive.mpr (by decide)
  exact ⟨cs, hcs, hphase, (hids hphase).1⟩

end MarketFeed
