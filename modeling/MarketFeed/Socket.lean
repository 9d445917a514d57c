import MarketFeed.ClientManager

/-!
# The subscription request

`MarketDataSocket::send_subscription` of `src/client/socket.cpp`, on a connected socket: the request `[0xFF][count][id ...]` and the
loop that sends it. The socket blocks, so what a `send` returns short of everything is a positive count or an error.
-/

namespace MarketFeed

open Bytes

/-- The bytes of the request. The count is a `uint16_t`. -/
def subscriptionRequest (symbolIds : List UInt16) : List UInt8 :=
  msgSubscribe :: (leBytes 2 (UInt16.ofNat symbolIds.length).toNat ++ symbolIds.flatMap (fun id => leBytes 2 id.toNat))

/-- The send loop, with the bytes that are left: what the kernel accepts of them, and whether it was all. -/
def sendRest (rest : List UInt8) (outs : Nat → SendOutcome) : List UInt8 × Bool :=
  if rest = [] then ([], true)
  else
    match outs 0 with
    | .accept k =>
      let sent := min (k + 1) rest.length
      let r := sendRest (rest.drop sent) (fun i => outs (i + 1))
      (rest.take sent ++ r.1, r.2)
    | .again => ([], false)
    | .error => ([], false)
termination_by rest.length
decreasing_by
  rename_i hne
  have : 0 < rest.length := List.length_pos_iff.mpr hne
  rw [List.length_drop]
  omega

/-- `send_subscription`. -/
def sendSubscription (symbolIds : List UInt16) (outs : Nat → SendOutcome) : List UInt8 × Bool :=
  sendRest (subscriptionRequest symbolIds) outs

namespace SocketAux

/-- What is sent is the front of the request. -/
theorem sendRest_spec (rest : List UInt8) (outs : Nat → SendOutcome) :
    (sendRest rest outs).1 <+: rest ∧ ((sendRest rest outs).2 = true → (sendRest rest outs).1 = rest) := by
  induction rest, outs using sendRest.induct with
  | case1 outs =>
    rw [sendRest]
    exact ⟨List.prefix_rfl, fun _ => rfl⟩
  | case2 rest outs hne k hout sent ih =>
    obtain ⟨⟨tail, htail⟩, hall⟩ := ih
    rw [sendRest, if_neg hne, hout]
    dsimp only
    constructor
    · refine ⟨tail, ?_⟩
      rw [List.append_assoc, htail, List.take_append_drop]
    · intro hok
      rw [hall hok, List.take_append_drop]
  | case3 rest outs hne hout =>
    rw [sendRest, if_neg hne, hout]
    exact ⟨List.nil_prefix, nofun⟩
  | case4 rest outs hne hout =>
    rw [sendRest, if_neg hne, hout]
    exact ⟨List.nil_prefix, nofun⟩

theorem length_subscriptionRequest (symbolIds : List UInt16) :
    (subscriptionRequest symbolIds).length = 3 + 2 * symbolIds.length := by
  simp [subscriptionRequest, List.length_flatMap]
  omega

/-- The count field holds the number of ids, up to 65535 of them. -/
theorem readLE_count {symbolIds : List UInt16} (hcount : symbolIds.length ≤ 65535) (bs : List UInt8) :
    readLE 1 2 (subscriptionRequest symbolIds ++ bs) = symbolIds.length := by
  have hlt : symbolIds.length % 65536 < 256 ^ 2 := by omega
  have hcons : subscriptionRequest symbolIds ++ bs =
      [msgSubscribe] ++ (leBytes 2 (symbolIds.length % 65536) ++ (symbolIds.flatMap (fun id => leBytes 2 id.toNat) ++ bs)) := by
    simp [subscriptionRequest]
  rw [hcons, readLE_append_left (by simp)]
  exact (readLE_leBytes _ hlt).trans (by omega)

/-- The `i`-th field of a list of two-byte fields. -/
theorem readLE_flatMap (symbolIds : List UInt16) (bs : List UInt8) {i : Nat} (hi : i < symbolIds.length) :
    readLE (i * 2) 2 (symbolIds.flatMap (fun id => leBytes 2 id.toNat) ++ bs) = symbolIds[i].toNat := by
  induction symbolIds generalizing i with
  | nil => exact absurd hi (Nat.not_lt_zero i)
  | cons id ids ih =>
    rw [List.flatMap_cons, List.append_assoc]
    cases i with
    | zero => exact readLE_leBytes _ id.toNat_lt
    | succ i =>
      rw [ProtocolAux.readLE_behind (by omega), show (i + 1) * 2 - 2 = i * 2 by omega]
      exact ih (Nat.lt_of_succ_lt_succ hi)

/-- The `i`-th id is read back where `on_recv` looks for it. -/
theorem readLE_id (symbolIds : List UInt16) (bs : List UInt8) {i : Nat} (hi : i < symbolIds.length) :
    readLE (3 + i * 2) 2 (subscriptionRequest symbolIds ++ bs) = symbolIds[i].toNat := by
  have hcons : subscriptionRequest symbolIds ++ bs = (msgSubscribe :: leBytes 2 (UInt16.ofNat symbolIds.length).toNat) ++
      (symbolIds.flatMap (fun id => leBytes 2 id.toNat) ++ bs) := by
    simp [subscriptionRequest]
  rw [hcons, readLE_append_left (by simp), List.length_cons, length_leBytes, Nat.add_sub_cancel_left]
  exact readLE_flatMap symbolIds bs hi

end SocketAux

/-- Whatever each `send` does, the bytes on the wire are the front of the request, and all of it when `send_subscription` returns
true. -/
theorem sendSubscription_sends (symbolIds : List UInt16) (outs : Nat → SendOutcome) :
    (sendSubscription symbolIds outs).1 <+: subscriptionRequest symbolIds ∧
      ((sendSubscription symbolIds outs).2 = true → (sendSubscription symbolIds outs).1 = subscriptionRequest symbolIds) :=
  SocketAux.sendRest_spec _ outs

end MarketFeed
