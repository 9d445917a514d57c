import MarketFeed.Theorems.Descriptors

/-!
# What a step of the exchange does

Every step, by what it does to the system of the exchange and its clients and to the way of the connections towards the server: nothing,
a call that neither accepts nor receives, a connection accepted and then added, bytes received, or something that arrives.
-/

namespace MarketFeed

variable {n : NumSymbols} {c : Capacity} {P : Type}

/-- What a step does. -/
inductive ExchangeSys.Moves (prices : DisplayPrices P) (s t : ExchangeSys n c P) : ExchangeEvent → Prop where
  | goes {e : ExchangeEvent} (hfeed : t.feed = s.feed) (hupstream : t.upstream = s.upstream)
      (hpending : t.point.pending = s.point.pending) : Moves prices s t e
  | call {e : ExchangeEvent} (f : FeedEvent) (hfeed : s.feed.step prices f = some t.feed)
      (haccept : ∀ fd peerAddr now order numSymbols, f ≠ .accept fd peerAddr now order numSymbols)
      (hrecv : ∀ fd data, f ≠ .recv fd data) (hfits : s.FeedFits e → s.feed.FeedFits f) (hupstream : t.upstream = s.upstream)
      (hpending : t.point.pending = s.point.pending) : Moves prices s t e
  | accepted (fd : Fd) (ids : List UInt16) (hclosed : fd ∉ s.openFds) (hfeed : t.feed = s.feed)
      (hupstream : t.upstream = Function.update s.upstream fd { ids, arrived := 0, read := 0, fin := false })
      (hpending : t.point.pending = [fd]) : Moves prices s t (.accept (.accept (some (fd, ids))))
  | added (fd : Fd) (peerAddr : String) (now : Int64) (order : List Fd) (numSymbols : UInt16) (hs : s.point.pending = [fd])
      (hfeed : s.feed.step prices (.accept fd peerAddr now order numSymbols) = some t.feed) (hupstream : t.upstream = s.upstream)
      (hpending : t.point.pending = []) : Moves prices s t (.accept (.add peerAddr now order numSymbols))
  | received (fd : Fd) (k : Nat) (hk : k ≤ (s.upstream fd).unread.length) (hmem : fd ∈ s.keys)
      (hfeed : s.feed.step prices (.recv fd ((s.upstream fd).unread.take k)) = some t.feed)
      (hupstream : t.upstream = Function.update s.upstream fd { s.upstream fd with read := (s.upstream fd).read + k })
      (hpending : t.point.pending = []) : Moves prices s t (.accept (.recv (.bytes k)))
  | arrived {e : ExchangeEvent} (fd : Fd) (u : Upstream) (hfeed : t.feed = s.feed)
      (hupstream : t.upstream = Function.update s.upstream fd u)
      (hpending : t.point.pending = s.point.pending) (hids : u.ids = (s.upstream fd).ids) (hread : u.read = (s.upstream fd).read)
      (harrived : (s.upstream fd).arrived ≤ (subscriptionRequest u.ids).length →
        (s.upstream fd).arrived ≤ u.arrived ∧ u.arrived ≤ (subscriptionRequest u.ids).length) : Moves prices s t e

namespace AcceptMovesAux

open ExchangeSys DescriptorsAux

variable {prices : DisplayPrices P} {s t : ExchangeSys n c P}

/-- A call in a batch that removes, flushes or maintains. -/
theorem call_moves {e : ExchangeEvent} {f : FeedEvent} {point : AcceptPoint} (hs : s.call prices f point = some t)
    (haccept : ∀ fd peerAddr now order numSymbols, f ≠ .accept fd peerAddr now order numSymbols) (hrecv : ∀ fd data, f ≠ .recv fd data)
    (hclient : ∀ fd e, f ≠ .client fd e) (hpending : point.pending = s.point.pending) : s.Moves prices t e := by
  obtain ⟨feed, hfeed, rfl⟩ := Option.map_eq_some_iff.mp hs
  refine .call f hfeed haccept hrecv (fun _ => ?_) rfl hpending
  cases f with
  | client fd e => exact absurd rfl (hclient fd e)
  | _ => trivial

/-- A look at the next report of the batch. -/
theorem nextReport_moves {e : ExchangeEvent} {reports : List Report} (hp : s.point = .events reports)
    (hs : s.nextReport prices reports = some t) : s.Moves prices t e := by
  have hpending : s.point.pending = [] := by rw [hp]; rfl
  cases reports with
  | nil =>
    cases hs
    exact .goes rfl rfl hpending.symm
  | cons r rest =>
    rw [ExchangeSys.nextReport] at hs
    split at hs
    · cases hs
      exact .goes rfl rfl hpending.symm
    · split at hs
      · exact call_moves hs (by simp) (by simp) (by simp) hpending.symm
      · split at hs
        · cases hs
          exact .goes rfl rfl hpending.symm
        · split at hs <;> cases hs <;> exact .goes rfl rfl hpending.symm

/-- A return of `epoll_wait`. -/
theorem waitReturns_moves {e : ExchangeEvent} {result : ReportResult} (hp : s.point = .epollWait)
    (hs : s.waitReturns result = some t) : s.Moves prices t e := by
  have hpending : s.point.pending = [] := by rw [hp]; rfl
  cases result with
  | ready reports =>
    obtain ⟨-, hs⟩ := Option.ite_none_right_eq_some.mp hs
    cases hs
    exact .goes rfl rfl hpending.symm
  | interrupted | failed =>
    cases hs
    exact .goes rfl rfl hpending.symm

/-- A return of `accept4`. -/
theorem acceptReturns_moves {rest : List Report} {conn : Option (Fd × List UInt16)} (hp : s.point = .accept rest)
    (hs : s.acceptReturns rest conn = some t) : s.Moves prices t (.accept (.accept conn)) := by
  have hpending : s.point.pending = [] := by rw [hp]; rfl
  cases conn with
  | none =>
    cases hs
    exact .goes rfl rfl hpending.symm
  | some conn =>
    obtain ⟨⟨hclosed, -⟩, hs⟩ := Option.ite_none_right_eq_some.mp hs
    cases hs
    exact .accepted conn.1 conn.2 hclosed rfl rfl rfl

/-- A return of `recv`: the client it is for is in the table. -/
theorem recvReturns_moves {fd : Fd} {rest : List Report} {result : RecvResult} (h : Tracked s) (hp : s.point = .recv fd rest)
    (hmay : s.MayReceive fd result) (hs : s.recvReturns prices fd rest result = some t) :
    s.Moves prices t (.accept (.recv result)) := by
  have hpending : s.point.pending = [] := by rw [hp]; rfl
  cases result with
  | bytes k =>
    simp only [ExchangeSys.recvReturns] at hs
    obtain ⟨u, hu, rfl⟩ := Option.map_eq_some_iff.mp hs
    obtain ⟨feed, hfeed, rfl⟩ := Option.map_eq_some_iff.mp hu
    exact .received fd k hmay.2.2.1 (h.current fd (by rw [hp]; exact List.mem_singleton.mpr rfl)) hfeed rfl rfl
  | again =>
    cases hs
    exact .goes rfl rfl hpending.symm
  | eof | interrupted | failed => exact call_moves hs (by simp) (by simp) (by simp) hpending.symm

/-- Every step of the accept thread. -/
theorem acceptStep_moves {e : AcceptEvent} (h : Tracked s) (hs : s.acceptStep prices e = some t) : s.Moves prices t (.accept e) := by
  cases e with
  | step =>
    simp only [ExchangeSys.acceptStep] at hs
    split at hs <;> rename_i hp
    · cases hs
      refine .goes rfl rfl ?_
      rw [hp]
      dsimp only
      split <;> rfl
    · exact nextReport_moves hp hs
    · cases hs
      refine .goes rfl rfl ?_
      rw [hp]
      rfl
    · exact call_moves hs (by simp) (by simp) (by simp) (by rw [hp]; rfl)
    · cases hs
  | wait result =>
    simp only [ExchangeSys.acceptStep] at hs
    split at hs <;> rename_i hp
    · exact waitReturns_moves hp hs
    · cases hs
  | accept conn =>
    simp only [ExchangeSys.acceptStep] at hs
    split at hs <;> rename_i hp
    · exact acceptReturns_moves hp hs
    · cases hs
  | add peerAddr now order numSymbols =>
    simp only [ExchangeSys.acceptStep] at hs
    split at hs <;> rename_i hp
    · obtain ⟨feed, hfeed, rfl⟩ := Option.map_eq_some_iff.mp hs
      exact .added _ peerAddr now order numSymbols (by rw [hp]; rfl) hfeed rfl rfl
    · cases hs
  | flush outs =>
    simp only [ExchangeSys.acceptStep] at hs
    split at hs <;> rename_i hp
    · exact call_moves hs (by simp) (by simp) (by simp) (by rw [hp]; rfl)
    · cases hs
  | recv result =>
    simp only [ExchangeSys.acceptStep] at hs
    split at hs <;> rename_i hp
    · obtain ⟨hmay, hs⟩ := Option.ite_none_right_eq_some.mp hs
      exact recvReturns_moves h hp hmay hs
    · cases hs

/-- Every step. -/
theorem step_moves {e : ExchangeEvent} (h : Tracked s) (hs : s.step prices e = some t) : s.Moves prices t e := by
  cases e with
  | accept e => exact acceptStep_moves h hs
  | stop =>
    simp only [ExchangeSys.step, stopStep] at hs
    split at hs
    · obtain ⟨feed, hfeed, rfl⟩ := Option.map_eq_some_iff.mp hs
      exact .call _ hfeed (by simp) (by simp) (fun _ => trivial) rfl rfl
    · cases hs
      exact .goes rfl rfl rfl
  | tick e outs now =>
    obtain ⟨-, hs⟩ := Option.ite_none_left_eq_some.mp hs
    obtain ⟨feed, hfeed, rfl⟩ := Option.map_eq_some_iff.mp hs
    exact .call _ hfeed (by simp) (by simp) (fun _ => trivial) rfl rfl
  | client fd e =>
    obtain ⟨feed, hfeed, rfl⟩ := Option.map_eq_some_iff.mp hs
    exact .call _ hfeed (by simp) (by simp) id rfl rfl
  | arrive fd len =>
    obtain ⟨-, hs⟩ := Option.ite_none_left_eq_some.mp hs
    cases hs
    exact .arrived fd _ rfl rfl rfl rfl rfl fun hle => ⟨le_min (Nat.le_add_right _ _) hle, Nat.min_le_right _ _⟩
  | fin fd =>
    cases hs
    exact .arrived fd _ rfl rfl rfl rfl rfl fun hle => ⟨Nat.le_refl _, hle⟩

/-- What a step does to the system of the exchange and its clients is a step of it or nothing. -/
theorem Moves.feed {e : ExchangeEvent} (h : s.Moves prices t e) :
    t.feed = s.feed ∨ ∃ f, s.feed.step prices f = some t.feed ∧ (s.FeedFits e → s.feed.FeedFits f) := by
  cases h with
  | goes hfeed => exact .inl hfeed
  | call f hfeed haccept hrecv hfits => exact .inr ⟨f, hfeed, hfits⟩
  | accepted fd ids hclosed hfeed => exact .inl hfeed
  | added fd peerAddr now order numSymbols hs hfeed => exact .inr ⟨_, hfeed, fun _ => trivial⟩
  | received fd k hk hmem hfeed => exact .inr ⟨_, hfeed, fun _ => trivial⟩
  | arrived fd u hfeed => exact .inl hfeed

end AcceptMovesAux

end MarketFeed
