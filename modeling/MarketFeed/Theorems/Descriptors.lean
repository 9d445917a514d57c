import MarketFeed.AcceptLoop
import MarketFeed.Theorems.EndToEnd

/-!
# Descriptors

Three places know of the descriptors of the server: the kernel, the epoll set and the table of clients. `accept_loop` registers a
descriptor before it adds the client, `remove_client` takes all three back, and a batch of reports is worked through while both go on.
A report is never looked at when its connection has gone, and no descriptor stays behind without its client. That is so as long as no
broadcast drops a client: the tick thread would then close a descriptor that the accept thread may still have a report of.
-/

namespace MarketFeed

/-- The connection that has been accepted and is not in the table yet. -/
def AcceptPoint.pending : AcceptPoint → List Fd
  | .register fd _ | .addClient fd _ => [fd]
  | _ => []

/-- The one that is in the epoll set already. -/
def AcceptPoint.registered : AcceptPoint → List Fd
  | .addClient fd _ => [fd]
  | _ => []

/-- The descriptor whose report is being handled. -/
def AcceptPoint.current : AcceptPoint → List Fd
  | .flush fd _ | .recv fd _ => [fd]
  | _ => []

/-- The calls on the manager that a step makes. -/
def FeedEvent.Calls : FeedEvent → ServerEvent → Prop
  | .tick _ outs now, call => ∃ data, call = .broadcast data outs now
  | .accept fd peerAddr now order _, call => call = .accept fd peerAddr now order
  | .remove fd, call => call = .remove fd
  | .recv fd data, call => call = .recv fd data
  | .flush fd outs, call => call = .flush fd outs
  | .maintain, call => call = .tick
  | .client _ _, _ => False

variable {n : NumSymbols} {c : Capacity} {P : Type}

/-- The keys of the table. -/
def ExchangeSys.keys (s : ExchangeSys n c P) : List Fd := s.feed.server.clients.keys

namespace DescriptorsAux

open ExchangeSys

/-- What the kernel, the epoll set and the batch have to do with the table. -/
structure Tracked (s : ExchangeSys n c P) : Prop where
  listen : s.listenFd ∉ s.keys
  fresh : ∀ fd ∈ s.point.pending, fd ≠ s.listenFd ∧ fd ∉ s.keys
  openFds : ∀ fd, fd ∈ s.openFds ↔ fd = s.listenFd ∨ fd ∈ s.keys ∨ fd ∈ s.point.pending
  watched : ∀ fd, fd ∈ s.watched ↔ fd = s.listenFd ∨ fd ∈ s.keys ∨ fd ∈ s.point.registered
  nodup : (s.point.current ++ s.point.rest.map Report.fd).Nodup
  current : ∀ fd ∈ s.point.current, fd ∈ s.keys
  batch : ∀ r ∈ s.point.rest, r.fd ≠ s.listenFd → r.fd ∈ s.keys ∧ r.connection = s.accepted r.fd

/-! ## What a step asks of the manager -/

/-- What every broadcast of a step keeps, the step keeps. -/
theorem broadcastAll_induction {I : Server → Prop} {outs : Fd → SendOutcome} {now : Int64} {es : List Emitted} {v v' : Server}
    (h : v.broadcastAll outs now es = some v') (hI : I v)
    (hstep : ∀ u data u', I u → u.step (.broadcast data outs now) = some u' → I u') : I v' := by
  induction es generalizing v with
  | nil =>
    cases h
    exact hI
  | cons e es ih =>
    obtain ⟨v₁, hv₁, h'⟩ := Option.bind_eq_some_iff.mp h
    exact ih h' (hstep v _ v₁ hI hv₁)

/-- What every call of a step keeps, the step keeps. -/
theorem feed_induction {prices : DisplayPrices P} {I : Server → Prop} {f f' : FeedSys n c P} {e : FeedEvent}
    (hs : f.step prices e = some f') (hI : I f.server)
    (hstep : ∀ v call v', I v → e.Calls call → v.step call = some v' → I v') : I f'.server := by
  cases e with
  | tick e outs now =>
    obtain ⟨loop, -, hs⟩ := Option.bind_eq_some_iff.mp hs
    obtain ⟨server, hserver, rfl⟩ := Option.map_eq_some_iff.mp hs
    exact broadcastAll_induction hserver hI fun v data v' hv => hstep v _ v' hv ⟨data, rfl⟩
  | client k e =>
    obtain ⟨cl, -, rfl⟩ := Option.map_eq_some_iff.mp hs
    exact hI
  | accept fd peerAddr now order numSymbols =>
    obtain ⟨server, hserver, rfl⟩ := Option.map_eq_some_iff.mp hs
    exact hstep _ _ _ hI rfl hserver
  | recv fd data =>
    simp only [FeedSys.step] at hs
    obtain ⟨server, hserver, rfl⟩ := Option.map_eq_some_iff.mp hs
    exact hstep _ _ _ hI rfl hserver
  | remove fd =>
    simp only [FeedSys.step] at hs
    obtain ⟨server, hserver, rfl⟩ := Option.map_eq_some_iff.mp hs
    exact hstep _ _ _ hI rfl hserver
  | flush fd outs =>
    simp only [FeedSys.step] at hs
    obtain ⟨server, hserver, rfl⟩ := Option.map_eq_some_iff.mp hs
    exact hstep _ _ _ hI rfl hserver
  | maintain =>
    simp only [FeedSys.step] at hs
    obtain ⟨server, hserver, rfl⟩ := Option.map_eq_some_iff.mp hs
    exact hstep _ _ _ hI rfl hserver

/-- A call that does not accept a connection takes out the client it removes, the maintenance some, and adds none. -/
theorem call_keys {v v' : Server} {call : ServerEvent} (hs : v.step call = some v')
    (haccept : ∀ fd peerAddr now order, call ≠ .accept fd peerAddr now order) (hsend : ∀ fd data out now, call ≠ .send fd data out now) :
    (∀ fd ∈ v'.clients.keys, fd ∈ v.clients.keys) ∧
      ∀ fd ∈ v.clients.keys, call ≠ .remove fd → call ≠ .tick → fd ∈ v'.clients.keys := by
  have hsame (h : v'.clients.keys = v.clients.keys) : (∀ fd ∈ v'.clients.keys, fd ∈ v.clients.keys) ∧
      ∀ fd ∈ v.clients.keys, call ≠ .remove fd → call ≠ .tick → fd ∈ v'.clients.keys := by
    rw [h]
    exact ⟨fun _ h => h, fun _ h _ _ => h⟩
  cases call with
  | accept fd peerAddr now order => exact absurd rfl (haccept fd peerAddr now order)
  | send fd data out now => exact absurd rfl (hsend fd data out now)
  | remove k =>
    cases hs
    refine ⟨(ClientSendAux.Touches.refl k v).removeClient.keys, fun fd hmem hne _ => ?_⟩
    have hk : fd ≠ k := by
      rintro rfl
      exact hne rfl
    unfold Server.removeClient
    split
    · exact (List.mem_erase_of_ne hk).mpr hmem
    · exact hmem
  | recv k data =>
    cases hs
    exact hsame (ClientRunsAux.onRecv_keys v k data)
  | broadcast data outs now =>
    simp only [Server.step] at hs
    split at hs <;> rename_i hb <;> cases hs
    exact hsame (ClientRunsAux.broadcast_keys hb)
  | flush k outs =>
    cases hs
    exact hsame (ClientRunsAux.flushPending_keys v k outs)
  | tick =>
    cases hs
    exact ⟨ClientRunsAux.tick_keys v, fun _ _ _ h => absurd rfl h⟩

/-- No step calls `send_to` by itself. -/
theorem calls_ne_send {e : FeedEvent} {call : ServerEvent} (h : e.Calls call) (fd : Fd) (data : List UInt8) (out : SendOutcome)
    (now : Int64) : call ≠ .send fd data out now := by
  rintro rfl
  cases e <;> simp [FeedEvent.Calls] at h

/-- A step that accepts nobody takes clients out of the table at most, and only when it removes one or at the maintenance. -/
theorem feed_keys {prices : DisplayPrices P} {f f' : FeedSys n c P} {e : FeedEvent} (hs : f.step prices e = some f')
    (haccept : ∀ fd peerAddr now order numSymbols, e ≠ .accept fd peerAddr now order numSymbols) :
    (∀ fd ∈ f'.server.clients.keys, fd ∈ f.server.clients.keys) ∧
      ∀ fd ∈ f.server.clients.keys, e ≠ .remove fd → e ≠ .maintain → fd ∈ f'.server.clients.keys := by
  refine feed_induction (I := fun v => (∀ fd ∈ v.clients.keys, fd ∈ f.server.clients.keys) ∧
    ∀ fd ∈ f.server.clients.keys, e ≠ .remove fd → e ≠ .maintain → fd ∈ v.clients.keys) hs ⟨fun _ h => h, fun _ h _ _ => h⟩ ?_
  intro v call v' hv hcall hv'
  have hne : ∀ fd peerAddr now order, call ≠ .accept fd peerAddr now order := by
    rintro fd peerAddr now order rfl
    cases e with
    | accept fd peerAddr now order numSymbols => exact haccept fd peerAddr now order numSymbols rfl
    | _ => simp [FeedEvent.Calls] at hcall
  obtain ⟨hsub, hkept⟩ := call_keys hv' hne (calls_ne_send hcall)
  refine ⟨fun fd hmem => hv.1 fd (hsub fd hmem), fun fd hmem hremove hmaintain => hkept fd (hv.2 fd hmem hremove hmaintain) ?_ ?_⟩
  · rintro rfl
    cases e with
    | remove k =>
      cases hcall
      exact hremove rfl
    | _ => simp [FeedEvent.Calls] at hcall
  · rintro rfl
    cases e with
    | maintain => exact hmaintain rfl
    | _ => simp [FeedEvent.Calls] at hcall

/-! ## The steps -/

/-- A step of the accept thread that leaves the table, the epoll set and the connections as they are, and goes on in the batch. -/
theorem Tracked.goes {s t : ExchangeSys n c P} (h : Tracked s) (hfeed : t.feed = s.feed) (hlisten : t.listenFd = s.listenFd)
    (hopen : t.openFds = s.openFds) (hwatched : t.watched = s.watched) (haccepted : t.accepted = s.accepted)
    (hpending : t.point.pending = s.point.pending) (hregistered : t.point.registered = s.point.registered)
    (hnodup : (t.point.current ++ t.point.rest.map Report.fd).Nodup) (hcurrent : ∀ fd ∈ t.point.current, fd ∈ s.keys)
    (hbatch : ∀ r ∈ t.point.rest, r.fd ≠ s.listenFd → r.fd ∈ s.keys ∧ r.connection = s.accepted r.fd) : Tracked t := by
  have hkeys : t.keys = s.keys := by
    unfold ExchangeSys.keys
    rw [hfeed]
  refine ⟨?_, ?_, fun fd => ?_, fun fd => ?_, hnodup, ?_, ?_⟩
  · rw [hlisten, hkeys]
    exact h.listen
  · rw [hpending, hlisten, hkeys]
    exact h.fresh
  · rw [hopen, hlisten, hkeys, hpending]
    exact h.openFds fd
  · rw [hwatched, hlisten, hkeys, hregistered]
    exact h.watched fd
  · rw [hkeys]
    exact hcurrent
  · rw [hlisten, hkeys, haccepted]
    exact hbatch

/-- Between the batches. -/
theorem Tracked.between {s : ExchangeSys n c P} {point : AcceptPoint} (h : Tracked s) (hpending : s.point.pending = [])
    (hregistered : s.point.registered = [])
    (hpoint : point.pending = [] ∧ point.registered = [] ∧ point.current = [] ∧ point.rest = []) : Tracked { s with point := point } := by
  obtain ⟨hpending', hregistered', hcurrent, hrest⟩ := hpoint
  refine h.goes rfl rfl rfl rfl rfl (hpending'.trans hpending.symm) (hregistered'.trans hregistered.symm) ?_ ?_ ?_ <;> dsimp only
  · rw [hcurrent, hrest]
    exact .nil
  · rw [hcurrent]
    exact fun _ hfd => absurd hfd List.not_mem_nil
  · rw [hrest]
    exact fun _ hr => absurd hr List.not_mem_nil

/-- A call on the manager that accepts no connection. -/
theorem Tracked.call {prices : DisplayPrices P} {s : ExchangeSys n c P} {feed : FeedSys n c P} {e : FeedEvent} {point : AcceptPoint}
    (h : Tracked s) (hs : s.feed.step prices e = some feed)
    (haccept : ∀ fd peerAddr now order numSymbols, e ≠ .accept fd peerAddr now order numSymbols)
    (hpending : point.pending = s.point.pending) (hregistered : point.registered = s.point.registered)
    (hnodup : (point.current ++ point.rest.map Report.fd).Nodup) (hcurrent : ∀ fd ∈ point.current, fd ∈ feed.server.clients.keys)
    (hbatch : ∀ r ∈ point.rest, r ∈ s.point.rest ∧ (r.fd ∈ s.keys → r.fd ∈ feed.server.clients.keys)) :
    Tracked { s.manage feed with point := point } := by
  obtain ⟨hsub, -⟩ := feed_keys hs haccept
  have hfilter : ∀ (fds : List Fd) (fd : Fd), fd ∈ fds.filter (fun fd => fd ∉ s.feed.server.clients.keys ∨ fd ∈ feed.server.clients.keys) ↔
      fd ∈ fds ∧ (fd ∈ s.keys → fd ∈ feed.server.clients.keys) := by
    intro fds fd
    rw [List.mem_filter, decide_eq_true_eq, ← imp_iff_not_or]
    exact Iff.rfl
  refine ⟨fun hmem => h.listen (hsub _ hmem), ?_, fun fd => ?_, fun fd => ?_, hnodup, hcurrent, ?_⟩
  · intro fd hmem
    dsimp only at hmem
    rw [hpending] at hmem
    exact ⟨(h.fresh fd hmem).1, fun hk => (h.fresh fd hmem).2 (hsub fd hk)⟩
  · dsimp only [manage, ExchangeSys.keys]
    rw [hfilter, h.openFds, hpending]
    constructor
    · rintro ⟨hl | hk | hp, hkept⟩
      · exact .inl hl
      · exact .inr (.inl (hkept hk))
      · exact .inr (.inr hp)
    · rintro (hl | hk | hp)
      · exact ⟨.inl hl, fun hmem => absurd (hl ▸ hmem) h.listen⟩
      · exact ⟨.inr (.inl (hsub fd hk)), fun _ => hk⟩
      · exact ⟨.inr (.inr hp), fun hmem => absurd hmem (h.fresh fd hp).2⟩
  · dsimp only [manage, ExchangeSys.keys]
    rw [hfilter, h.watched, hregistered]
    have hpend : fd ∈ s.point.registered → fd ∈ s.point.pending := by
      cases s.point <;> simp [AcceptPoint.registered, AcceptPoint.pending]
    constructor
    · rintro ⟨hl | hk | hp, hkept⟩
      · exact .inl hl
      · exact .inr (.inl (hkept hk))
      · exact .inr (.inr hp)
    · rintro (hl | hk | hp)
      · exact ⟨.inl hl, fun hmem => absurd (hl ▸ hmem) h.listen⟩
      · exact ⟨.inr (.inl (hsub fd hk)), fun _ => hk⟩
      · exact ⟨.inr (.inr hp), fun hmem => absurd hmem (h.fresh fd (hpend hp)).2⟩
  · intro r hr hl
    obtain ⟨hmem, hkept⟩ := hbatch r hr
    obtain ⟨hk, hconn⟩ := h.batch r hmem hl
    exact ⟨hkept hk, hconn⟩

/-- What is due in a batch whose first entry has been looked at. -/
theorem Tracked.tail {s : ExchangeSys n c P} {r : Report} {rest : List Report} (h : Tracked s) (hp : s.point = .events (r :: rest)) :
    r.fd ∉ rest.map Report.fd ∧ (rest.map Report.fd).Nodup ∧ (r.fd ≠ s.listenFd → r.fd ∈ s.keys) ∧
      ∀ q ∈ rest, q.fd ≠ s.listenFd → q.fd ∈ s.keys ∧ q.connection = s.accepted q.fd := by
  have hnodup := h.nodup
  have hbatch := h.batch
  rw [hp] at hnodup hbatch
  obtain ⟨hr, hrest⟩ := List.nodup_cons.mp hnodup
  exact ⟨hr, hrest, fun hl => (hbatch r List.mem_cons_self hl).1, fun q hq => hbatch q (List.mem_cons_of_mem r hq)⟩

/-- `remove_client` for the descriptor of a report: the reports behind it are about others. -/
theorem Tracked.remove {prices : DisplayPrices P} {s t : ExchangeSys n c P} {fd : Fd} {rest : List Report} (h : Tracked s)
    (hfd : fd ∉ rest.map Report.fd) (hnodup : (rest.map Report.fd).Nodup) (hrest : ∀ r ∈ rest, r ∈ s.point.rest)
    (hpending : s.point.pending = []) (hregistered : s.point.registered = [])
    (hs : s.call prices (.remove fd) (.events rest) = some t) : Tracked t := by
  obtain ⟨feed, hfeed, rfl⟩ := Option.map_eq_some_iff.mp hs
  refine Tracked.call h hfeed (by simp) hpending.symm hregistered.symm hnodup (by simp [AcceptPoint.current]) fun r hr => ?_
  refine ⟨hrest r hr, fun hk => (feed_keys hfeed (by simp)).2 r.fd hk ?_ (by simp)⟩
  simp only [ne_eq, FeedEvent.remove.injEq]
  rintro rfl
  exact hfd (List.mem_map_of_mem hr)

/-- A look at the next report: when the client is removed, no other report is about it. -/
theorem Tracked.nextReport {prices : DisplayPrices P} {s t : ExchangeSys n c P} {reports : List Report} (h : Tracked s)
    (hp : s.point = .events reports) (hs : s.nextReport prices reports = some t) : Tracked t := by
  have hpending : s.point.pending = [] := by rw [hp]; rfl
  have hregistered : s.point.registered = [] := by rw [hp]; rfl
  cases reports with
  | nil =>
    cases hs
    exact h.between hpending hregistered ⟨rfl, rfl, rfl, rfl⟩
  | cons r rest =>
    obtain ⟨hfd, hnodup, hmem, hbatch⟩ := h.tail hp
    rw [ExchangeSys.nextReport] at hs
    split at hs <;> rename_i hlisten
    · cases hs
      exact h.goes rfl rfl rfl rfl rfl hpending.symm hregistered.symm hnodup (by simp [AcceptPoint.current]) hbatch
    · split at hs
      · refine h.remove hfd hnodup (fun q hq => ?_) hpending hregistered hs
        rw [hp]
        exact List.mem_cons_of_mem r hq
      · have hdue : (r.fd :: rest.map Report.fd).Nodup := List.nodup_cons.mpr ⟨hfd, hnodup⟩
        have hcurrent : ∀ fd ∈ [r.fd], fd ∈ s.keys := by
          intro fd hk
          rw [List.mem_singleton.mp hk]
          exact hmem hlisten
        split at hs
        · cases hs
          exact h.goes rfl rfl rfl rfl rfl hpending.symm hregistered.symm hdue hcurrent hbatch
        · split at hs <;> cases hs
          · exact h.goes rfl rfl rfl rfl rfl hpending.symm hregistered.symm hdue hcurrent hbatch
          · exact h.goes rfl rfl rfl rfl rfl hpending.symm hregistered.symm hnodup (by simp [AcceptPoint.current]) hbatch

/-- `epoll_wait` returns reports about descriptors of the epoll set, each once. -/
theorem Tracked.waitReturns {s t : ExchangeSys n c P} {result : ReportResult} (h : Tracked s) (hp : s.point = .epollWait)
    (hs : s.waitReturns result = some t) : Tracked t := by
  have hpending : s.point.pending = [] := by rw [hp]; rfl
  have hregistered : s.point.registered = [] := by rw [hp]; rfl
  cases result with
  | ready reports =>
    obtain ⟨⟨-, hnodup, hreports⟩, hs⟩ := Option.ite_none_right_eq_some.mp hs
    cases hs
    refine h.goes rfl rfl rfl rfl rfl hpending.symm hregistered.symm hnodup (by simp [AcceptPoint.current]) fun r hr hl => ?_
    obtain ⟨hwatched, hconn, -⟩ := hreports r hr
    rw [h.watched, hregistered] at hwatched
    exact ⟨(hwatched.resolve_left hl).resolve_right List.not_mem_nil, hconn⟩
  | interrupted | failed =>
    cases hs
    exact h.between hpending hregistered ⟨rfl, rfl, rfl, rfl⟩

/-- A connection that the kernel hands out has a descriptor that nothing of the batch is about. -/
theorem Tracked.acceptReturns {s t : ExchangeSys n c P} {rest : List Report} {conn : Option (Fd × List UInt16)} (h : Tracked s)
    (hp : s.point = .accept rest) (hs : s.acceptReturns rest conn = some t) : Tracked t := by
  have hnodup := h.nodup
  have hbatch := h.batch
  rw [hp] at hnodup hbatch
  have hpending : s.point.pending = [] := by rw [hp]; rfl
  have hregistered : s.point.registered = [] := by rw [hp]; rfl
  cases conn with
  | none =>
    cases hs
    exact h.goes rfl rfl rfl rfl rfl hpending.symm hregistered.symm hnodup (by simp [AcceptPoint.current]) hbatch
  | some conn =>
    obtain ⟨⟨hclosed, -⟩, hs⟩ := Option.ite_none_right_eq_some.mp hs
    cases hs
    rw [h.openFds, not_or, not_or] at hclosed
    obtain ⟨hlisten, hkeys, -⟩ := hclosed
    refine ⟨h.listen, fun fd hfd => ?_, fun fd => ?_, fun fd => ?_, hnodup, by simp [AcceptPoint.current], fun r hr hl => ?_⟩
    · rw [List.mem_singleton.mp hfd]
      exact ⟨hlisten, hkeys⟩
    · have hold := h.openFds fd
      rw [hpending] at hold
      change fd ∈ conn.1 :: s.openFds ↔ fd = s.listenFd ∨ fd ∈ s.keys ∨ fd ∈ [conn.1]
      rw [List.mem_cons, hold, List.mem_singleton]
      tauto
    · have hold := h.watched fd
      rw [hregistered] at hold
      exact hold
    · obtain ⟨hk, hconn⟩ := hbatch r hr hl
      have hne : r.fd ≠ conn.1 := by
        intro he
        exact hkeys (he ▸ hk)
      refine ⟨hk, hconn.trans ?_⟩
      dsimp only
      rw [Function.update_of_ne hne]

/-- The connection just accepted is registered, -/
theorem Tracked.register {s : ExchangeSys n c P} {fd : Fd} {rest : List Report} (h : Tracked s) (hp : s.point = .register fd rest) :
    Tracked { s with watched := fd :: s.watched, point := .addClient fd rest } := by
  obtain ⟨hlisten, hfresh, hopen, hwatched, hnodup, -, hbatch⟩ := h
  rw [hp] at hfresh hopen hwatched hnodup hbatch
  refine ⟨hlisten, hfresh, hopen, fun k => ?_, hnodup, by simp [AcceptPoint.current], hbatch⟩
  have hold := hwatched k
  change k ∈ fd :: s.watched ↔ k = s.listenFd ∨ k ∈ s.keys ∨ k ∈ [fd]
  rw [List.mem_cons, hold, List.mem_singleton]
  simp only [AcceptPoint.registered, List.not_mem_nil, or_false]
  tauto

/-- and its client added. -/
theorem Tracked.add {prices : DisplayPrices P} {s t : ExchangeSys n c P} {fd : Fd} {rest : List Report} {peerAddr : String} {now : Int64}
    {order : List Fd} {numSymbols : UInt16} (h : Tracked s) (hp : s.point = .addClient fd rest)
    (hs : s.call prices (.accept fd peerAddr now order numSymbols) (.accept rest) = some t) : Tracked t := by
  obtain ⟨hlisten, hfresh, hopen, hwatched, hnodup, -, hbatch⟩ := h
  rw [hp] at hfresh hopen hwatched hnodup hbatch
  obtain ⟨feed, hfeed, rfl⟩ := Option.map_eq_some_iff.mp hs
  obtain ⟨server, hserver, rfl⟩ := Option.map_eq_some_iff.mp hfeed
  simp only [Server.step] at hserver
  split at hserver <;> rename_i hfd <;> cases hserver
  obtain ⟨hnew, horder⟩ := hfd
  have hkeys : ∀ k, k ∈ (s.feed.server.addClient fd peerAddr now order).clients.keys ↔ k = fd ∨ k ∈ s.keys := by
    intro k
    have hkeys : (s.feed.server.addClient fd peerAddr now order).clients.keys = order := by
      have hn : order.Nodup := horder.nodup_iff.mpr (List.nodup_cons.mpr ⟨hnew, s.feed.server.clients.nodup⟩)
      simp [Server.addClient, ClientTable.emplace, hn]
    rw [hkeys, horder.mem_iff, List.mem_cons]
    exact Iff.rfl
  have hfilter : ∀ (fds : List Fd), fds.filter (fun k => k ∉ s.feed.server.clients.keys ∨
      k ∈ (s.feed.server.addClient fd peerAddr now order).clients.keys) = fds := by
    intro fds
    rw [List.filter_eq_self]
    intro k _
    rw [decide_eq_true_eq, hkeys]
    exact (Classical.em _).symm.imp_right .inr
  obtain ⟨hne, -⟩ := hfresh fd (List.mem_singleton.mpr rfl)
  refine ⟨fun hmem => ?_, by simp [AcceptPoint.pending], fun k => ?_, fun k => ?_, hnodup, by simp [AcceptPoint.current], fun r hr hl => ?_⟩
  · exact ((hkeys _).mp hmem).elim (fun he => hne he.symm) hlisten
  · have hold := hopen k
    dsimp only [manage, ExchangeSys.keys]
    rw [hfilter, hold, hkeys]
    simp only [AcceptPoint.pending, List.mem_singleton, List.not_mem_nil, or_false]
    tauto
  · have hold := hwatched k
    dsimp only [manage, ExchangeSys.keys]
    rw [hfilter, hold, hkeys]
    simp only [AcceptPoint.registered, List.mem_singleton, List.not_mem_nil, or_false]
    tauto
  · obtain ⟨hk, hconn⟩ := hbatch r hr hl
    exact ⟨(hkeys _).mpr (.inr hk), hconn⟩

/-- A call that leaves the accept thread where it is. -/
theorem Tracked.manage {prices : DisplayPrices P} {s : ExchangeSys n c P} {feed : FeedSys n c P} {e : FeedEvent} (h : Tracked s)
    (hs : s.feed.step prices e = some feed)
    (haccept : ∀ fd peerAddr now order numSymbols, e ≠ .accept fd peerAddr now order numSymbols) (hremove : ∀ fd, e ≠ .remove fd)
    (hmaintain : e ≠ .maintain) : Tracked (s.manage feed) := by
  have hkept : ∀ fd ∈ s.keys, fd ∈ feed.server.clients.keys := fun fd hk => (feed_keys hs haccept).2 fd hk (hremove fd) hmaintain
  have hcall : Tracked { s.manage feed with point := s.point } :=
    h.call hs haccept rfl rfl h.nodup (fun fd hfd => hkept fd (h.current fd hfd)) fun r hr => ⟨hr, hkept r.fd⟩
  exact hcall

/-- A `recv` may remove its client, whose report has been taken off the batch. -/
theorem Tracked.recvReturns {prices : DisplayPrices P} {s t : ExchangeSys n c P} {fd : Fd} {rest : List Report} {result : RecvResult}
    (h : Tracked s) (hp : s.point = .recv fd rest) (hs : s.recvReturns prices fd rest result = some t) : Tracked t := by
  have hpending : s.point.pending = [] := by rw [hp]; rfl
  have hregistered : s.point.registered = [] := by rw [hp]; rfl
  have hrest : s.point.rest = rest := by rw [hp]; rfl
  have hnodup := h.nodup
  rw [hp] at hnodup
  obtain ⟨hfd, hnodup⟩ := List.nodup_cons.mp hnodup
  have hremove (hs : s.call prices (.remove fd) (.events rest) = some t) : Tracked t :=
    h.remove hfd hnodup (fun r hr => hrest ▸ hr) hpending hregistered hs
  cases result with
  | bytes k =>
    simp only [ExchangeSys.recvReturns] at hs
    obtain ⟨u, hu, rfl⟩ := Option.map_eq_some_iff.mp hs
    obtain ⟨feed, hfeed, rfl⟩ := Option.map_eq_some_iff.mp hu
    have hcall : Tracked { s.manage feed with point := .events rest } := by
      refine Tracked.call h hfeed (by simp) hpending.symm hregistered.symm hnodup (by simp [AcceptPoint.current]) fun r hr => ?_
      exact ⟨hrest ▸ hr, fun hk => (feed_keys hfeed (by simp)).2 r.fd hk (by simp) (by simp)⟩
    exact hcall.goes rfl rfl rfl rfl rfl rfl rfl hcall.nodup hcall.current hcall.batch
  | again =>
    cases hs
    have hbatch := h.batch
    rw [hp] at hbatch
    exact h.goes rfl rfl rfl rfl rfl hpending.symm hregistered.symm hnodup (by simp [AcceptPoint.current]) hbatch
  | eof => exact hremove hs
  | interrupted => exact hremove hs
  | failed => exact hremove hs

/-- Every step of the accept thread keeps the invariant. -/
theorem Tracked.acceptStep {prices : DisplayPrices P} {s t : ExchangeSys n c P} {e : AcceptEvent} (h : Tracked s)
    (hs : s.acceptStep prices e = some t) : Tracked t := by
  cases e with
  | step =>
    simp only [ExchangeSys.acceptStep] at hs
    split at hs <;> rename_i hp
    · cases hs
      refine h.between (by rw [hp]; rfl) (by rw [hp]; rfl) ?_
      split <;> exact ⟨rfl, rfl, rfl, rfl⟩
    · exact h.nextReport hp hs
    · cases hs
      exact h.register hp
    · obtain ⟨feed, hfeed, rfl⟩ := Option.map_eq_some_iff.mp hs
      exact Tracked.call h hfeed (by simp) (by rw [hp]; rfl) (by rw [hp]; rfl) .nil (by simp [AcceptPoint.current])
        (by simp [AcceptPoint.rest])
    · cases hs
  | wait result =>
    simp only [ExchangeSys.acceptStep] at hs
    split at hs <;> rename_i hp
    · exact h.waitReturns hp hs
    · cases hs
  | accept conn =>
    simp only [ExchangeSys.acceptStep] at hs
    split at hs <;> rename_i hp
    · exact h.acceptReturns hp hs
    · cases hs
  | add peerAddr now order numSymbols =>
    simp only [ExchangeSys.acceptStep] at hs
    split at hs <;> rename_i hp
    · exact h.add hp hs
    · cases hs
  | flush outs =>
    simp only [ExchangeSys.acceptStep] at hs
    split at hs <;> rename_i hp
    · obtain ⟨feed, hfeed, rfl⟩ := Option.map_eq_some_iff.mp hs
      have hnodup := h.nodup
      rw [hp] at hnodup
      refine Tracked.call h hfeed (by simp) (by rw [hp]; rfl) (by rw [hp]; rfl) (List.nodup_cons.mp hnodup).2
        (by simp [AcceptPoint.current]) fun r hr => ?_
      rw [hp]
      exact ⟨hr, fun hk => (feed_keys hfeed (by simp)).2 r.fd hk (by simp) (by simp)⟩
    · cases hs
  | recv result =>
    simp only [ExchangeSys.acceptStep] at hs
    split at hs <;> rename_i hp
    · exact h.recvReturns hp (Option.ite_none_right_eq_some.mp hs).2
    · cases hs

/-- Every step of any thread does. -/
theorem Tracked.step {prices : DisplayPrices P} {s t : ExchangeSys n c P} {e : ExchangeEvent} (h : Tracked s)
    (hs : s.step prices e = some t) : Tracked t := by
  cases e with
  | accept e => exact h.acceptStep hs
  | stop =>
    simp only [ExchangeSys.step, stopStep] at hs
    split at hs
    · obtain ⟨feed, hfeed, rfl⟩ := Option.map_eq_some_iff.mp hs
      have hcall := h.manage hfeed (by simp) (by simp) (by simp)
      exact hcall.goes rfl rfl rfl rfl rfl rfl rfl hcall.nodup hcall.current hcall.batch
    · cases hs
      exact h.goes rfl rfl rfl rfl rfl rfl rfl h.nodup h.current h.batch
  | tick e outs now =>
    obtain ⟨-, hs⟩ := Option.ite_none_left_eq_some.mp hs
    obtain ⟨feed, hfeed, rfl⟩ := Option.map_eq_some_iff.mp hs
    exact h.manage hfeed (by simp) (by simp) (by simp)
  | client fd e =>
    obtain ⟨feed, hfeed, rfl⟩ := Option.map_eq_some_iff.mp hs
    exact h.manage hfeed (by simp) (by simp) (by simp)
  | arrive fd len =>
    obtain ⟨-, hs⟩ := Option.ite_none_left_eq_some.mp hs
    cases hs
    exact h.goes rfl rfl rfl rfl rfl rfl rfl h.nodup h.current h.batch
  | fin fd =>
    cases hs
    exact h.goes rfl rfl rfl rfl rfl rfl rfl h.nodup h.current h.batch

/-- At the start there is the listening socket alone. -/
theorem tracked_init (prices : DisplayPrices P) (listenFd : Fd) : Tracked (ExchangeSys.init prices n c listenFd) where
  listen := List.not_mem_nil
  fresh := by simp [ExchangeSys.init, AcceptPoint.pending]
  openFds := by simp [ExchangeSys.init, ExchangeSys.keys, FeedSys.init, Server.empty, AcceptPoint.pending]
  watched := by simp [ExchangeSys.init, ExchangeSys.keys, FeedSys.init, Server.empty, AcceptPoint.registered]
  nodup := .nil
  current := by simp [ExchangeSys.init, AcceptPoint.current]
  batch := by simp [ExchangeSys.init, AcceptPoint.rest]

/-- In every run. -/
theorem tracked_exec {prices : DisplayPrices P} {listenFd : Fd} {es : List ExchangeEvent} {s : ExchangeSys n c P}
    (h : Run.exec (ExchangeSys.step prices) (.init prices n c listenFd) es = some s) : Tracked s :=
  Run.exec_invariant (fun _ _ _ hi hs => hi.step hs) (tracked_init prices listenFd) h

end DescriptorsAux

open DescriptorsAux EndToEndAux FaultInjectionAux

/-- In every state of every run of the exchange in which no broadcast drops a client: the sockets that are open are the listening one, those
of the clients in the table, and the one just accepted; the same are in the epoll set, as soon as it is registered. What the accept thread
has not handled of its batch is about different descriptors, each of which still is in the table and still stands for the connection it was
reported for. -/
theorem descriptors_tracked (prices : DisplayPrices P) (listenFd : Fd) (es : List ExchangeEvent) (s : ExchangeSys n c P)
    (h : Run.exec (ExchangeSys.step prices) (.init prices n c listenFd) es = some s) :
    (∀ fd, fd ∈ s.openFds ↔ fd = s.listenFd ∨ fd ∈ s.keys ∨ fd ∈ s.point.pending) ∧
      (∀ fd, fd ∈ s.watched ↔ fd = s.listenFd ∨ fd ∈ s.keys ∨ fd ∈ s.point.registered) ∧
      (s.point.current ++ s.point.rest.map Report.fd).Nodup ∧ (∀ fd ∈ s.point.current, fd ∈ s.keys) ∧
      ∀ r ∈ s.point.rest, r.fd ≠ s.listenFd → r.fd ∈ s.keys ∧ r.connection = s.accepted r.fd := by
  have htracked := tracked_exec h
  exact ⟨htracked.openFds, htracked.watched, htracked.nodup, htracked.current, htracked.batch⟩

namespace DescriptorsAux

/-- The report of a socket that can be read, the listening one 3 or a client's. -/
def readable (fd : Fd) (connection : Nat) : Report :=
  { fd, flags := { epollIn := true, rdHup := false, hup := false, err := false }, epollOut := false, connection }

/-- The report of a client that has closed its end. -/
def closed (fd : Fd) (connection : Nat) : Report :=
  { fd, flags := { epollIn := true, rdHup := true, hup := false, err := false }, epollOut := false, connection }

/-- The clients 5 and 7 are accepted. A batch reports the end of 5, a new connection and the request of 7; the new connection gets the
descriptor 5 before the request is looked at. -/
def reusedRun : List ExchangeEvent :=
  [.accept .step, .accept (.wait (.ready [readable 3 0])), .accept .step, .accept (.accept (some (5, []))), .accept .step,
    .accept (.add "10.0.0.1:4000" 1 [5] 2), .accept (.accept (some (7, []))), .accept .step, .accept (.add "10.0.0.2:4000" 2 [7, 5] 2),
    .accept (.accept none), .accept .step, .accept .step, .accept .step, .arrive 7 3, .fin 5,
    .accept (.wait (.ready [closed 5 1, readable 3 0, readable 7 1])), .accept .step, .accept .step, .accept (.accept (some (5, [2]))),
    .accept .step, .accept (.add "10.0.0.3:4000" 3 [5, 7] 2)]

end DescriptorsAux

/-- After `reusedRun` the report of 7 is about its first connection still, and 5 stands for its second. -/
theorem descriptors_tracked_reusedRun :
    ∃ s : ExchangeSys oneSymbol recvBufSize Nat,
      Run.exec (ExchangeSys.step wholePrices) (.init wholePrices oneSymbol recvBufSize 3) reusedRun = some s ∧
        s.point.rest = [readable 7 1] ∧ s.accepted 5 = 2 ∧ 7 ∈ s.keys ∧ s.accepted 7 = 1 ∧ 5 ∈ s.watched := by
  have hrun : ∃ s : ExchangeSys oneSymbol recvBufSize Nat,
      Run.exec (ExchangeSys.step wholePrices) (.init wholePrices oneSymbol recvBufSize 3) reusedRun = some s ∧
        s.point.rest = [readable 7 1] ∧ s.accepted 5 = 2 ∧ s.listenFd = 3 ∧ 5 ∈ s.keys := by decide +kernel
  obtain ⟨s, hrun, hrest, htwice, hlisten, hmem⟩ := hrun
  obtain ⟨-, hwatched, -, -, hbatch⟩ := descriptors_tracked wholePrices 3 reusedRun s hrun
  obtain ⟨hseven, hconn⟩ := hbatch (readable 7 1) (by rw [hrest]; exact List.mem_singleton.mpr rfl) (by rw [hlisten]; decide)
  exact ⟨s, hrun, hrest, htwice, hseven, hconn.symm, (hwatched 5).mpr (.inr (.inl hmem))⟩

end MarketFeed
