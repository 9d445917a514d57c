import Mathlib.Tactic

/-!
# Runs of a step function

A system is a step function `step : σ → ε → Option σ`: `ε` is the type of the events (the choice of a thread, of an outcome
of the environment), and `none` says that the event is not possible in that state. A run is a list of events. Every
interleaving of several threads is a list of events, so a statement about every list is a statement about every interleaving.
-/

namespace Run

variable {σ ε : Type*} {step : σ → ε → Option σ}

/-- The state after a list of events, `none` as soon as one of them is not possible. -/
def exec (step : σ → ε → Option σ) : σ → List ε → Option σ
  | s, [] => some s
  | s, e :: es => (step s e).bind fun s' => exec step s' es

/-- Every event of the run is taken in a state where `ok` holds of it. -/
def Along (step : σ → ε → Option σ) (ok : σ → ε → Prop) : σ → List ε → Prop
  | _, [] => True
  | s, e :: es => ok s e ∧ match step s e with
    | none => True
    | some s' => Along step ok s' es

/-- A decidable condition on the steps is decidable of a run. -/
instance Along.decidable (step : σ → ε → Option σ) (ok : σ → ε → Prop) [∀ s e, Decidable (ok s e)] :
    ∀ (s : σ) (es : List ε), Decidable (Along step ok s es)
  | _, [] => isTrue trivial
  | s, e :: es =>
    match hs : step s e with
    | none => decidable_of_iff (ok s e) (by simp [Along, hs])
    | some s' =>
      have := Along.decidable step ok s' es
      decidable_of_iff (ok s e ∧ Along step ok s' es) (by simp [Along, hs])

/-- What holds of the state a run ends in is decided by taking the run. -/
instance decidableEnd (o : Option σ) (p : σ → Prop) [DecidablePred p] : Decidable (∃ t, o = some t ∧ p t) :=
  match o with
  | none => isFalse nofun
  | some s => decidable_of_iff (p s) (by simp)

/-- The first event of a run that goes through, and the rest of the run. -/
theorem exec_cons_eq_some {s t : σ} {e : ε} {es : List ε} :
    exec step s (e :: es) = some t ↔ ∃ s', step s e = some s' ∧ exec step s' es = some t := by
  simp [exec, Option.bind_eq_some_iff]

/-- A run that goes on after another. -/
theorem exec_append {s t : σ} {es fs : List ε} (h : exec step s es = some t) : exec step s (es ++ fs) = exec step t fs := by
  induction es generalizing s with
  | nil =>
    cases h
    rfl
  | cons e es ih =>
    obtain ⟨s', hs', h'⟩ := exec_cons_eq_some.mp h
    rw [List.cons_append, exec, hs', Option.bind_some, ih h']

/-- The condition holds along a run that goes on after another when it holds along both. -/
theorem Along.append {ok : σ → ε → Prop} {s t : σ} {es fs : List ε} (h : Along step ok s es) (hexec : exec step s es = some t)
    (h' : Along step ok t fs) : Along step ok s (es ++ fs) := by
  induction es generalizing s with
  | nil =>
    cases hexec
    exact h'
  | cons e es ih =>
    obtain ⟨s', hs', hexec'⟩ := exec_cons_eq_some.mp hexec
    obtain ⟨hok, hrest⟩ := h
    rw [hs'] at hrest
    refine ⟨hok, ?_⟩
    rw [hs']
    exact ih hrest hexec'

/-- Two conditions on the steps are one. -/
theorem Along.and {ok ok' : σ → ε → Prop} {es : List ε} {s : σ} (h : Along step ok s es) (h' : Along step ok' s es) :
    Along step (fun s e => ok s e ∧ ok' s e) s es := by
  induction es generalizing s with
  | nil => trivial
  | cons e es ih =>
    obtain ⟨hok, hrest⟩ := h
    obtain ⟨hok', hrest'⟩ := h'
    refine ⟨⟨hok, hok'⟩, ?_⟩
    cases hs : step s e with
    | none => trivial
    | some s' =>
      rw [hs] at hrest hrest'
      exact ih hrest hrest'

/-- A condition on the events alone. -/
theorem along_of_forall {ok : ε → Prop} {es : List ε} (h : ∀ e ∈ es, ok e) (s : σ) : Along step (fun _ e => ok e) s es := by
  induction es generalizing s with
  | nil => trivial
  | cons e es ih =>
    refine ⟨h e List.mem_cons_self, ?_⟩
    cases step s e with
    | none => trivial
    | some s' => exact ih (fun e' he' => h e' (List.mem_cons_of_mem e he')) s'

/-- Where every step that meets the condition can be taken, so can a run of such steps. -/
theorem exec_of_along {ok : σ → ε → Prop} (hstep : ∀ s e, ok s e → ∃ s', step s e = some s') {es : List ε} {s : σ}
    (h : Along step ok s es) : ∃ t, exec step s es = some t := by
  induction es generalizing s with
  | nil => exact ⟨s, rfl⟩
  | cons e es ih =>
    obtain ⟨hok, hrest⟩ := h
    obtain ⟨s', hs'⟩ := hstep s e hok
    rw [hs'] at hrest
    obtain ⟨t, ht⟩ := ih hrest
    exact ⟨t, exec_cons_eq_some.mpr ⟨s', hs', ht⟩⟩

/-- What holds at the start and is kept by every step that meets the condition holds after every run whose steps all meet
it. -/
theorem exec_invariant_along {ok : σ → ε → Prop} {I : σ → Prop}
    (hstep : ∀ s e s', I s → ok s e → step s e = some s' → I s') :
    ∀ {es : List ε} {s t : σ}, I s → Along step ok s es → exec step s es = some t → I t := by
  intro es
  induction es with
  | nil =>
    intro s t hs _ h
    cases h
    exact hs
  | cons e es ih =>
    intro s t hs ha h
    obtain ⟨s', hs', h'⟩ := exec_cons_eq_some.mp h
    obtain ⟨hok, ha'⟩ := ha
    rw [hs'] at ha'
    exact ih (hstep s e s' hs hok hs') ha' h'

/-- What holds at the start and is kept by every step holds after every run. -/
theorem exec_invariant {I : σ → Prop} (hstep : ∀ s e s', I s → step s e = some s' → I s') {es : List ε} {s t : σ}
    (hs : I s) (h : exec step s es = some t) : I t := by
  induction es generalizing s with
  | nil =>
    cases h
    exact hs
  | cons e es ih =>
    obtain ⟨s', hs', h'⟩ := exec_cons_eq_some.mp h
    exact ih (hstep s e s' hs hs') h'

/-- Where each step out of a state with the property leads to one exactly under the condition on the step, the property holds in every
state of a run exactly when all its steps meet the condition. -/
theorem forall_take_iff_along {ok : σ → ε → Prop} {I : σ → Prop}
    (hstep : ∀ s e s', I s → step s e = some s' → (I s' ↔ ok s e)) {es : List ε} {s t : σ} (hs : I s)
    (h : exec step s es = some t) : (∀ n u, exec step s (es.take n) = some u → I u) ↔ Along step ok s es := by
  induction es generalizing s with
  | nil =>
    refine ⟨fun _ => trivial, fun _ n u hu => ?_⟩
    rw [List.take_nil] at hu
    cases hu
    exact hs
  | cons e es ih =>
    obtain ⟨s', hs', h'⟩ := exec_cons_eq_some.mp h
    have hiff := hstep s e s' hs hs'
    unfold Along
    rw [hs']
    constructor
    · intro hall
      have hI : I s' := hall 1 s' (exec_cons_eq_some.mpr ⟨s', hs', rfl⟩)
      exact ⟨hiff.mp hI, (ih hI h').mp fun n u hu => hall (n + 1) u (exec_cons_eq_some.mpr ⟨s', hs', hu⟩)⟩
    · rintro ⟨hok, halong⟩ n u hu
      have hI : I s' := hiff.mpr hok
      cases n with
      | zero =>
        cases hu
        exact hs
      | succ n =>
        rw [List.take_succ_cons] at hu
        obtain ⟨s'', hs'', hu'⟩ := exec_cons_eq_some.mp hu
        rw [hs'] at hs''
        cases hs''
        exact (ih hI h').mpr halong n u hu'

/-- Where each step costs at most what it takes off a measure and what it brings in, so does a run: the measure bounds what the steps
of a run cost altogether. -/
theorem exec_account {I : σ → Prop} {measure : σ → Nat} {cost gain : ε → Nat}
    (hstep : ∀ s e s', I s → step s e = some s' → I s' ∧ measure s' + cost e ≤ measure s + gain e) {es : List ε} {s t : σ}
    (hs : I s) (h : exec step s es = some t) : measure t + (es.map cost).sum ≤ measure s + (es.map gain).sum := by
  induction es generalizing s with
  | nil =>
    cases h
    exact Nat.le_refl _
  | cons e es ih =>
    obtain ⟨s', hs', h'⟩ := exec_cons_eq_some.mp h
    obtain ⟨hI, haccount⟩ := hstep s e s' hs hs'
    have hrest := ih hI h'
    rw [List.map_cons, List.sum_cons, List.map_cons, List.sum_cons]
    omega

/-- Each step, seen through `view`, is the step of another system that it is about, or no step of it. -/
structure Projects {τ φ : Type*} (step : σ → ε → Option σ) (spec : τ → φ → Option τ) (view : σ → τ) (about : ε → Option φ) : Prop where
  steps : ∀ s e s', step s e = some s' → match about e with
    | none => view s' = view s
    | some f => spec (view s) f = some (view s')

/-- A run is, seen so, the run of the steps that it is about. -/
theorem Projects.exec {τ φ : Type*} {spec : τ → φ → Option τ} {view : σ → τ} {about : ε → Option φ}
    (hview : Projects step spec view about) {es : List ε} {s t : σ} (h : Run.exec step s es = some t) :
    Run.exec spec (view s) (es.filterMap about) = some (view t) := by
  induction es generalizing s with
  | nil =>
    cases h
    rfl
  | cons e es ih =>
    obtain ⟨s', hs', h'⟩ := exec_cons_eq_some.mp h
    have hstep := hview.steps s e s' hs'
    cases ha : about e with
    | none =>
      rw [ha] at hstep
      rw [List.filterMap_cons_none ha, ← hstep]
      exact ih h'
    | some f =>
      rw [ha] at hstep
      rw [List.filterMap_cons_some ha]
      exact exec_cons_eq_some.mpr ⟨_, hstep, ih h'⟩

/-- A step system follows another: from related states, every step that meets the condition is matched by a run of the other system
to a related state. -/
structure Simulates {τ φ : Type*} (step : σ → ε → Option σ) (ok : σ → ε → Prop) (spec : τ → φ → Option τ) (R : σ → τ → Prop) :
    Prop where
  steps : ∀ s e s' t, R s t → ok s e → step s e = some s' → ∃ fs t', exec spec t fs = some t' ∧ R s' t'

/-- What is matched step by step is matched over a run. -/
theorem Simulates.exec {τ φ : Type*} {spec : τ → φ → Option τ} {ok : σ → ε → Prop} {R : σ → τ → Prop}
    (hsim : Simulates step ok spec R) {es : List ε} {s s' : σ} {t : τ} (hR : R s t) (hok : Along step ok s es)
    (h : Run.exec step s es = some s') : ∃ fs t', Run.exec spec t fs = some t' ∧ R s' t' := by
  induction es generalizing s t with
  | nil =>
    cases h
    exact ⟨[], t, rfl, hR⟩
  | cons e es ih =>
    obtain ⟨s₁, hs₁, h'⟩ := exec_cons_eq_some.mp h
    obtain ⟨hoke, hrest⟩ := hok
    rw [hs₁] at hrest
    obtain ⟨fs, t₁, ht₁, hR₁⟩ := hsim.steps s e s₁ t hR hoke hs₁
    obtain ⟨gs, t', ht', hR'⟩ := ih hR₁ hrest h'
    exact ⟨fs ++ gs, t', (exec_append ht₁).trans ht', hR'⟩

end Run
