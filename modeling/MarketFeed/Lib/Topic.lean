import MarketFeed.Lib.Run

/-!
# A topic with a reader

The purpose of a feed, without anything that carries it: entries are published one after the other; a reader joins at some point and
takes the entries published from there on, one at a time and in order. What it has taken is the start of what it is due
(`ok_exec`), whatever the order of the steps.
-/

/-- The entries published, how many there were when the reader joined, and the entries it has taken. -/
structure Topic (α : Type*) where
  published : List α
  joined : Option Nat
  taken : List α
  deriving DecidableEq

namespace Topic

variable {α : Type*}

/-- The steps: an entry is published; a new reader is there, which has not joined; it joins; it takes an entry. -/
inductive Event (α : Type*) where
  | publish (a : α)
  | newReader
  | join
  | take
  deriving DecidableEq

/-- Nothing published, nobody joined. -/
def init : Topic α := { published := [], joined := none, taken := [] }

/-- The entries that the reader is due. -/
def due (t : Topic α) : List α :=
  match t.joined with
  | none => []
  | some j => t.published.drop j

/-- One step. A reader joins once, and takes what it is due and has not taken. -/
def step (t : Topic α) : Event α → Option (Topic α)
  | .publish a => some { t with published := t.published ++ [a] }
  | .newReader => some { t with joined := none, taken := [] }
  | .join =>
    match t.joined with
    | none => some { t with joined := some t.published.length }
    | some _ => none
  | .take => t.due[t.taken.length]?.map fun a => { t with taken := t.taken ++ [a] }

/-- The reader joined at a point of the topic, and has taken the start of what it is due. -/
structure Ok (t : Topic α) : Prop where
  joined_le : ∀ j, t.joined = some j → j ≤ t.published.length
  taken : t.taken <+: t.due

/-- What is published is due to a reader that has joined. -/
theorem due_publish {t : Topic α} (h : t.Ok) (a : α) :
    due { t with published := t.published ++ [a] } = t.due ++ if t.joined.isSome then [a] else [] := by
  unfold due
  cases hj : t.joined with
  | none => rfl
  | some j => exact List.drop_append_of_le_length (h.joined_le j hj)

/-- A prefix with the next entry of the list is a prefix. -/
theorem prefix_concat {l m : List α} {a : α} (h : l <+: m) (ha : m[l.length]? = some a) : l ++ [a] <+: m := by
  obtain ⟨rest, rfl⟩ := h
  rw [List.getElem?_append_right (Nat.le_refl _), Nat.sub_self] at ha
  cases rest with
  | nil => cases ha
  | cons b rest =>
    cases ha
    exact ⟨rest, by rw [List.append_assoc, List.singleton_append]⟩

/-- Every step keeps to it. -/
theorem Ok.step {t t' : Topic α} {e : Event α} (h : t.Ok) (hs : t.step e = some t') : t'.Ok := by
  cases e with
  | publish a =>
    cases hs
    refine ⟨fun j hj => ?_, ?_⟩
    · dsimp only
      rw [List.length_append]
      exact Nat.le_add_right_of_le (h.joined_le j hj)
    · rw [due_publish h]
      exact h.taken.trans (List.prefix_append _ _)
  | newReader =>
    cases hs
    exact ⟨nofun, List.prefix_rfl⟩
  | join =>
    simp only [Topic.step] at hs
    split at hs <;> rename_i hj <;> cases hs
    refine ⟨fun j hj' => ?_, ?_⟩
    · cases hj'
      exact Nat.le_refl _
    · have hnil : t.due = [] := by rw [due, hj]
      have htaken := h.taken
      rw [hnil] at htaken
      exact htaken.trans List.nil_prefix
  | take =>
    obtain ⟨a, ha, rfl⟩ := Option.map_eq_some_iff.mp hs
    exact ⟨h.joined_le, prefix_concat h.taken ha⟩

end Topic
