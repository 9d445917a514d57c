import Mathlib.Data.List.Basic
import Mathlib.Logic.Function.Basic

/-!
# Lists threaded through nodes

`Linked next p l` says that from the pointer `p` the links lead through the nodes of `l`, in this order, and end. There is at most one
such list, so it has no node twice: a list that ends has no cycle.
-/

variable {α : Type*} {next : α → Option α}

/-- The nodes that the links lead through from a pointer, up to the null pointer. -/
def Linked (next : α → Option α) : Option α → List α → Prop
  | none, [] => True
  | some a, b :: l => a = b ∧ Linked next (next b) l
  | none, _ :: _ => False
  | some _, [] => False

namespace Linked

theorem nil : Linked next none [] := trivial

/-- A list that is not empty starts at the node pointed to. -/
theorem cons_iff {p : Option α} {a : α} {l : List α} : Linked next p (a :: l) ↔ p = some a ∧ Linked next (next a) l := by
  cases p with
  | none => simp [Linked]
  | some b => simp [Linked]

theorem nil_iff {p : Option α} : Linked next p [] ↔ p = none := by
  cases p with
  | none => simp [Linked]
  | some b => simp [Linked]

/-- The pointer determines the list. -/
theorem unique {p : Option α} {l l' : List α} (h : Linked next p l) (h' : Linked next p l') : l = l' := by
  induction l generalizing p l' with
  | nil =>
    rw [nil_iff] at h
    cases l' with
    | nil => rfl
    | cons b l' => simp [cons_iff, h] at h'
  | cons a l ih =>
    obtain ⟨hp, hrest⟩ := cons_iff.mp h
    cases l' with
    | nil => simp [nil_iff, hp] at h'
    | cons b l' =>
      obtain ⟨hp', hrest'⟩ := cons_iff.mp h'
      have hab : a = b := Option.some.inj (hp.symm.trans hp')
      subst hab
      rw [ih hrest hrest']

/-- The list from a node on. -/
theorem of_append {p : Option α} {l : List α} {a : α} {l' : List α} (h : Linked next p (l ++ a :: l')) :
    Linked next (some a) (a :: l') := by
  induction l generalizing p with
  | nil => exact cons_iff.mpr ⟨rfl, (cons_iff.mp h).2⟩
  | cons b l ih => exact ih (cons_iff.mp h).2

/-- A list that ends has no node twice: from a node met again the links would lead through two lists. -/
theorem nodup {p : Option α} {l : List α} (h : Linked next p l) : l.Nodup := by
  induction l generalizing p with
  | nil => exact List.nodup_nil
  | cons a l ih =>
    obtain ⟨-, hrest⟩ := cons_iff.mp h
    refine List.nodup_cons.mpr ⟨fun ha => ?_, ih hrest⟩
    obtain ⟨before, after, hl⟩ := List.append_of_mem ha
    have hhere : Linked next (some a) (a :: l) := cons_iff.mpr ⟨rfl, hrest⟩
    have hagain : Linked next (some a) (a :: after) := by
      rw [hl] at hrest
      exact of_append hrest
    have hsame := congrArg List.length (unique hhere hagain)
    rw [hl] at hsame
    simp only [List.length_cons, List.length_append] at hsame
    omega

/-- Only the links of the nodes on the list matter. -/
theorem congr {next' : α → Option α} {p : Option α} {l : List α} (hsame : ∀ a ∈ l, next' a = next a) (h : Linked next p l) :
    Linked next' p l := by
  induction l generalizing p with
  | nil => exact nil_iff.mpr (nil_iff.mp h)
  | cons a l ih =>
    obtain ⟨hp, hrest⟩ := cons_iff.mp h
    rw [cons_iff, hsame a List.mem_cons_self]
    exact ⟨hp, ih (fun b hb => hsame b (List.mem_cons_of_mem a hb)) hrest⟩

/-- A node that is not on the list is put in front of it. -/
theorem push [DecidableEq α] {p : Option α} {l : List α} {a : α} (ha : a ∉ l) (h : Linked next p l) :
    Linked (Function.update next a p) (some a) (a :: l) := by
  rw [cons_iff, Function.update_self]
  refine ⟨rfl, h.congr fun b hb => Function.update_of_ne ?_ ..⟩
  rintro rfl
  exact ha hb

end Linked
