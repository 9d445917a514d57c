import Mathlib.Order.Interval.Set.Defs
import Mathlib.Order.Monotone.Basic

/-!
# Intervals given by their lower edges

`n` intervals next to each other, from the lower edge of each to that of the next; the last one has no upper end. When the edges
increase, the index of the interval that a value is in is adjoint to the edges (`le_index_iff`).
-/

namespace Edges

variable {α : Type*} [Preorder α]

/-- `index` says which interval a value is in. -/
structure Locates (edge : Nat → α) (n : Nat) (index : α → Nat) : Prop where
  lt : ∀ v, index v < n
  le : ∀ v, edge (index v) ≤ v
  lt_next : ∀ v, index v + 1 < n → v < edge (index v + 1)

namespace Locates

variable {edge : Nat → α} {n : Nat} {index : α → Nat}

/-- The intervals up to that of a value are those that begin no later than it. -/
theorem le_index_iff (h : Locates edge n index) (hedge : StrictMonoOn edge (Set.Iio n)) {i : Nat} (hi : i < n) (v : α) :
    i ≤ index v ↔ edge i ≤ v := by
  constructor
  · intro hle
    exact (hedge.monotoneOn hi (h.lt v) hle).trans (h.le v)
  · intro hle
    by_contra hgt
    have hnext : index v + 1 ≤ i := Nat.lt_of_not_le hgt
    have hlast : index v + 1 < n := Nat.lt_of_le_of_lt hnext hi
    have hlt : v < edge i := (h.lt_next v hlast).trans_le (hedge.monotoneOn hlast hi hnext)
    exact absurd hle (not_le_of_gt hlt)

theorem mono (h : Locates edge n index) (hedge : StrictMonoOn edge (Set.Iio n)) : Monotone index := by
  intro v w hvw
  exact (h.le_index_iff hedge (h.lt v) w).mpr ((h.le v).trans hvw)

/-- An edge is in the interval that begins there. -/
theorem index_edge (h : Locates edge n index) (hedge : StrictMonoOn edge (Set.Iio n)) {i : Nat} (hi : i < n) :
    index (edge i) = i := by
  apply Nat.le_antisymm
  · exact (hedge.le_iff_le (h.lt _) hi).mp (h.le (edge i))
  · exact (h.le_index_iff hedge hi _).mpr le_rfl

end Locates

end Edges
