import Mathlib.Tactic

/-!
# Order statistics of a list

The `k`-th smallest element of a list, counted from 1, and its characterisation by counting: a property that passes to smaller elements
holds of the `k`-th smallest exactly when at least `k` elements have it.
-/

namespace Rank

variable {α : Type*} [LE α]

/-- The first `j + 1` elements of a sorted list have a property that passes to smaller elements as soon as element `j` has it. -/
theorem lt_countP_of_getElem {ys : List α} (hys : ys.Pairwise (· ≤ ·)) {p : α → Bool} (hp : ∀ a b, a ≤ b → p b → p a) {j : Nat}
    (hj : j < ys.length) (h : p ys[j]) : j < ys.countP p := by
  have hall : ∀ a ∈ ys.take (j + 1), p a := by
    intro a ha
    obtain ⟨i, hi, rfl⟩ := List.mem_take_iff_getElem.mp ha
    rcases Nat.lt_or_ge i j with hij | hij
    · exact hp _ _ (List.pairwise_iff_getElem.mp hys i j _ hj hij) h
    · have heq : i = j := by omega
      subst heq
      exact h
  have hlen : (ys.take (j + 1)).length = j + 1 := by
    rw [List.length_take]
    omega
  have hcount : (ys.take (j + 1)).countP p = j + 1 := (List.countP_eq_length.mpr hall).trans hlen
  have hle := (List.take_sublist (j + 1) ys).countP_le (p := p)
  omega

/-- None of the elements from `j` on has it if element `j` does not. -/
theorem countP_le_of_getElem {ys : List α} (hys : ys.Pairwise (· ≤ ·)) {p : α → Bool} (hp : ∀ a b, a ≤ b → p b → p a) {j : Nat}
    (hj : j < ys.length) (h : ¬ p ys[j]) : ys.countP p ≤ j := by
  have hnone : (ys.drop j).countP p = 0 := by
    rw [List.countP_eq_zero]
    intro a ha hpa
    obtain ⟨i, hi, rfl⟩ := List.mem_drop_iff_getElem.mp ha
    rcases Nat.eq_zero_or_pos i with rfl | hi0
    · exact h hpa
    · exact h (hp _ _ (List.pairwise_iff_getElem.mp hys j _ hj hi (by omega)) (by simpa only [Nat.add_comm] using hpa))
  have hsplit : ys.countP p = (ys.take j).countP p + (ys.drop j).countP p := by
    rw [← List.countP_append, List.take_append_drop]
  have hle : (ys.take j).countP p ≤ (ys.take j).length := List.countP_le_length
  have hlen : (ys.take j).length ≤ j := List.length_take_le _ _
  omega

variable [DecidableLE α]

/-- The `k`-th smallest element, counted from 1. -/
def nthSmallest (xs : List α) (k : Nat) : Option α := xs.mergeSort[k - 1]?

theorem exists_nthSmallest {xs : List α} {k : Nat} (hpos : 0 < k) (hk : k ≤ xs.length) : ∃ x, nthSmallest xs k = some x := by
  have hlt : k - 1 < xs.mergeSort.length := by
    rw [List.length_mergeSort]
    omega
  exact ⟨_, List.getElem?_eq_getElem hlt⟩

theorem nthSmallest_mem {xs : List α} {k : Nat} {x : α} (h : nthSmallest xs k = some x) : x ∈ xs :=
  List.mem_mergeSort.mp (List.mem_of_getElem? h)

variable [Std.IsLinearPreorder α]

theorem pairwise_mergeSort (xs : List α) : xs.mergeSort.Pairwise (· ≤ ·) :=
  have : IsTrans α (· ≤ ·) := ⟨fun _ _ _ => Std.le_trans⟩
  have : @Std.Total α (· ≤ ·) := ⟨fun _ _ => Std.le_total⟩
  List.pairwise_mergeSort' (· ≤ ·) xs

/-- A property that passes to smaller elements holds of the `k`-th smallest exactly when at least `k` elements have it. -/
theorem nthSmallest_iff_le_countP {xs : List α} {p : α → Bool} (hp : ∀ a b, a ≤ b → p b → p a) {k : Nat} (hk : 0 < k) {x : α}
    (h : nthSmallest xs k = some x) : p x ↔ k ≤ xs.countP p := by
  have hcount : xs.mergeSort.countP p = xs.countP p := (List.mergeSort_perm xs _).countP_eq p
  obtain ⟨hlt, rfl⟩ := List.getElem?_eq_some_iff.mp h
  rw [← hcount]
  constructor
  · intro hpx
    have := lt_countP_of_getElem (pairwise_mergeSort xs) hp hlt hpx
    omega
  · intro hle
    by_contra hpx
    have := countP_le_of_getElem (pairwise_mergeSort xs) hp hlt hpx
    omega

/-- A higher rank is no smaller. -/
theorem nthSmallest_mono {xs : List α} {j k : Nat} (hjk : j ≤ k) {x y : α} (hx : nthSmallest xs j = some x)
    (hy : nthSmallest xs k = some y) : x ≤ y := by
  obtain ⟨hlt, rfl⟩ := List.getElem?_eq_some_iff.mp hx
  obtain ⟨hlt', rfl⟩ := List.getElem?_eq_some_iff.mp hy
  rcases Nat.lt_or_ge (j - 1) (k - 1) with hjk' | hjk'
  · exact List.pairwise_iff_getElem.mp (pairwise_mergeSort xs) _ _ hlt hlt' hjk'
  · have heq : j - 1 = k - 1 := by omega
    simp only [heq]
    exact Std.le_refl _

end Rank
