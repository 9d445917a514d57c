import Mathlib.Data.List.Perm.Basic
import Mathlib.Algebra.BigOperators.Group.List.Basic

/-!
# Sums over the keys of a table

A table is a list of keys without duplicates. The sum of a counter over the keys moves with the counter of one of them, and splits when
the table loses some of its keys.
-/

namespace KeySums

variable {K M : Type*} [AddCommMonoid M] {keys keys' : List K} {f g : K → M}

/-- The counter of one key grows. -/
theorem sum_of_add {k : K} {d : M} (hnodup : keys.Nodup) (hk : k ∈ keys) (hadd : g k = f k + d) (hsame : ∀ j ∈ keys, j ≠ k → g j = f j) :
    (keys.map g).sum = (keys.map f).sum + d := by
  induction keys with
  | nil => exact absurd hk List.not_mem_nil
  | cons j keys ih =>
    obtain ⟨hj, hnodup⟩ := List.nodup_cons.mp hnodup
    rw [List.map_cons, List.map_cons, List.sum_cons, List.sum_cons]
    rcases List.mem_cons.mp hk with rfl | hk
    · have hrest : keys.map g = keys.map f := by
        refine List.map_congr_left (fun i hi => hsame i (List.mem_cons_of_mem k hi) ?_)
        rintro rfl
        exact hj hi
      rw [hadd, hrest, add_right_comm]
    · have hne : j ≠ k := by
        rintro rfl
        exact hj hk
      rw [hsame j List.mem_cons_self hne, ih hnodup hk (fun i hi => hsame i (List.mem_cons_of_mem j hi)), add_assoc]

/-- The keys that stay and the keys that go. -/
theorem sum_stay_add_go [DecidableEq K] (hnodup : keys.Nodup) (hnodup' : keys'.Nodup) (hsub : ∀ k ∈ keys', k ∈ keys) (f : K → M) :
    (keys'.map f).sum + ((keys.filter fun k => k ∉ keys').map f).sum = (keys.map f).sum := by
  have hstay : keys'.Perm (keys.filter fun k => k ∈ keys') := by
    rw [List.perm_ext_iff_of_nodup hnodup' (hnodup.filter _)]
    intro k
    rw [List.mem_filter, decide_eq_true_iff]
    exact ⟨fun hk => ⟨hsub k hk, hk⟩, fun hk => hk.2⟩
  have hsplit := List.filter_append_perm (fun k => decide (k ∈ keys')) keys
  have hgo : keys.filter (fun k => !decide (k ∈ keys')) = keys.filter fun k => decide (k ∉ keys') := by
    refine List.filter_congr (fun k _ => ?_)
    exact (decide_not ..).symm
  rw [hgo] at hsplit
  rw [← ((hstay.append_right _).trans hsplit).map f |>.sum_eq, List.map_append, List.sum_append]

end KeySums
