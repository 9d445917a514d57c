import Mathlib.Tactic
import Mathlib.Data.Int.CardIntervalMod

/-!
# Taking turns with a counter that wraps

Slots `0` to `n - 1` take turns by a counter modulo `n`, and the counter itself wraps at some number (`slot`). Where `n` does not divide
that number, a wrap cuts a round short. Still no slot waits longer than two rounds for its next turn (`exists_turn`), and over any number
of turns two slots get the same number of them up to one and one more for each wrap (`count_slot_le`).
-/

namespace Cyclic

/-- The slot of a turn, with a counter that wraps at `wrap`. -/
def slot (wrap n k : Nat) : Nat := k % wrap % n

variable {wrap n : Nat}

theorem slot_add_wrap (k : Nat) : slot wrap n (wrap + k) = slot wrap n k := by
  rw [slot, slot, Nat.add_mod_left]

theorem slot_of_lt {k : Nat} (h : k < wrap) : slot wrap n k = k % n := by
  rw [slot, Nat.mod_eq_of_lt h]

/-! ## Numbers of turns -/

/-- Before the first wrap the turns go round evenly. -/
theorem count_slot {a m : Nat} (ha : a < n) (hm : m ≤ wrap) :
    Nat.count (fun k => slot wrap n k = a) m = m / n + if a < m % n then 1 else 0 := by
  have hcount := Nat.count_modEq_card m (Nat.zero_lt_of_lt ha) a
  rw [Nat.mod_eq_of_lt ha] at hcount
  rw [← hcount, Nat.count_eq_card_filter_range, Nat.count_eq_card_filter_range]
  congr 1
  apply Finset.filter_congr
  intro k hk
  rw [slot_of_lt (Nat.lt_of_lt_of_le (Finset.mem_range.mp hk) hm), Nat.ModEq, Nat.mod_eq_of_lt ha]

/-- Over any number of turns, two slots get as many up to one, and one more for each wrap. -/
theorem count_slot_le {a b : Nat} (ha : a < n) (hb : b < n) (hwrap : 0 < wrap) (m : Nat) :
    Nat.count (fun k => slot wrap n k = a) m ≤ Nat.count (fun k => slot wrap n k = b) m + m / wrap + 1 := by
  have hround : ∀ m, m ≤ wrap → Nat.count (fun k => slot wrap n k = a) m ≤ Nat.count (fun k => slot wrap n k = b) m + 1 := by
    intro m hm
    rw [count_slot ha hm, count_slot hb hm]
    split <;> split <;> omega
  induction m using Nat.strong_induction_on with
  | h m ih =>
    by_cases hm : m < wrap
    · exact Nat.le_trans (hround m hm.le) (Nat.succ_le_succ (Nat.le_add_right _ _))
    · -- the first `wrap` turns, and then those of a counter that starts again
      obtain ⟨m', rfl⟩ := Nat.exists_eq_add_of_le (Nat.not_lt.mp hm)
      have hfirst := hround wrap (Nat.le_refl _)
      have hrest := ih m' (by omega)
      have hdiv : (wrap + m') / wrap = m' / wrap + 1 := by rw [Nat.add_div_left m' hwrap]
      rw [Nat.count_add, Nat.count_add, hdiv]
      simp only [slot_add_wrap]
      omega

/-! ## The next turn -/

/-- Among `n` consecutive numbers there is one of each remainder. -/
theorem exists_mod_eq {a : Nat} (ha : a < n) (i : Nat) : ∃ j, i ≤ j ∧ j < i + n ∧ j % n = a := by
  have hpos := Nat.zero_lt_of_lt ha
  have hi := Nat.mod_lt i hpos
  refine ⟨i + (a + (n - i % n)) % n, Nat.le_add_right _ _, Nat.add_lt_add_left (Nat.mod_lt _ hpos) i, ?_⟩
  calc (i + (a + (n - i % n)) % n) % n = (i % n + (a + (n - i % n))) % n := by rw [Nat.add_mod_mod, Nat.mod_add_mod]
    _ = (a + n) % n := by congr 1; omega
    _ = a := by rw [Nat.add_mod_right, Nat.mod_eq_of_lt ha]

/-- Each slot gets a turn within any two rounds but one turn, wrap or not. -/
theorem exists_turn {a : Nat} (ha : a < n) (hwrap : n ≤ wrap) (i : Nat) :
    ∃ j, i ≤ j ∧ j < i + (2 * n - 1) ∧ slot wrap n j = a := by
  have hpos : 0 < wrap := by omega
  have hi := Nat.mod_lt i hpos
  have hsplit := Nat.mod_add_div i wrap
  generalize i / wrap = q at hsplit
  have hslot : ∀ k, k < wrap → slot wrap n (k + wrap * q) = k % n := by
    intro k hk
    rw [slot, Nat.add_mul_mod_self_left, Nat.mod_eq_of_lt hk]
  obtain ⟨j, hij, hj, hja⟩ := exists_mod_eq ha (i % wrap)
  by_cases hnear : j < wrap
  · exact ⟨j + wrap * q, by omega, by omega, (hslot j hnear).trans hja⟩
  · -- the counter wraps within the next round, and the slot gets its turn in the round after
    have haw : a < wrap := Nat.lt_of_lt_of_le ha hwrap
    refine ⟨a + wrap * (q + 1), ?_, ?_, ?_⟩
    · rw [Nat.mul_add_one]
      omega
    · rw [Nat.mul_add_one]
      omega
    · rw [slot, Nat.add_mul_mod_self_left, Nat.mod_eq_of_lt haw, Nat.mod_eq_of_lt ha]

end Cyclic
