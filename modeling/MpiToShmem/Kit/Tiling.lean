import Mathlib.Data.List.Range
import Mathlib.Order.Lattice
import Mathlib.Order.Monotone.Basic

/-!
# Ranges one behind the other

Range `k` goes from boundary `k` up to boundary `k + 1`; the boundaries do not go down.

`countP_tiles`: a point between the first and the last boundary is in one range, and any other point
is in none.
-/

namespace Kit

variable {α : Type*} [LinearOrder α] {b : ℕ → α} {n : ℕ} {x : α}

theorem countP_tiles (hb : Monotone b) (n : ℕ) (x : α) :
    (List.range n).countP (fun k => b k ≤ x ∧ x < b (k + 1)) =
      if b 0 ≤ x ∧ x < b n then 1 else 0 := by
  induction n with
  | zero => exact (if_neg fun h => absurd h.2 h.1.not_gt).symm
  | succ n ih =>
    have hlow := hb (Nat.zero_le n)
    have hhigh := hb (Nat.le_succ n)
    rw [List.range_succ, List.countP_append, ih, List.countP_singleton]
    by_cases hn : x < b n
    · -- the point is in front of the last range
      have hlast : (if decide (b n ≤ x ∧ x < b (n + 1)) = true then 1 else 0) = 0 :=
        if_neg fun h => absurd hn (of_decide_eq_true h).1.not_gt
      rw [hlast, Nat.add_zero]
      exact if_congr (and_congr_right fun _ => iff_of_true hn (hn.trans_le hhigh)) rfl rfl
    · have hle := le_of_not_gt hn
      rw [if_neg fun h => hn h.2, Nat.zero_add]
      refine if_congr ?_ rfl rfl
      rw [decide_eq_true_eq]
      exact and_congr_left fun _ => iff_of_true hle (hlow.trans hle)

theorem exists_tile_iff (hb : Monotone b) :
    (∃ k < n, b k ≤ x ∧ x < b (k + 1)) ↔ b 0 ≤ x ∧ x < b n := by
  have hcount := countP_tiles hb n x
  have hpos : 0 < (List.range n).countP (fun k => b k ≤ x ∧ x < b (k + 1)) ↔
      ∃ k < n, b k ≤ x ∧ x < b (k + 1) := by
    rw [List.countP_pos_iff]
    simp
  rw [← hpos, hcount]
  split_ifs with h <;> simp [h]

end Kit
