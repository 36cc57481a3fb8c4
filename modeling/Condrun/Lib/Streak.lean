import Mathlib.Data.Nat.Notation
import Mathlib.Tactic.Common

/-! The streak of a property of the observations `1, 2, …`: how many of the latest ones, without a
gap, have it. -/

def streak (p : ℕ → Prop) [DecidablePred p] : ℕ → ℕ
  | 0 => 0
  | k + 1 => if p (k + 1) then streak p k + 1 else 0

namespace Streak

variable {p : ℕ → Prop} [DecidablePred p] {n k : ℕ}

theorem succ_of_pos (h : p (k + 1)) : streak p (k + 1) = streak p k + 1 := if_pos h

theorem succ_of_neg (h : ¬ p (k + 1)) : streak p (k + 1) = 0 := if_neg h

theorem le_self (p : ℕ → Prop) [DecidablePred p] (k : ℕ) : streak p k ≤ k := by
  induction k with
  | zero => exact Nat.le_refl _
  | succ k ih =>
    by_cases h : p (k + 1)
    · rw [succ_of_pos h]
      exact Nat.succ_le_succ ih
    · rw [succ_of_neg h]
      exact Nat.zero_le _

theorem pos_iff : 0 < streak p (k + 1) ↔ p (k + 1) := by
  by_cases h : p (k + 1)
  · rw [succ_of_pos h]
    exact iff_of_true (Nat.succ_pos _) h
  · rw [succ_of_neg h]
    exact iff_of_false (Nat.lt_irrefl _) h

/-- A streak of `n` is one of the last `n` observations. -/
theorem le_iff : n ≤ streak p k ↔ n ≤ k ∧ ∀ i, k - n < i → i ≤ k → p i := by
  induction k generalizing n with
  | zero =>
    refine ⟨fun h => ⟨h, fun i hi hle => by omega⟩, fun h => h.1⟩
  | succ k ih =>
    cases n with
    | zero => exact iff_of_true (Nat.zero_le _) ⟨Nat.zero_le _, fun i hi hle => by omega⟩
    | succ n =>
      by_cases h : p (k + 1)
      · rw [succ_of_pos h, Nat.succ_le_succ_iff, ih, Nat.succ_le_succ_iff]
        refine and_congr_right fun _ => ⟨fun hall i hi hle => ?_, fun hall i hi hle => ?_⟩
        · rcases Nat.lt_or_eq_of_le hle with hlt | rfl
          · exact hall i (by omega) (Nat.le_of_lt_succ hlt)
          · exact h
        · exact hall i (by omega) (by omega)
      · rw [succ_of_neg h]
        refine iff_of_false (Nat.not_succ_le_zero n) fun hall => h ?_
        exact hall.2 (k + 1) (by omega) (Nat.le_refl _)

end Streak
