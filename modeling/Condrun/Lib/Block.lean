import Mathlib.Data.List.Basic
import Mathlib.Data.Nat.Basic

/-! Maximal blocks in a list: the entries `j` to `k` satisfy `p`, and the entry before `j`, if there
is one, does not. Lists here grow at their end, so a block either grows with them or is over. -/

structure Block {α : Type*} (p : α → Prop) (l : List α) (j k : ℕ) : Prop where
  le : j ≤ k
  all : ∀ i, j ≤ i → i ≤ k → ∃ a, l[i]? = some a ∧ p a
  start : ∀ i a, i + 1 = j → l[i]? = some a → ¬ p a

namespace Block

variable {α : Type*} {p : α → Prop} {l l' : List α} {a : α} {i j k : ℕ}

theorem last (h : Block p l j k) : ∃ a, l[k]? = some a ∧ p a := h.all k h.le le_rfl

theorem first (h : Block p l j k) : ∃ a, l[j]? = some a ∧ p a := h.all j le_rfl h.le

/-- Entries after `k` do not matter. -/
theorem append_iff (hk : k < l.length) : Block p (l ++ l') j k ↔ Block p l j k := by
  have hget : ∀ i, i ≤ k → (l ++ l')[i]? = l[i]? := fun i hi =>
    List.getElem?_append_left (lt_of_le_of_lt hi hk)
  refine ⟨?_, ?_⟩
  · rintro ⟨hle, hall, hstart⟩
    refine ⟨hle, fun i h1 h2 => ?_, fun i a hi ha => ?_⟩
    · rw [← hget i h2]; exact hall i h1 h2
    · exact hstart i a hi (by rw [hget i (by omega)]; exact ha)
  · rintro ⟨hle, hall, hstart⟩
    refine ⟨hle, fun i h1 h2 => ?_, fun i a hi ha => ?_⟩
    · rw [hget i h2]; exact hall i h1 h2
    · exact hstart i a hi (by rw [← hget i (by omega)]; exact ha)

/-- The block that ends at `k` starts at one place only. -/
theorem start_unique (h : Block p l i k) (h' : Block p l j k) : i = j := by
  by_contra hne
  rcases Nat.lt_or_gt_of_ne hne with hlt | hlt
  · obtain ⟨a, ha, hp⟩ := h.all (j - 1) (by omega) (by have := h'.le; omega)
    exact h'.start (j - 1) a (by omega) ha hp
  · obtain ⟨a, ha, hp⟩ := h'.all (i - 1) (by omega) (by have := h.le; omega)
    exact h.start (i - 1) a (by omega) ha hp

theorem exists_start (h : ∃ a, l[k]? = some a ∧ p a) : ∃ j, Block p l j k := by
  induction k with
  | zero =>
    refine ⟨0, le_rfl, fun i _ h2 => ?_, fun i a hi => by omega⟩
    obtain rfl : i = 0 := by omega
    exact h
  | succ k ih =>
    by_cases hk : ∃ a, l[k]? = some a ∧ p a
    · obtain ⟨j, hj⟩ := ih hk
      refine ⟨j, by have := hj.le; omega, fun i h1 h2 => ?_, hj.start⟩
      rcases Nat.lt_or_eq_of_le h2 with hlt | rfl
      · exact hj.all i h1 (by omega)
      · exact h
    · refine ⟨k + 1, le_rfl, fun i h1 h2 => ?_, fun i a hi ha hp => ?_⟩
      · obtain rfl : i = k + 1 := by omega
        exact h
      · obtain rfl : i = k := by omega
        exact hk ⟨a, ha, hp⟩

theorem extend (h : Block p l j k) (hk : k + 1 = l.length) (ha : p a) :
    Block p (l ++ [a]) j (k + 1) := by
  refine ⟨by have := h.le; omega, fun i h1 h2 => ?_, fun i b hi hb => ?_⟩
  · rcases Nat.lt_or_ge i l.length with hi | hi
    · rw [List.getElem?_append_left hi]
      exact h.all i h1 (by omega)
    · obtain rfl : i = l.length := by omega
      exact ⟨a, by simp, ha⟩
  · rw [List.getElem?_append_left (by have := h.le; omega)] at hb
    exact h.start i b hi hb

theorem fresh (hl : ∀ b, l.getLast? = some b → ¬ p b) (ha : p a) :
    Block p (l ++ [a]) l.length l.length := by
  refine ⟨le_rfl, fun i h1 h2 => ?_, fun i b hi hb => ?_⟩
  · obtain rfl : i = l.length := by omega
    exact ⟨a, by simp, ha⟩
  · rw [List.getElem?_append_left (by omega)] at hb
    apply hl b
    rw [List.getLast?_eq_getElem?, ← hb]
    congr 1
    omega

end Block
