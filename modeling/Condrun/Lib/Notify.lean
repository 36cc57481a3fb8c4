import Mathlib.Data.List.Basic

/-! A cell that passes notifications to waiting futures. A future registers at its first poll;
`notifyOne` picks the future that has waited longest or, when none waits, leaves a permit for the
next poll, and a second permit is lost in the first. A future that is dropped after it was picked
passes its notification on. -/

structure Notify (W : Type*) where
  permit : Bool
  waiters : List W
  picked : List W
  deriving DecidableEq, Repr

namespace Notify

variable {W : Type*}

def new : Notify W := ⟨false, [], []⟩

def notifyOne (n : Notify W) : Notify W :=
  match n.waiters with
  | [] => { n with permit := true }
  | w :: ws => { n with waiters := ws, picked := n.picked ++ [w] }

/-! Where the one future of a cell is. -/

variable {n : Notify W} {w : W}

/-- The future is not registered: it was not polled yet, or it completed. -/
def Away (n : Notify W) : Prop := n.waiters = [] ∧ n.picked = []

/-- The future waits, and there is no permit it could have taken. -/
def Waits (n : Notify W) (w : W) : Prop := n.permit = false ∧ n.waiters = [w] ∧ n.picked = []

def IsPicked (n : Notify W) (w : W) : Prop := n.waiters = [] ∧ n.picked = [w]

theorem away_new : (new : Notify W).Away := ⟨rfl, rfl⟩

theorem Away.notifyOne (h : n.Away) : n.notifyOne.permit = true ∧ n.notifyOne.Away := by
  obtain ⟨p, ws, ps⟩ := n
  obtain ⟨rfl, rfl⟩ := h
  exact ⟨rfl, rfl, rfl⟩

theorem Waits.notifyOne (h : n.Waits w) : n.notifyOne.IsPicked w := by
  obtain ⟨p, ws, ps⟩ := n
  obtain ⟨rfl, rfl, rfl⟩ := h
  exact ⟨rfl, rfl⟩

theorem IsPicked.notifyOne (h : n.IsPicked w) : n.notifyOne.IsPicked w := by
  obtain ⟨p, ws, ps⟩ := n
  obtain ⟨rfl, rfl⟩ := h
  exact ⟨rfl, rfl⟩

variable [DecidableEq W]

/-- A poll of the future `w`, and whether it is ready. -/
def poll (n : Notify W) (w : W) : Bool × Notify W :=
  if w ∈ n.picked then (true, { n with picked := n.picked.erase w })
  else if w ∈ n.waiters then (false, n)
  else if n.permit then (true, { n with permit := false })
  else (false, { n with waiters := n.waiters ++ [w] })

def drop (n : Notify W) (w : W) : Notify W :=
  if w ∈ n.picked then notifyOne { n with picked := n.picked.erase w }
  else { n with waiters := n.waiters.erase w }

/-- A first poll takes the permit, or the future waits from then on. -/
theorem Away.poll (h : n.Away) (w : W) :
    (n.permit = true ∧ (n.poll w).1 = true ∧ (n.poll w).2.Away) ∨
    (n.permit = false ∧ (n.poll w).1 = false ∧ (n.poll w).2.Waits w) := by
  obtain ⟨p, ws, ps⟩ := n
  obtain ⟨rfl, rfl⟩ := h
  cases p
  · exact Or.inr ⟨rfl, rfl, rfl, rfl, rfl⟩
  · exact Or.inl ⟨rfl, rfl, rfl, rfl⟩

theorem Waits.poll (h : n.Waits w) : n.poll w = (false, n) := by
  obtain ⟨p, ws, ps⟩ := n
  obtain ⟨rfl, rfl, rfl⟩ := h
  simp [Notify.poll]

theorem IsPicked.poll (h : n.IsPicked w) : (n.poll w).1 = true ∧ (n.poll w).2.Away := by
  obtain ⟨p, ws, ps⟩ := n
  obtain ⟨rfl, rfl⟩ := h
  simp [Notify.poll, Away]

theorem Waits.drop (h : n.Waits w) : (n.drop w).Away := by
  obtain ⟨p, ws, ps⟩ := n
  obtain ⟨rfl, rfl, rfl⟩ := h
  simp [Notify.drop, Away]

theorem IsPicked.drop (h : n.IsPicked w) : (n.drop w).permit = true ∧ (n.drop w).Away := by
  obtain ⟨p, ws, ps⟩ := n
  obtain ⟨rfl, rfl⟩ := h
  simp [Notify.drop, Notify.notifyOne, Away]

end Notify
