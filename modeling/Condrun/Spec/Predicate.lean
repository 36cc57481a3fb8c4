import Mathlib.Control.Basic

/-! `src/predicate` and the `NetworkState` trait of `src/state`. An async method is a computation in
a monad `m`, so one definition serves a state that stands still and one that changes between two
reads. -/

namespace Condrun

/-- Outcome of evaluating a single predicate. -/
inductive PredicateResult
  | pass
  | fail (reason : String)
  deriving DecidableEq, Repr

def PredicateResult.isPass : PredicateResult → Bool
  | .pass => true
  | .fail _ => false

theorem PredicateResult.isPass_iff {r : PredicateResult} : r.isPass = true ↔ r = .pass := by
  cases r <;> simp [isPass]

structure NetworkState (m : Type → Type) where
  isExpensive : m Bool
  isLowDataMode : m Bool

structure Predicate (m : Type → Type) where
  name : String
  evaluate : NetworkState m → m PredicateResult

/-- Composition mode for combining multiple predicates. -/
inductive Composition
  | and
  | or
  deriving DecidableEq, Repr

structure PredicateSet (m : Type → Type) where
  predicates : List (Predicate m)
  composition : Composition

namespace PredicateSet

variable {m : Type → Type}

def new (predicates : List (Predicate m)) (composition : Composition) : PredicateSet m :=
  ⟨predicates, composition⟩

def and (predicates : List (Predicate m)) : PredicateSet m := new predicates .and

def or (predicates : List (Predicate m)) : PredicateSet m := new predicates .or

variable [Monad m]

/-- The loop of the AND arm: the first failure is returned as it is. -/
def evaluateAnd (state : NetworkState m) : List (Predicate m) → m PredicateResult
  | [] => pure .pass
  | p :: ps => do
    match ← p.evaluate state with
    | .pass => evaluateAnd state ps
    | .fail reason => pure (.fail reason)

/-- The loop of the OR arm, with the reasons pushed so far. -/
def evaluateOr (state : NetworkState m) : List (Predicate m) → List String → m PredicateResult
  | [], reasons => pure (.fail ("; ".intercalate reasons))
  | p :: ps, reasons => do
    match ← p.evaluate state with
    | .pass => pure .pass
    | .fail reason => evaluateOr state ps (reasons ++ [reason])

def evaluate (set : PredicateSet m) (state : NetworkState m) : m PredicateResult :=
  match set.composition with
  | .and =>
    if set.predicates.isEmpty then pure .pass -- vacuous truth
    else evaluateAnd state set.predicates
  | .or =>
    if set.predicates.isEmpty then pure (.fail "no predicates")
    else evaluateOr state set.predicates []

end PredicateSet

/-! The two metered predicates veto on one flag each. -/

section Metered

variable {m : Type → Type} [Monad m]

def rejectFlag (name : String) (flag : NetworkState m → m Bool) (reason : String) :
    Predicate m where
  name := name
  evaluate state := do
    if ← flag state then pure (.fail reason) else pure .pass

def rejectExpensive : Predicate m :=
  rejectFlag "reject-expensive" NetworkState.isExpensive
    "current connection is expensive (Personal Hotspot or cellular)"

def rejectLowData : Predicate m :=
  rejectFlag "reject-low-data" NetworkState.isLowDataMode
    "current connection has Low Data Mode enabled"

end Metered

/-- What the update handler writes and the trait methods read. -/
structure NwPathSnapshot where
  expensive : Bool
  lowData : Bool
  deriving DecidableEq, Repr

/-- A network state that does not change while it is read. -/
def NetworkState.still (x : NwPathSnapshot) : NetworkState Id where
  isExpensive := x.expensive
  isLowDataMode := x.lowData

end Condrun
