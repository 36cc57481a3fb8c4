import Condrun.Spec.Predicate

/-! `MacOsNetworkState` of `src/state/macos.rs` while a predicate set is evaluated: the update
handler replaces the snapshot at any moment between two reads, and each trait method reads one flag
of it. -/

namespace Condrun

/-- The shared snapshot, the updates still to come (a batch lands before each read, and one more
before the evaluation returns), and every snapshot that has held since the evaluation began. -/
structure Live where
  snapshot : NwPathSnapshot
  updates : List (List NwPathSnapshot)
  held : List NwPathSnapshot
  deriving DecidableEq

namespace Live

def start (x : NwPathSnapshot) (updates : List (List NwPathSnapshot)) : Live := ⟨x, updates, [x]⟩

/-- The update handler. -/
def update (l : Live) (x : NwPathSnapshot) : Live := ⟨x, l.updates, l.held ++ [x]⟩

/-- The next batch lands. -/
def land (l : Live) : Live :=
  (l.updates.headD []).foldl update ⟨l.snapshot, l.updates.tail, l.held⟩

end Live

/-- A read through the mutex. -/
def readFlag (flag : NwPathSnapshot → Bool) : StateM Live Bool := do
  modify Live.land
  return flag (← get).snapshot

def NetworkState.live : NetworkState (StateM Live) where
  isExpensive := readFlag NwPathSnapshot.expensive
  isLowDataMode := readFlag NwPathSnapshot.lowData

inductive Metered
  | expensive
  | lowData
  deriving DecidableEq, Repr

def Metered.flag : Metered → NwPathSnapshot → Bool
  | .expensive => NwPathSnapshot.expensive
  | .lowData => NwPathSnapshot.lowData

def Metered.predicate {m : Type → Type} [Monad m] : Metered → Predicate m
  | .expensive => rejectExpensive
  | .lowData => rejectLowData

/-- The predicate sets `check` and `run` build. -/
def meteredSet {m : Type → Type} [Monad m] (ps : List Metered) (c : Composition) :
    PredicateSet m := .new (ps.map Metered.predicate) c

/-- The verdict on a state that stands still. -/
def verdictOn (ps : List Metered) (c : Composition) (y : NwPathSnapshot) : PredicateResult :=
  (meteredSet ps c).evaluate (NetworkState.still y)

/-- An evaluation with updates: its verdict and the states that held during it. -/
def evaluateLive (ps : List Metered) (c : Composition) (x : NwPathSnapshot)
    (updates : List (List NwPathSnapshot)) : PredicateResult × List NwPathSnapshot :=
  let (res, l) := ((meteredSet ps c).evaluate NetworkState.live).run (.start x updates)
  (res, l.land.held)

end Condrun
