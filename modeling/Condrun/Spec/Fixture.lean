import Condrun.Lib.MaxBy
import Condrun.Spec.Predicate

/-! `src/state/fixture.rs`: a network state that is read off a file. Its seconds are elements of a
linear order, since JSON numbers contain no `NaN`. -/

namespace Condrun

structure NetworkSnapshot where
  expensive : Bool
  lowData : Bool
  deriving DecidableEq, Repr

instance : Inhabited NetworkSnapshot := ⟨⟨false, false⟩⟩

/-- A snapshot to apply at `atSecs` seconds after the fixture was created. -/
structure TimedSnapshot (T : Type*) where
  atSecs : T
  state : NetworkSnapshot
  deriving DecidableEq, Repr

inductive StateFixture (T : Type*)
  | static (snapshot : NetworkSnapshot)
  | sequence (snapshots : List (TimedSnapshot T))

variable {T : Type*} [LinearOrder T]

def partialCmp (a b : T) : Option Ordering := some (compare a b)

/-- The snapshot that is active at `elapsedSecs`. -/
def snapshotAt (snapshots : List (TimedSnapshot T)) (elapsedSecs : T) : NetworkSnapshot :=
  let started := snapshots.filter fun s => s.atSecs ≤ elapsedSecs
  let latest := maxBy (fun a b => (partialCmp a.atSecs b.atSecs).getD .eq) started
  (latest.map TimedSnapshot.state).getD default

structure FixtureNetworkState (T : Type*) where
  fixture : StateFixture T
  createdAt : ℕ

namespace FixtureNetworkState

/-- The flag of a read at `now`, with `secs` for `as_secs_f64`. -/
def read (flag : NetworkSnapshot → Bool) (secs : ℕ → T) (s : FixtureNetworkState T) (now : ℕ) :
    Bool :=
  match s.fixture with
  | .static snap => flag snap
  | .sequence snaps =>
    let elapsed := secs (now - s.createdAt) -- `saturating_duration_since`
    flag (snapshotAt snaps elapsed)

def isExpensive (secs : ℕ → T) : FixtureNetworkState T → ℕ → Bool :=
  read NetworkSnapshot.expensive secs

def isLowDataMode (secs : ℕ → T) : FixtureNetworkState T → ℕ → Bool :=
  read NetworkSnapshot.lowData secs

end FixtureNetworkState

end Condrun
