import Condrun.Spec.Process

/-! `FakeChildHandle` of `src/process/fake.rs`. Every method awaits one sleep at most, so a call is
the state in which it suspends, the sleep, and the state and output with which it returns. -/

namespace Condrun

structure ChildState where
  exited : Bool
  exitCode : BitVec 32
  terminated : Bool
  killed : Bool
  lastSignal : Option SignalKind
  deriving DecidableEq, Repr

structure FakeChildHandle where
  exitDelay : ℕ
  terminateDelay : ℕ
  state : ChildState
  deriving DecidableEq, Repr

/-- A call that is dropped before it returns leaves `suspended`. -/
structure Called (α : Type) where
  suspended : ChildState
  sleep : Option ℕ
  returned : ChildState
  output : α

/-- When a call made at `t` returns. -/
def Called.resolvesAt {α : Type} (c : Called α) (t : ℕ) : ℕ := t + c.sleep.getD 0

/-- `ExitStatus::from_raw(code << 8)`. -/
def makeStatus (code : BitVec 32) : ExitStatus := ⟨code <<< 8⟩

namespace FakeChildHandle

def new (exitCode : BitVec 32) (exitDelay : ℕ) : FakeChildHandle where
  exitDelay
  terminateDelay := 0
  state := ⟨false, exitCode, false, false, none⟩

def withTerminateDelay (h : FakeChildHandle) (d : ℕ) : FakeChildHandle :=
  { h with terminateDelay := d }

/-- `notify_waiters` wakes nobody: it could only wake a `wait` of this handle, and the call that
marks the exit has the handle to itself. -/
def markExited (s : ChildState) : ChildState := { s with exited := true }

/-- The `notified` branch of the `select!` is never ready, for the reason at `markExited`. -/
def wait (h : FakeChildHandle) : Called ExitStatus :=
  if h.state.exited then ⟨h.state, none, h.state, makeStatus h.state.exitCode⟩
  else ⟨h.state, some h.exitDelay, markExited h.state, makeStatus h.state.exitCode⟩

def terminate (h : FakeChildHandle) (grace : ℕ) : Called (Except Error Unit) :=
  let s := { h.state with terminated := true }
  if h.terminateDelay ≤ grace then
    -- graceful: the child exits within grace
    ⟨s, some h.terminateDelay, markExited s, .ok ()⟩
  else
    -- resistant: the full grace, then `SIGKILL`
    ⟨s, some grace, markExited { s with killed := true }, .ok ()⟩

def signal (h : FakeChildHandle) (kind : SignalKind) : Called (Except Error Unit) :=
  let s := { h.state with lastSignal := some kind }
  ⟨s, none, s, .ok ()⟩

/-- The handle while a method is suspended or once it was dropped. -/
def onCall (h : FakeChildHandle) : ChildOp → FakeChildHandle
  | .wait => { h with state := h.wait.suspended }
  | .signal kind => { h with state := (h.signal kind).suspended }
  | .terminate grace => { h with state := (h.terminate grace).suspended }

/-- The handle once a method returned. -/
def onReturn (h : FakeChildHandle) : ChildOp → FakeChildHandle
  | .wait => { h with state := h.wait.returned }
  | .signal kind => { h with state := (h.signal kind).returned }
  | .terminate grace => { h with state := (h.terminate grace).returned }

end FakeChildHandle

end Condrun
