import Condrun.Spec.Supervisor
import Condrun.Spec.Tokio

/-! The supervisor over `TokioChildHandle` over the kernel. `Child::wait` reaps when it completes
and not before, dropping it does nothing, and once the child is reaped it returns the cached
status. -/

namespace Condrun

/-- The process behind the handle. -/
inductive Proc
  | absent
  | running
  | zombie (status : ExitStatus)
  | reaped (status : ExitStatus)
  deriving DecidableEq

/-- The status `Child::wait` completes with. -/
def Proc.status? : Proc → Option ExitStatus
  | .zombie status | .reaped status => some status
  | _ => none

/-- What the kernel sees of the handle: a signal to the group, or a wait that completed. -/
inductive Sys
  | killpg (sig : Sig)
  | waited
  deriving DecidableEq, Repr

/-- `await` is where the method that the supervisor awaits is suspended: `none` when it has returned
or when no method is awaited. -/
structure Machine where
  sup : State
  await : Option TokioChildHandle.Await
  proc : Proc
  log : List Sys
  deriving DecidableEq

namespace Machine

/-- The method of the handle that is called on the way into a phase. -/
def op? (cfg : SupervisorConfig) (cmd : CommandSpec) (p : Phase) : Option ChildOp :=
  (p.awaits cfg cmd).branches.findSome? fun
    | .child op => some op
    | _ => none

/-- What a method does up to its next await. -/
def run (m : Machine) (r : TokioChildHandle.Ran) : Machine :=
  { m with await := r.await, log := m.log ++ r.killpg.map .killpg }

/-- The supervisor steps to `s`, drops the method it awaited and calls the one of the new phase. -/
def enter (cfg : SupervisorConfig) (cmd : CommandSpec) (m : Machine) (s : State) : Machine :=
  match op? cfg cmd s.phase with
  | none => { m with sup := s, await := none }
  | some op => { m with sup := s }.run (TokioChildHandle.call op)

/-- The process after a wait completed with its status. -/
def reap (m : Machine) (status : ExitStatus) : Machine :=
  { m with proc := .reaped status, log := m.log ++ [.waited] }

/-- The process after a step of the supervisor. -/
def spawned (m : Machine) (ev : Event) : Machine :=
  match ev with
  | .spawned _ (.ok _) => { m with proc := .running }
  | _ => m

end Machine

inductive Beat
  | exit (status : ExitStatus)
  | expire (d : ℕ)
  | resume (en : Entry)
  deriving DecidableEq

/-- `resume` steps the supervisor: with a future that is not the handle's, with a method that
returned before its first await, or with one whose wait completes now. -/
inductive MachineStep (cfg : SupervisorConfig) (cmd : CommandSpec) (m : Machine) :
    Beat → Machine → Prop
  | exit (st : ExitStatus) (hp : m.proc = .running) :
      MachineStep cfg cmd m (.exit st) { m with proc := .zombie st }
  | expire {a : TokioChildHandle.Await} {d : ℕ} (ha : m.await = some a)
      (hf : .sleep d ∈ a.awaits.branches) :
      MachineStep cfg cmd m (.expire d) (m.run (TokioChildHandle.resume a (.sleep d)))
  | other {en : Entry} {s : State} (ho : en.event.op? = none) (hst : Step cfg cmd m.sup en s) :
      MachineStep cfg cmd m (.resume en) ((m.spawned en.event).enter cfg cmd s)
  | atOnce {en : Entry} {s : State} {kind : SignalKind} (ha : m.await = none)
      (he : en.event = .signalSent kind (.ok ())) (hst : Step cfg cmd m.sup en s) :
      MachineStep cfg cmd m (.resume en) (m.enter cfg cmd s)
  | waited {en : Entry} {s : State} {a : TokioChildHandle.Await} {st : ExitStatus}
      (ha : m.await = some a) (hf : .wait ∈ a.awaits.branches) (hp : m.proc.status? = some st)
      (he : en.event = .exited st ∨ ∃ grace, en.event = .terminated grace (.ok ()))
      (hst : Step cfg cmd m.sup en s) :
      MachineStep cfg cmd m (.resume en)
        (((m.reap st).run (TokioChildHandle.resume a .wait)).enter cfg cmd s)

def machine (cfg : SupervisorConfig) (cmd : CommandSpec) : Lts Machine Beat where
  init m := m.sup.phase = .preflight ∧ m.await = none ∧ m.proc = .absent ∧ m.log = []
  step := MachineStep cfg cmd

end Condrun
