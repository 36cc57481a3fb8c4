import Condrun.Lib.Run
import Condrun.Lib.Select
import Condrun.Spec.Process

/-! `TokioChildHandle` of `src/process/tokio.rs`: what each method does up to its first `.await`,
and from one `.await` to the next. The pid doubles as the group id, so every `killpg` goes to the
group the child leads. -/

namespace Condrun

/-- `nix::sys::signal::Signal`, as far as the handle sends it. -/
inductive Sig
  | int
  | term
  | quit
  | hup
  | kill
  deriving DecidableEq, Repr

/-- The futures of tokio that the handle awaits: `Child::wait` and `sleep`. -/
inductive OsFut
  | wait
  | sleep (d : ℕ)
  deriving DecidableEq, Repr

namespace TokioChildHandle

/-- Where a method is suspended: in `wait`, in the `select!` of `terminate`, or in the wait after
its `SIGKILL`. -/
inductive Await
  | waiting
  | racing (grace : ℕ)
  | reaping
  deriving DecidableEq, Repr

def Await.awaits : Await → Select OsFut
  | .waiting => ⟨false, [.wait]⟩
  | .racing grace => ⟨false, [.wait, .sleep grace]⟩
  | .reaping => ⟨false, [.wait]⟩

/-- The signals a method sends to the group before it suspends or returns. Errors of `killpg` are
dropped, and what returns returns `Ok`. -/
structure Ran where
  killpg : List Sig
  await : Option Await
  deriving DecidableEq, Repr

def wait : Ran := ⟨[], some .waiting⟩

def terminate (grace : ℕ) : Ran := ⟨[.term], some (.racing grace)⟩

def signal (kind : SignalKind) : Ran :=
  let sig := match kind with
    | .interrupt => .int
    | .terminate => .term
    | .quit => .quit
    | .hup => .hup
  ⟨[sig], none⟩

def call : ChildOp → Ran
  | .wait => wait
  | .signal kind => signal kind
  | .terminate grace => terminate grace

/-- A method whose await completed with `f`. -/
def resume : Await → OsFut → Ran
  | .racing _, .sleep _ => ⟨[.kill], some .reaping⟩
  | _, _ => ⟨[], none⟩

end TokioChildHandle

/-! A command as the process group that `setsid` makes of it. Before `terminate` all members are
alive; on `SIGTERM` a member exits after a delay or not at all, on `SIGKILL` it dies at once. -/

structure Member where
  onTerm : Option ℕ
  deriving DecidableEq, Repr

structure Group where
  leader : Member
  others : List Member
  deriving DecidableEq, Repr

namespace Member

def reaction (m : Member) (sent : ℕ × Sig) : Option ℕ :=
  match sent.2 with
  | .term => m.onTerm.map (sent.1 + ·)
  | .kill => some sent.1
  | _ => none

/-- The instant the member dies, under the signals sent to its group. -/
def diesAt (m : Member) (sent : List (ℕ × Sig)) : Option ℕ := (sent.filterMap m.reaction).min?

def DeadBy (m : Member) (sent : List (ℕ × Sig)) (t : ℕ) : Prop :=
  ∃ u, m.diesAt sent = some u ∧ u ≤ t

end Member

/-- A method under way on a group: where it is suspended (`none` once it returned), since when, and
the signals sent. -/
structure Under where
  await : Option TokioChildHandle.Await
  now : ℕ
  sent : List (ℕ × Sig)
  deriving DecidableEq, Repr

def Under.after (now : ℕ) (sent : List (ℕ × Sig)) (r : TokioChildHandle.Ran) : Under :=
  ⟨r.await, now, sent ++ r.killpg.map (now, ·)⟩

/-- `dies` tells when the leader is dead, under the signals sent. `Child::wait` is ready then. -/
def Under.readyAt (dies : List (ℕ × Sig) → Option ℕ) (u : Under) : OsFut → Option ℕ
  | .wait => (dies u.sent).map (max u.now)
  | .sleep d => some (u.now + d)

def Under.Step (dies : List (ℕ × Sig) → Option ℕ) (u : Under) (l : OsFut × ℕ) (u' : Under) :
    Prop :=
  ∃ a, u.await = some a ∧ a.awaits.FiresAt (u.readyAt dies) l.1 l.2 ∧
    u' = .after l.2 u.sent (TokioChildHandle.resume a l.1)

/-- A call of `terminate(grace)` at the instant `t`, after the signals `prior`. -/
def terminateAfter (dies : List (ℕ × Sig) → Option ℕ) (prior : List (ℕ × Sig)) (grace t : ℕ) :
    Lts Under (OsFut × ℕ) where
  init u := u = .after t prior (TokioChildHandle.terminate grace)
  step := Under.Step dies

/-- The first call that signals the group. -/
def terminateOn (g : Group) (grace t : ℕ) : Lts Under (OsFut × ℕ) :=
  terminateAfter g.leader.diesAt [] grace t

end Condrun
