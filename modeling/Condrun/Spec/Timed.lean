import Condrun.Spec.Supervisor

/-! `Supervisor::run` from the spawn on, in an environment whose parts are functions of time and of
what was done to the child. Every future completes at the earliest instant it can, evaluations take
no time, and what is left open is which of the futures ready at one instant a `select!` takes. -/

namespace Condrun

/-- An operation called on the child, or one that completed with its output. -/
inductive Act
  | call (op : ChildOp)
  | done (ev : Event)
  deriving DecidableEq

/-- The operations on the child with their times. Waits that are dropped do not show. -/
abbrev Acts := List (ℕ × Act)

/-- The instants of the calls of `terminate`. -/
def terminateTimes (acts : Acts) : List ℕ :=
  acts.filterMap fun
    | (t, .call (.terminate _)) => some t
    | _ => none

/-- `wait acts created` is the instant at which the child is gone and its status, for a wait called
at `created` after `acts`; `reply acts op` is the instant at which the call of `op` that ends `acts`
completes, and its result. -/
structure Env where
  set : PredicateSet Id
  network : ℕ → NwPathSnapshot
  arrivals : ℕ → Option (ℕ × SignalKind)
  wait : Acts → ℕ → Option (ℕ × ExitStatus)
  reply : Acts → ChildOp → Option (ℕ × Except Error Unit)

def Env.verdict (env : Env) (t : ℕ) : PredicateResult :=
  env.set.evaluate (NetworkState.still (env.network t))

/-- `taken` counts the signals dequeued, and `now` is the instant of the last step. -/
structure Timed where
  phase : Phase
  now : ℕ
  taken : ℕ
  acts : Acts
  deriving DecidableEq

/-- When a future awaited since the last step completes, and with what. -/
def Env.completes (env : Env) (s : Timed) : Fut → Option (ℕ × Event)
  | .evaluate => some (s.now, .evaluated (env.verdict s.now))
  | .next => (env.arrivals s.taken).map fun a => (max s.now a.1, .signalled a.2)
  | .sleep d => some (s.now + d, .elapsed d)
  | .spawn _ => none -- the child is spawned already
  | .child .wait => (env.wait s.acts s.now).map fun e => (max s.now e.1, .exited e.2)
  | .child (.signal kind) =>
    (env.reply s.acts (.signal kind)).map fun r => (max s.now r.1, .signalSent kind r.2)
  | .child (.terminate grace) =>
    (env.reply s.acts (.terminate grace)).map fun r => (max s.now r.1, .terminated grace r.2)

def Env.readyAt (env : Env) (s : Timed) (f : Fut) : Option ℕ := (env.completes s f).map Prod.fst

/-- The calls made on the way into a phase. A wait acts on nothing. -/
def Phase.called (cfg : SupervisorConfig) (cmd : CommandSpec) (p : Phase) : List ChildOp :=
  (p.awaits cfg cmd).branches.filterMap fun
    | .child (.signal kind) => some (.signal kind)
    | .child (.terminate grace) => some (.terminate grace)
    | _ => none

def Timed.after (cfg : SupervisorConfig) (cmd : CommandSpec) (s : Timed) (t : ℕ) (ev : Event)
    (p : Phase) : Timed where
  phase := p
  now := t
  taken := s.taken + ev.sig?.toList.length
  acts := s.acts ++ (ev.op?.toList.map fun _ => (t, .done ev)) ++
    ((p.called cfg cmd).map fun op => (t, .call op))

/-- One step: some future of the `select!` that is ready first completes. -/
def Timed.Step (cfg : SupervisorConfig) (cmd : CommandSpec) (env : Env) (s : Timed) (en : Entry)
    (s' : Timed) : Prop :=
  (s.phase.awaits cfg cmd).FiresAt (env.readyAt s) en.event.fut en.time ∧
    env.completes s en.event.fut = some (en.time, en.event) ∧
    resume cfg en.time s.phase en.event = some en.next ∧
    s' = s.after cfg cmd en.time en.event en.next

def TimedStep (cfg : SupervisorConfig) (cmd : CommandSpec) (env : Env) (s s' : Timed) : Prop :=
  ∃ en, s.Step cfg cmd env en s'

/-- The state right after a child was spawned at `t`. -/
def spawnedAt (cfg : SupervisorConfig) (t : ℕ) : Timed where
  phase := if cfg.killOnChange then .watching none else .plain
  now := t
  taken := 0
  acts := []

/-- The runs from a spawn at `t`, each step labelled with what completed. -/
def timed (cfg : SupervisorConfig) (cmd : CommandSpec) (env : Env) (t : ℕ) : Lts Timed Entry where
  init s := s = spawnedAt cfg t
  step := Timed.Step cfg cmd env

/-- From a spawn at `t` the run can come to `s`. -/
def Reaches (cfg : SupervisorConfig) (cmd : CommandSpec) (env : Env) (t : ℕ) (s : Timed) : Prop :=
  Relation.ReflTransGen (TimedStep cfg cmd env) (spawnedAt cfg t) s

/-- What a run from a spawn at `t` can produce: the operations on the child and the result. -/
def Outcome (cfg : SupervisorConfig) (cmd : CommandSpec) (env : Env) (t : ℕ) (acts : Acts)
    (r : Except Error ℤ) : Prop :=
  ∃ s, Reaches cfg cmd env t s ∧ s.phase = .returned r ∧ s.acts = acts

end Condrun
