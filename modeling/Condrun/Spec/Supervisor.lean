import Condrun.Lib.Run
import Condrun.Lib.Select
import Condrun.Spec.Predicate
import Condrun.Spec.Process

/-! `Supervisor::run` and `wait_with_escalation` of `src/supervisor.rs`, as the state machines their
`async` bodies are: a phase for each `.await` with the locals alive there, the futures awaited in
it, and what the code between one `.await` and the next does with the output of the future that
completed. What completes, when and with what output is left to the environment, so a run here
stands for every predicate set, network, spawner, child and signal source at once. -/

namespace Condrun

structure SupervisorConfig where
  strict : Bool
  killOnChange : Bool
  grace : ℕ
  poll : ℕ
  debounce : ℕ
  deriving DecidableEq, Repr

/-- The futures the supervisor awaits. -/
inductive Fut
  | evaluate
  | next
  | sleep (d : ℕ)
  | spawn (cmd : CommandSpec)
  | child (op : ChildOp)
  deriving DecidableEq, Repr

/-- A future completed with its output. -/
inductive Event
  | evaluated (res : PredicateResult)
  | signalled (sig : SignalKind)
  | elapsed (d : ℕ)
  | spawned (cmd : CommandSpec) (res : Except Error Unit)
  | exited (status : ExitStatus)
  | signalSent (sig : SignalKind) (res : Except Error Unit)
  | terminated (grace : ℕ) (res : Except Error Unit)
  deriving DecidableEq

def Event.fut : Event → Fut
  | .evaluated _ => .evaluate
  | .signalled _ => .next
  | .elapsed d => .sleep d
  | .spawned cmd _ => .spawn cmd
  | .exited _ => .child .wait
  | .signalSent sig _ => .child (.signal sig)
  | .terminated grace _ => .child (.terminate grace)

/-- The awaits of `wait_with_escalation`. -/
inductive Escalation
  | racing
  | terminating
  | draining
  deriving DecidableEq, Repr

def Escalation.awaits (grace : ℕ) : Escalation → Select Fut
  | .racing => ⟨false, [.child .wait, .next]⟩
  | .terminating => ⟨false, [.child (.terminate grace)]⟩
  | .draining => ⟨false, [.child .wait]⟩

/-- `wait_with_escalation` up to its next await, or to its return. -/
def waitWithEscalation : Escalation → Event → Option (Escalation ⊕ Except Error ℤ)
  | .racing, .exited status => some (.inr (.ok (if status.success then 0 else 2)))
  | .racing, .signalled _ => some (.inl .terminating)
  | .terminating, .terminated _ _ => some (.inl .draining) -- an error is logged
  | .draining, .exited _ => some (.inr (.ok 3))
  | _, _ => none

/-- The awaits of `Supervisor::run`. -/
inductive Phase
  | preflight
  | spawning
  | watching (failStartedAt : Option ℕ)
  | evaluating (failStartedAt : Option ℕ)
  | killing
  | draining
  | plain
  | forwarding (sig : SignalKind)
  | escalating (e : Escalation)
  | returned (result : Except Error ℤ)
  deriving DecidableEq

def Phase.awaits (cfg : SupervisorConfig) (cmd : CommandSpec) : Phase → Select Fut
  | .preflight => ⟨false, [.evaluate, .next]⟩
  | .spawning => ⟨false, [.spawn cmd]⟩
  | .watching _ => ⟨true, [.child .wait, .next, .sleep cfg.poll]⟩
  | .evaluating _ => ⟨false, [.evaluate]⟩
  | .killing => ⟨false, [.child (.terminate cfg.grace)]⟩
  | .draining => ⟨false, [.child .wait]⟩
  | .plain => ⟨false, [.child .wait, .next]⟩
  | .forwarding sig => ⟨false, [.child (.signal sig)]⟩
  | .escalating e => e.awaits cfg.grace
  | .returned _ => ⟨false, []⟩

/-- The status mapping at the end of `run`. -/
def exitCode (status : ExitStatus) : ℤ := if status.success then 0 else 2

/-- `Supervisor::run` up to its next await, or to its return, with the clock at `now`. -/
def resume (cfg : SupervisorConfig) (now : ℕ) : Phase → Event → Option Phase
  | .preflight, .evaluated .pass => some .spawning
  | .preflight, .evaluated (.fail _) => some (.returned (.ok (if cfg.strict then 1 else 0)))
  | .preflight, .signalled _ => some (.returned (.ok 0))
  | .spawning, .spawned _ (.ok _) => some (if cfg.killOnChange then .watching none else .plain)
  | .spawning, .spawned _ (.error err) => some (.returned (.error err))
  | .watching _, .exited status => some (.returned (.ok (exitCode status)))
  | .watching _, .signalled sig => some (.forwarding sig)
  | .watching failStartedAt, .elapsed _ => some (.evaluating failStartedAt)
  | .evaluating _, .evaluated .pass => some (.watching none)
  | .evaluating failStartedAt, .evaluated (.fail _) =>
    let started := failStartedAt.getD now
    let elapsed := now - started -- `saturating_duration_since`
    if elapsed ≥ cfg.debounce then some .killing else some (.watching (some started))
  | .killing, .terminated _ (.ok _) => some .draining
  | .killing, .terminated _ (.error err) => some (.returned (.error err))
  | .draining, .exited _ => some (.returned (.ok 3))
  | .plain, .exited status => some (.returned (.ok (exitCode status)))
  | .plain, .signalled sig => some (.forwarding sig)
  | .forwarding _, .signalSent _ _ => some (.escalating .racing) -- an error is logged
  | .escalating e, event => (waitWithEscalation e event).map fun
    | .inl e' => .escalating e'
    | .inr result => .returned result
  | _, _ => none

structure State where
  phase : Phase
  now : ℕ
  deriving DecidableEq

/-- One step of a run: what completed, when, and the phase the code then went on to. -/
structure Entry where
  time : ℕ
  event : Event
  next : Phase
  deriving DecidableEq

structure Step (cfg : SupervisorConfig) (cmd : CommandSpec) (s : State) (en : Entry)
    (s' : State) : Prop where
  mono : s.now ≤ en.time
  awaited : en.event.fut ∈ (s.phase.awaits cfg cmd).branches
  resumes : resume cfg en.time s.phase en.event = some en.next
  target : s' = ⟨en.next, en.time⟩

def supervisor (cfg : SupervisorConfig) (cmd : CommandSpec) : Lts State Entry where
  init s := s.phase = .preflight
  step := Step cfg cmd

/-! Runs can be replayed from what completed and when. -/

def replay (cfg : SupervisorConfig) (cmd : CommandSpec) :
    State → List (ℕ × Event) → Option (List Entry × State)
  | s, [] => some ([], s)
  | s, (t, event) :: events =>
    if s.now ≤ t ∧ event.fut ∈ (s.phase.awaits cfg cmd).branches then do
      let p ← resume cfg t s.phase event
      let (tr, s') ← replay cfg cmd ⟨p, t⟩ events
      pure (⟨t, event, p⟩ :: tr, s')
    else none

theorem run_append_replay {cfg : SupervisorConfig} {cmd : CommandSpec} {events : List (ℕ × Event)}
    {tr tr' : List Entry} {s s' : State} (h : (supervisor cfg cmd).Run tr s)
    (hr : replay cfg cmd s events = some (tr', s')) :
    (supervisor cfg cmd).Run (tr ++ tr') s' := by
  induction events generalizing tr tr' s with
  | nil =>
    obtain ⟨rfl, rfl⟩ := Prod.mk.inj (Option.some.inj hr)
    simpa using h
  | cons e events ih =>
    obtain ⟨t, event⟩ := e
    rw [replay] at hr
    split_ifs at hr with hg
    simp only [Option.bind_eq_bind, Option.bind_eq_some_iff] at hr
    obtain ⟨p, hp, ⟨tr'', s''⟩, hrest, he⟩ := hr
    obtain ⟨rfl, rfl⟩ := Prod.mk.inj (Option.some.inj he)
    rw [List.append_cons]
    exact ih (h.snoc ⟨hg.1, hg.2, hp, rfl⟩) hrest

theorem replay_run {cfg : SupervisorConfig} {cmd : CommandSpec} (events : List (ℕ × Event))
    {tr : List Entry} {s : State} (h : replay cfg cmd ⟨.preflight, 0⟩ events = some (tr, s)) :
    (supervisor cfg cmd).Run tr s :=
  run_append_replay (.nil (show (supervisor cfg cmd).init ⟨.preflight, 0⟩ from rfl)) h

/-- The trace of a replayed run. -/
def traceOf (cfg : SupervisorConfig) (cmd : CommandSpec) (events : List (ℕ × Event)) :
    List Entry :=
  ((replay cfg cmd ⟨.preflight, 0⟩ events).map Prod.fst).getD []

/-! What a trace shows. -/

/-- Futures that act on the spawner or the child as soon as they are awaited. -/
def Fut.isCall : Fut → Bool
  | .spawn _ | .child (.signal _) | .child (.terminate _) => true
  | _ => false

/-- The calls on the spawner and on the child, in order. -/
def calls (cfg : SupervisorConfig) (cmd : CommandSpec) (tr : List Entry) : List Fut :=
  tr.flatMap fun en => (en.next.awaits cfg cmd).branches.filter Fut.isCall

def Event.op? : Event → Option ChildOp
  | .exited _ => some .wait
  | .signalSent sig _ => some (.signal sig)
  | .terminated grace _ => some (.terminate grace)
  | _ => none

/-- The operations on the child that completed, in order. A dropped `wait` is not one. -/
def completed (tr : List Entry) : List ChildOp := tr.filterMap fun en => en.event.op?

def Event.sig? : Event → Option SignalKind
  | .signalled sig => some sig
  | _ => none

/-- The signals taken off the stream, in order. -/
def dequeued (tr : List Entry) : List SignalKind := tr.filterMap fun en => en.event.sig?

def Event.status? : Event → Option ExitStatus
  | .exited status => some status
  | _ => none

/-- The statuses that completed waits returned. -/
def statuses (tr : List Entry) : List ExitStatus := tr.filterMap fun en => en.event.status?

def Event.terminateResult? : Event → Option (Except Error Unit)
  | .terminated _ res => some res
  | _ => none

def terminateResults (tr : List Entry) : List (Except Error Unit) :=
  tr.filterMap fun en => en.event.terminateResult?

def Event.spawn? : Event → Option (Except Error Unit)
  | .spawned _ res => some res
  | _ => none

def spawnResults (tr : List Entry) : List (Except Error Unit) :=
  tr.filterMap fun en => en.event.spawn?

/-- What decided the pre-flight race. -/
def preflightOutcome (tr : List Entry) : Option Event := tr.head?.map Entry.event

def Spawned (tr : List Entry) : Prop := .ok () ∈ spawnResults tr

/-- How often the watcher loop called `child.terminate`. -/
def watcherKills (tr : List Entry) : ℕ := tr.countP fun en => en.next = .killing

def Event.verdict? : Event → Option PredicateResult
  | .evaluated res => some res
  | _ => none

/-- The part of a trace after the child was spawned. -/
def sinceSpawn : List Entry → List Entry
  | [] => []
  | en :: tr => if en.event.spawn? = some (.ok ()) then tr else sinceSpawn tr

/-- The evaluations of the watcher loop, in order: each with its verdict, the instant at which it
was made and what the loop did next. -/
def watchEvals (tr : List Entry) : List Entry :=
  (sinceSpawn tr).filter fun en => en.event.verdict?.isSome

end Condrun
