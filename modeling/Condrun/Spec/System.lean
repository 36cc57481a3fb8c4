import Condrun.Spec.Supervisor

/-! The supervisor among what runs beside it: the clock, the child process and the signals that
arrive. Nothing is assumed of when these act. A signal waits in its source until it is taken, also
while the futures of `next` are dropped, and the wait of an exited child stays ready. -/

namespace Condrun

inductive Child
  | absent
  | running
  | exited (status : ExitStatus) (time : ℕ)
  deriving DecidableEq

def Child.status? : Child → Option ExitStatus
  | .exited status _ => some status
  | _ => none

/-- A source of signals: how it starts, what an arrival does to it, which signals `next` may return
now, and what a `next` that returned one leaves. -/
class Source (Q : Type) where
  Fresh : Q → Prop
  arrive : Q → SignalKind → Q
  offers : Q → List SignalKind
  take : Q → SignalKind → Q

/-- The signals that arrived and were not taken, in order. -/
abbrev Queue := List SignalKind

instance : Source Queue where
  Fresh q := q = []
  arrive q sig := q ++ [sig]
  offers q := q.head?.toList
  take q _ := q.tail

/-- The clock of `sup` stands at the supervisor's last step. -/
structure System (Q : Type) where
  sup : State
  now : ℕ
  child : Child
  pending : Q
  deriving DecidableEq

inductive Happening
  | elapse (d : ℕ)
  | arrive (sig : SignalKind)
  | exit (status : ExitStatus)
  | resume (en : Entry)
  deriving DecidableEq

namespace System

variable {Q : Type}

section Step

variable [Source Q]

/-- Whether a future awaited since the last step is ready. An evaluation, a spawn, a signal call and
a terminate call take the time they take. -/
def Ready (s : System Q) : Fut → Prop
  | .child .wait => s.child.status?.isSome
  | .next => Source.offers s.pending ≠ []
  | .sleep d => s.sup.now + d ≤ s.now
  | _ => True

instance (s : System Q) : DecidablePred s.Ready := fun f =>
  match f with
  | .child .wait => inferInstanceAs (Decidable (s.child.status?.isSome = true))
  | .next => inferInstanceAs (Decidable (Source.offers s.pending ≠ []))
  | .sleep d => inferInstanceAs (Decidable (s.sup.now + d ≤ s.now))
  | .evaluate | .spawn _ | .child (.signal _) | .child (.terminate _) =>
    inferInstanceAs (Decidable True)

/-- The output of a future that the system decides. -/
def Yields (s : System Q) : Event → Prop
  | .exited status => s.child.status? = some status
  | .signalled sig => sig ∈ Source.offers s.pending
  | _ => True

instance (s : System Q) : DecidablePred s.Yields := fun ev =>
  match ev with
  | .exited status => inferInstanceAs (Decidable (s.child.status? = some status))
  | .signalled sig => inferInstanceAs (Decidable (sig ∈ Source.offers s.pending))
  | .evaluated _ | .elapsed _ | .spawned _ _ | .signalSent _ _ | .terminated _ _ =>
    inferInstanceAs (Decidable True)

def after (s : System Q) (en : Entry) : System Q where
  sup := ⟨en.next, en.time⟩
  now := s.now
  child := match en.event with
    | .spawned _ (.ok _) => .running
    | _ => s.child
  pending := match en.event with
    | .signalled sig => Source.take s.pending sig
    | _ => s.pending

/-- Whether the supervisor can take the step now: some poll of its `select!` finds this future
ready first. -/
structure Resumes (cfg : SupervisorConfig) (cmd : CommandSpec) (s : System Q) (en : Entry) :
    Prop where
  time : en.time = s.now
  mono : s.sup.now ≤ en.time
  wins : (s.sup.phase.awaits cfg cmd).Wins s.Ready en.event.fut
  yields : s.Yields en.event
  resumes : Condrun.resume cfg en.time s.sup.phase en.event = some en.next

instance (cfg : SupervisorConfig) (cmd : CommandSpec) (s : System Q) (en : Entry) :
    Decidable (s.Resumes cfg cmd en) :=
  decidable_of_iff (en.time = s.now ∧ s.sup.now ≤ en.time ∧
      (s.sup.phase.awaits cfg cmd).Wins s.Ready en.event.fut ∧ s.Yields en.event ∧
      Condrun.resume cfg en.time s.sup.phase en.event = some en.next)
    ⟨fun ⟨h1, h2, h3, h4, h5⟩ => ⟨h1, h2, h3, h4, h5⟩,
      fun ⟨h1, h2, h3, h4, h5⟩ => ⟨h1, h2, h3, h4, h5⟩⟩

def step (cfg : SupervisorConfig) (cmd : CommandSpec) (s : System Q) :
    Happening → Option (System Q)
  | .elapse d => some { s with now := s.now + d }
  | .arrive sig => some { s with pending := Source.arrive s.pending sig }
  | .exit status =>
    if s.child = .running then some { s with child := .exited status s.now } else none
  | .resume en => if s.Resumes cfg cmd en then some (s.after en) else none

structure Init (s : System Q) : Prop where
  phase : s.sup.phase = .preflight
  clock : s.sup.now = s.now
  child : s.child = .absent
  pending : Source.Fresh s.pending

end Step

end System

/-- The supervisor over a source of signals. -/
def systemOver (Q : Type) [Source Q] (cfg : SupervisorConfig) (cmd : CommandSpec) :
    Lts (System Q) Happening where
  init := System.Init
  step s h s' := s.step cfg cmd h = some s'

/-- The supervisor over a queue. -/
def system (cfg : SupervisorConfig) (cmd : CommandSpec) : Lts (System Queue) Happening :=
  systemOver Queue cfg cmd

namespace System

variable {Q : Type}

/-- The instant by which an awaited future completes, when evaluations take no time and timers are
exact. -/
def due (s : System Q) : Fut → Option ℕ
  | .evaluate => some s.sup.now
  | .sleep d => some (s.sup.now + d)
  | _ => none

/-- The clock does not pass what is due. -/
def Exact (cfg : SupervisorConfig) (cmd : CommandSpec) (s : System Q) : Happening → Prop
  | .elapse d => ∀ f ∈ (s.sup.phase.awaits cfg cmd).branches, ∀ t ∈ s.due f, s.now + d ≤ t
  | _ => True

instance (cfg : SupervisorConfig) (cmd : CommandSpec) (s : System Q) :
    DecidablePred (s.Exact cfg cmd) := fun h =>
  match h with
  | .elapse d => inferInstanceAs (Decidable
      (∀ f ∈ (s.sup.phase.awaits cfg cmd).branches, ∀ t ∈ s.due f, s.now + d ≤ t))
  | .arrive _ | .exit _ | .resume _ => inferInstanceAs (Decidable True)

end System

/-- The system with instantaneous evaluations and exact timers. -/
def exactSystem (cfg : SupervisorConfig) (cmd : CommandSpec) : Lts (System Queue) Happening :=
  (system cfg cmd).restrict (System.Exact cfg cmd)

namespace System

variable {Q : Type}

/-- The clock does not run past what is due by more than `slack`. -/
def Within (slack : ℕ) (cfg : SupervisorConfig) (cmd : CommandSpec) (s : System Q) :
    Happening → Prop
  | .elapse d => ∀ f ∈ (s.sup.phase.awaits cfg cmd).branches, ∀ t ∈ s.due f, s.now + d ≤ t + slack
  | _ => True

instance (slack : ℕ) (cfg : SupervisorConfig) (cmd : CommandSpec) (s : System Q) :
    DecidablePred (s.Within slack cfg cmd) := fun h =>
  match h with
  | .elapse d => inferInstanceAs (Decidable (∀ f ∈ (s.sup.phase.awaits cfg cmd).branches,
      ∀ t ∈ s.due f, s.now + d ≤ t + slack))
  | .arrive _ | .exit _ | .resume _ => inferInstanceAs (Decidable True)

end System

/-- The system in which evaluations take `slack` at most and timers are late by no more. -/
def boundedSystem (slack : ℕ) (cfg : SupervisorConfig) (cmd : CommandSpec) :
    Lts (System Queue) Happening :=
  (system cfg cmd).restrict (System.Within slack cfg cmd)

/-! What a run of the system shows. -/

def Happening.entry? : Happening → Option Entry
  | .resume en => some en
  | _ => none

/-- The steps of the supervisor. -/
def entries (ls : List Happening) : List Entry := ls.filterMap Happening.entry?

def Happening.arrival? : Happening → Option SignalKind
  | .arrive sig => some sig
  | _ => none

def arrivals (ls : List Happening) : List SignalKind := ls.filterMap Happening.arrival?

end Condrun
