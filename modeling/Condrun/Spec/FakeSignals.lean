import Condrun.Lib.Notify
import Condrun.Lib.Run
import Condrun.Spec.Process

/-! `FakeSignals` of `src/signal/fake.rs`, in the steps between which other threads can run:
`inject` pushes and then notifies, `next` creates its future, pops under the lock and awaits. Any
number of clones inject; one consumer calls `next`, and can drop it where it is suspended. -/

namespace Condrun

/-- Where the consumer is: not in `next`, with `notified` just created, with the queue found empty,
or suspended in `notified.await`. -/
inductive Stage
  | idle
  | notified
  | empty
  | suspended
  deriving DecidableEq, Repr

/-- `injecting` counts the calls of `inject` that have pushed and not yet notified. -/
structure FakeSignals where
  queue : List SignalKind
  notify : Notify Unit
  injecting : ℕ
  stage : Stage
  deriving DecidableEq

/-- `pop` shows what was popped. -/
inductive SignalStep
  | push (kind : SignalKind)
  | notifyOne
  | call
  | pop (res : Option SignalKind)
  | poll
  | drop
  deriving DecidableEq, Repr

namespace FakeSignals

def new : FakeSignals := ⟨[], .new, 0, .idle⟩

/-! The two halves of `inject`. -/

def push (s : FakeSignals) (kind : SignalKind) : FakeSignals :=
  { s with queue := s.queue ++ [kind], injecting := s.injecting + 1 }

def notifyOne (s : FakeSignals) : FakeSignals :=
  { s with notify := s.notify.notifyOne, injecting := s.injecting - 1 }

/-! The loop of `next`. -/

/-- `pop_front`, and `return` if there was a signal. -/
def pop (s : FakeSignals) : FakeSignals :=
  match s.queue with
  | _ :: queue => { s with queue := queue, stage := .idle }
  | [] => { s with stage := .empty }

/-- A poll of `notified`; when it is ready the loop goes round and creates the next one. -/
def poll (s : FakeSignals) : FakeSignals :=
  { s with
    notify := (s.notify.poll ()).2
    stage := if (s.notify.poll ()).1 then .notified else .suspended }

/-- The pending `next` is dropped, and `notified` with it. -/
def drop (s : FakeSignals) : FakeSignals := { s with notify := s.notify.drop (), stage := .idle }

@[simp] theorem notifyOne_queue (s : FakeSignals) : s.notifyOne.queue = s.queue := rfl
@[simp] theorem poll_queue (s : FakeSignals) : s.poll.queue = s.queue := rfl
@[simp] theorem drop_queue (s : FakeSignals) : s.drop.queue = s.queue := rfl

def step (s : FakeSignals) : SignalStep → Option FakeSignals
  | .push kind => some (s.push kind)
  | .notifyOne => if 0 < s.injecting then some s.notifyOne else none
  | .call => if s.stage = .idle then some { s with stage := .notified } else none
  | .pop res => if s.stage = .notified ∧ res = s.queue.head? then some s.pop else none
  | .poll => if s.stage = .empty ∨ s.stage = .suspended then some s.poll else none
  | .drop => if s.stage = .suspended then some s.drop else none

end FakeSignals

def fakeSignals : Lts FakeSignals SignalStep where
  init s := s = .new
  step s l s' := s.step l = some s'

def SignalStep.pushed? : SignalStep → Option SignalKind
  | .push kind => some kind
  | _ => none

/-- The signals injected, in the order of their pushes. -/
def injected (ls : List SignalStep) : List SignalKind := ls.filterMap SignalStep.pushed?

def SignalStep.popped? : SignalStep → Option SignalKind
  | .pop res => res
  | _ => none

/-- The values that calls of `next` returned. -/
def delivered (ls : List SignalStep) : List SignalKind := ls.filterMap SignalStep.popped?

end Condrun
