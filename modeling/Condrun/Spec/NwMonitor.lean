import Condrun.Lib.Run
import Condrun.Spec.Monitor
import Condrun.Spec.Process
import Mathlib.Algebra.Ring.Nat

/-! `MacOsNetworkState` of `src/state/macos.rs` from `new` to `drop`: the thread that owns it, the
blocks that Network.framework puts on the serial queue, and the mutex and `Condvar` between them.
Each critical section is one step; none of them can panic, so the mutex is never poisoned. -/

namespace Condrun

structure SharedState where
  snapshot : NwPathSnapshot
  ready : Bool
  deriving DecidableEq

instance : Inhabited SharedState := ⟨⟨⟨false, false⟩, false⟩⟩

/-- The calls into the frameworks. -/
inductive Ffi
  | dispatchQueueCreate
  | nwPathMonitorCreate
  | nwPathMonitorSetUpdateHandler
  | nwPathMonitorSetQueue
  | nwPathMonitorStart
  | nwPathMonitorCancel
  | nwRelease
  | dispatchRelease
  deriving DecidableEq, Repr

/-- Where the owner is: before the next call of `new`, in the loop of `wait_timeout_while` (with the
lock held, or parked, and whether it was notified there), failed, with a state in hand, or in
`drop`. -/
inductive Owner
  | creatingQueue
  | creatingMonitor
  | settingHandler
  | settingQueue
  | starting
  | locking
  | checking (since : ℕ)
  | parked (since : ℕ) (notified : Bool)
  | failed (err : Error)
  | live (warned : Bool)
  | cancelled
  | released
  | dropped
  deriving DecidableEq

/-- `notify_all`. -/
def Owner.notifyAll : Owner → Owner
  | .parked since _ => .parked since true
  | o => o

/-- `blocks` are on the queue with the path they were called for, `none` for a null path. -/
structure NwMonitor where
  owner : Owner
  now : ℕ
  shared : SharedState
  blocks : List (Option NwPathSnapshot)
  calls : List Ffi
  deriving DecidableEq

/-- `FIRST_UPDATE_TIMEOUT`. -/
def firstUpdateTimeout : ℕ := 1000 * 10 ^ 6

/-- A step of the owner, with what a creating call returned or a read saw; or one of the others:
time passes, the framework enqueues a block, the queue runs the next one. A parked owner can wake
without a cause. -/
inductive NwStep
  | dispatchQueueCreate (null : Bool)
  | nwPathMonitorCreate (null : Bool)
  | setUpdateHandler
  | setQueue
  | start
  | lock
  | check
  | wake
  | read (m : Metered) (value : Bool)
  | cancel
  | nwRelease
  | dispatchRelease
  | elapse (d : ℕ)
  | update (path : Option NwPathSnapshot)
  | handle (path : Option NwPathSnapshot)
  deriving DecidableEq

namespace NwMonitor

def init (now : ℕ) : NwMonitor := ⟨.creatingQueue, now, default, [], []⟩

/-- A call into the frameworks on the way to `owner`. -/
def call (s : NwMonitor) (f : Ffi) (owner : Owner) : NwMonitor :=
  { s with owner, calls := s.calls ++ [f] }

/-- The update handler. -/
def handler (s : NwMonitor) : Option NwPathSnapshot → NwMonitor
  | none => s
  | some path => { s with shared := ⟨path, true⟩, owner := s.owner.notifyAll }

/-- One round of `wait_timeout_while`, and the warning after it. -/
def check (s : NwMonitor) (since : ℕ) : Owner :=
  if s.shared.ready then .live false
  else if firstUpdateTimeout < s.now - since then .live true -- timed out, and still not ready
  else .parked since false

/-- The framework calls the handler from `start` on until it is cancelled. -/
def monitoring (s : NwMonitor) : Bool :=
  match s.owner with
  | .locking | .checking _ | .parked _ _ | .live _ => true
  | _ => false

/-- The lock is held from one round of the wait to the next. -/
def locked (s : NwMonitor) : Bool :=
  match s.owner with
  | .checking _ => true
  | _ => false

def step (s : NwMonitor) : NwStep → Option NwMonitor
  | .dispatchQueueCreate null =>
    if s.owner = .creatingQueue then
      some (s.call .dispatchQueueCreate
        (if null then .failed ⟨"dispatch_queue_create returned NULL"⟩ else .creatingMonitor))
    else none
  | .nwPathMonitorCreate null =>
    if s.owner = .creatingMonitor then
      if null then -- rolls back: the queue is released
        some ((s.call .nwPathMonitorCreate .creatingMonitor).call .dispatchRelease
          (.failed ⟨"nw_path_monitor_create returned NULL"⟩))
      else some (s.call .nwPathMonitorCreate .settingHandler)
    else none
  | .setUpdateHandler =>
    if s.owner = .settingHandler then some (s.call .nwPathMonitorSetUpdateHandler .settingQueue)
    else none
  | .setQueue =>
    if s.owner = .settingQueue then some (s.call .nwPathMonitorSetQueue .starting) else none
  | .start => if s.owner = .starting then some (s.call .nwPathMonitorStart .locking) else none
  | .lock => if s.owner = .locking then some { s with owner := .checking s.now } else none
  | .check =>
    match s.owner with
    | .checking since => some { s with owner := s.check since }
    | _ => none
  | .wake =>
    match s.owner with
    | .parked since _ => some { s with owner := .checking since }
    | _ => none
  | .read m value =>
    match s.owner with
    | .live _ => if value = m.flag s.shared.snapshot then some s else none
    | _ => none
  | .cancel =>
    match s.owner with
    | .live _ => some (s.call .nwPathMonitorCancel .cancelled)
    | _ => none
  | .nwRelease => if s.owner = .cancelled then some (s.call .nwRelease .released) else none
  | .dispatchRelease =>
    if s.owner = .released then some (s.call .dispatchRelease .dropped) else none
  | .elapse d => some { s with now := s.now + d }
  | .update path =>
    if s.monitoring then some { s with blocks := s.blocks ++ [path] } else none
  | .handle path =>
    if s.locked = false ∧ s.blocks.head? = some path then
      some ({ s with blocks := s.blocks.tail }.handler path)
    else none

end NwMonitor

def nwMonitor : Lts NwMonitor NwStep where
  init s := ∃ now, s = .init now
  step s l s' := s.step l = some s'

/-! What a run shows. -/

def NwStep.enqueued? : NwStep → Option (Option NwPathSnapshot)
  | .update path => some path
  | _ => none

/-- The paths for which the framework enqueued blocks. -/
def enqueued (ls : List NwStep) : List (Option NwPathSnapshot) := ls.filterMap NwStep.enqueued?

def NwStep.handled? : NwStep → Option (Option NwPathSnapshot)
  | .handle path => some path
  | _ => none

/-- The paths for which blocks have run. -/
def handled (ls : List NwStep) : List (Option NwPathSnapshot) := ls.filterMap NwStep.handled?

/-- The updates that the handler wrote. -/
def landed (ls : List NwStep) : List NwPathSnapshot := (handled ls).filterMap id

def NwStep.elapsed : NwStep → ℕ
  | .elapse d => d
  | _ => 0

def elapsedIn (ls : List NwStep) : ℕ := (ls.map NwStep.elapsed).sum

def NwStep.read? : NwStep → Option (Metered × Bool)
  | .read m value => some (m, value)
  | _ => none

/-- The reads, each with the value it saw. -/
def reads (ls : List NwStep) : List (Metered × Bool) := ls.filterMap NwStep.read?

/-- The updates that land before each read, and those after the last; `acc` have landed already. -/
def batches (acc : List NwPathSnapshot) : List NwStep → List (List NwPathSnapshot)
  | [] => [acc]
  | .read _ _ :: ls => acc :: batches [] ls
  | .handle (some path) :: ls => batches (acc ++ [path]) ls
  | _ :: ls => batches acc ls

end Condrun
