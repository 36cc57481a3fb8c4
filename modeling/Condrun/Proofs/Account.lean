import Condrun.Proofs.Moves

/-! The account of a run: which signals were taken, which calls were made and which operations on
the child completed. In each phase the account is known up to the signals, the status and the errors
in it, and a returned run has one of eight endings. -/

namespace Condrun

structure Ledger where
  gate : Option Event
  spawns : List (Except Error Unit)
  dequeued : List SignalKind
  calls : List Fut
  kills : ℕ
  completed : List ChildOp
  terminations : List (Except Error Unit)
  statuses : List ExitStatus

def ledger (cfg : SupervisorConfig) (cmd : CommandSpec) (tr : List Entry) : Ledger where
  gate := preflightOutcome tr
  spawns := spawnResults tr
  dequeued := dequeued tr
  calls := calls cfg cmd tr
  kills := watcherKills tr
  completed := completed tr
  terminations := terminateResults tr
  statuses := statuses tr

def Ledger.push (cfg : SupervisorConfig) (cmd : CommandSpec) (L : Ledger) (en : Entry) :
    Ledger where
  gate := L.gate.or (some en.event)
  spawns := L.spawns ++ en.event.spawn?.toList
  dequeued := L.dequeued ++ en.event.sig?.toList
  calls := L.calls ++ (en.next.awaits cfg cmd).branches.filter Fut.isCall
  kills := L.kills + if en.next = .killing then 1 else 0
  completed := L.completed ++ en.event.op?.toList
  terminations := L.terminations ++ en.event.terminateResult?.toList
  statuses := L.statuses ++ en.event.status?.toList

variable {cfg : SupervisorConfig} {cmd : CommandSpec} {tr : List Entry} {s s' : State}
  {en : Entry} {L : Ledger} {t : ℕ} {p p' : Phase} {ev : Event} {r : Except Error ℤ}

theorem calls_snoc : calls cfg cmd (tr ++ [en]) =
    calls cfg cmd tr ++ (en.next.awaits cfg cmd).branches.filter Fut.isCall := by
  simp [calls]

theorem ledger_snoc : ledger cfg cmd (tr ++ [en]) = (ledger cfg cmd tr).push cfg cmd en := by
  simp only [ledger, Ledger.push, calls_snoc, spawnResults, dequeued, completed, statuses,
    terminateResults, List.filterMap_snoc, preflightOutcome, List.head?_append, Option.map_or,
    List.head?_cons, Option.map_some, watcherKills, List.countP_append, List.countP_singleton,
    decide_eq_true_eq]

/-- What a trace shows is read off its account. -/
theorem shows_of_ledger (h : ledger cfg cmd tr = L) :
    preflightOutcome tr = L.gate ∧ spawnResults tr = L.spawns ∧ dequeued tr = L.dequeued ∧
    calls cfg cmd tr = L.calls ∧ watcherKills tr = L.kills ∧ completed tr = L.completed ∧
    terminateResults tr = L.terminations ∧ statuses tr = L.statuses := by
  subst h
  exact ⟨rfl, rfl, rfl, rfl, rfl, rfl, rfl, rfl⟩

/-- The outcome of the pre-flight race that lets a child be spawned. -/
abbrev passed : Option Event := some (.evaluated .pass)

/-- The eight ways a run ends. -/
inductive Ending (cfg : SupervisorConfig) (cmd : CommandSpec) : Except Error ℤ → Ledger → Prop
  | signalled (sig : SignalKind) :
      Ending cfg cmd (.ok 0) ⟨some (.signalled sig), [], [sig], [], 0, [], [], []⟩
  | skipped (reason : String) : Ending cfg cmd (.ok (if cfg.strict then 1 else 0))
      ⟨some (.evaluated (.fail reason)), [], [], [], 0, [], [], []⟩
  | spawnFailed (err : Error) :
      Ending cfg cmd (.error err) ⟨passed, [.error err], [], [.spawn cmd], 0, [], [], []⟩
  | exited (st : ExitStatus) : Ending cfg cmd (.ok (exitCode st))
      ⟨passed, [.ok ()], [], [.spawn cmd], 0, [.wait], [], [st]⟩
  | forwarded (sig : SignalKind) (st : ExitStatus) : Ending cfg cmd (.ok (exitCode st))
      ⟨passed, [.ok ()], [sig], [.spawn cmd, .child (.signal sig)], 0, [.signal sig, .wait], [],
        [st]⟩
  | escalated (sig sig2 : SignalKind) (res : Except Error Unit) (st : ExitStatus) :
      Ending cfg cmd (.ok 3) ⟨passed, [.ok ()], [sig, sig2],
        [.spawn cmd, .child (.signal sig), .child (.terminate cfg.grace)], 0,
        [.signal sig, .terminate cfg.grace, .wait], [res], [st]⟩
  | killed (hk : cfg.killOnChange = true) (st : ExitStatus) : Ending cfg cmd (.ok 3)
      ⟨passed, [.ok ()], [], [.spawn cmd, .child (.terminate cfg.grace)], 1,
        [.terminate cfg.grace, .wait], [.ok ()], [st]⟩
  | killFailed (hk : cfg.killOnChange = true) (err : Error) : Ending cfg cmd (.error err)
      ⟨passed, [.ok ()], [], [.spawn cmd, .child (.terminate cfg.grace)], 1,
        [.terminate cfg.grace], [.error err], []⟩

/-- The account of a run that stands in a given phase. -/
inductive Account (cfg : SupervisorConfig) (cmd : CommandSpec) : Phase → Ledger → Prop
  | preflight : Account cfg cmd .preflight ⟨none, [], [], [], 0, [], [], []⟩
  | spawning : Account cfg cmd .spawning ⟨passed, [], [], [.spawn cmd], 0, [], [], []⟩
  | watching (hk : cfg.killOnChange = true) (fs : Option ℕ) :
      Account cfg cmd (.watching fs) ⟨passed, [.ok ()], [], [.spawn cmd], 0, [], [], []⟩
  | evaluating (hk : cfg.killOnChange = true) (fs : Option ℕ) :
      Account cfg cmd (.evaluating fs) ⟨passed, [.ok ()], [], [.spawn cmd], 0, [], [], []⟩
  | killing (hk : cfg.killOnChange = true) : Account cfg cmd .killing
      ⟨passed, [.ok ()], [], [.spawn cmd, .child (.terminate cfg.grace)], 1, [], [], []⟩
  | draining (hk : cfg.killOnChange = true) : Account cfg cmd .draining
      ⟨passed, [.ok ()], [], [.spawn cmd, .child (.terminate cfg.grace)], 1,
        [.terminate cfg.grace], [.ok ()], []⟩
  | plain (hk : cfg.killOnChange = false) :
      Account cfg cmd .plain ⟨passed, [.ok ()], [], [.spawn cmd], 0, [], [], []⟩
  | forwarding (sig : SignalKind) : Account cfg cmd (.forwarding sig)
      ⟨passed, [.ok ()], [sig], [.spawn cmd, .child (.signal sig)], 0, [], [], []⟩
  | racing (sig : SignalKind) : Account cfg cmd (.escalating .racing)
      ⟨passed, [.ok ()], [sig], [.spawn cmd, .child (.signal sig)], 0, [.signal sig], [], []⟩
  | terminating (sig sig2 : SignalKind) : Account cfg cmd (.escalating .terminating)
      ⟨passed, [.ok ()], [sig, sig2],
        [.spawn cmd, .child (.signal sig), .child (.terminate cfg.grace)], 0, [.signal sig], [], []⟩
  | escDraining (sig sig2 : SignalKind) (res : Except Error Unit) :
      Account cfg cmd (.escalating .draining) ⟨passed, [.ok ()], [sig, sig2],
        [.spawn cmd, .child (.signal sig), .child (.terminate cfg.grace)], 0,
        [.signal sig, .terminate cfg.grace], [res], []⟩
  | returned {r : Except Error ℤ} {L : Ledger} (h : Ending cfg cmd r L) :
      Account cfg cmd (.returned r) L

theorem account_move (h : Account cfg cmd p L) (hm : Move cfg cmd t p ev p') :
    Account cfg cmd p' (L.push cfg cmd ⟨t, ev, p'⟩) := by
  cases hm with
  | gatePass => cases h; exact .spawning
  | gateFail reason => cases h; exact .returned (.skipped reason)
  | gateSignal sig => cases h; exact .returned (.signalled sig)
  | spawnFail err => cases h; exact .returned (.spawnFailed err)
  | spawnWatch hk => cases h; exact .watching hk none
  | spawnPlain hk => cases h; exact .plain hk
  | watchExit fs st => cases h; exact .returned (.exited st)
  | watchSignal fs sig => cases h; exact .forwarding sig
  | watchTick fs => cases h with | watching hk => exact .evaluating hk fs
  | evalPass fs => cases h with | evaluating hk => exact .watching hk none
  | evalWait fs reason hd => cases h with | evaluating hk => exact .watching hk _
  | evalKill fs reason hd => cases h with | evaluating hk => exact .killing hk
  | killOk => cases h with | killing hk => exact .draining hk
  | killFail err => cases h with | killing hk => exact .returned (.killFailed hk err)
  | drained st => cases h with | draining hk => exact .returned (.killed hk st)
  | plainExit st => cases h; exact .returned (.exited st)
  | plainSignal sig => cases h; exact .forwarding sig
  | forwarded sig res => cases h; exact .racing sig
  | escExit st => cases h with | racing sig => exact .returned (.forwarded sig st)
  | escSignal sig2 => cases h with | racing sig => exact .terminating sig sig2
  | escTerminated res => cases h with | terminating sig sig2 => exact .escDraining sig sig2 res
  | escDrained st =>
    cases h with | escDraining sig sig2 res => exact .returned (.escalated sig sig2 res st)

/-- The account is kept in every run. -/
theorem run_account (h : (supervisor cfg cmd).Run tr s) :
    Account cfg cmd s.phase (ledger cfg cmd tr) := by
  induction h with
  | nil hi =>
    rw [show _ = Phase.preflight from hi]
    exact .preflight
  | snoc _ hst ih =>
    rw [ledger_snoc, hst.target]
    exact account_move ih hst.move

/-- A run that returned has one of the endings. -/
theorem run_ending (h : (supervisor cfg cmd).Run tr s) (hr : s.phase = .returned r) :
    Ending cfg cmd r (ledger cfg cmd tr) := by
  have ha := run_account h
  rw [hr] at ha
  generalize ledger cfg cmd tr = L at ha
  cases ha with
  | returned he => exact he

end Condrun
