import Mathlib.Data.List.Indexes
import Condrun.Proofs.Account

/-! What an error of `signal` or `terminate` does to a run. -/

namespace Condrun

variable {cfg : SupervisorConfig} {cmd : CommandSpec} {tr tr' : List Entry} {s s' : State}
  {en : Entry} {t : ℕ} {p p' : Phase} {ev : Event} {errs : ℕ → Option Error} {r : Except Error ℤ}

/-- A spawned child is waited for before the run returns. -/
def ReturnsAfterWait (tr : List Entry) (s : State) : Prop :=
  ∀ r, s.phase = .returned r → Spawned tr → .wait ∈ completed tr

/-- A `terminate` called by the watcher loop returned an error. -/
def WatcherKillFails (tr : List Entry) : Prop :=
  0 < watcherKills tr ∧ ∃ err, .error err ∈ terminateResults tr

/-- The same completion with its `Ok` changed into an error. -/
def Event.failWith : Option Error → Event → Event
  | some err, .signalSent sig (.ok _) => .signalSent sig (.error err)
  | some err, .terminated grace (.ok _) => .terminated grace (.error err)
  | _, ev => ev

/-- The steps of a run with the results at some places changed into errors. -/
def failAt (errs : ℕ → Option Error) (tr : List Entry) : List Entry :=
  tr.mapIdx fun i en => ⟨en.time, en.event.failWith (errs i), en.next⟩

/-- What completed in a run, and when. -/
def inputs (tr : List Entry) : List (ℕ × Event) := tr.map fun en => (en.time, en.event)

/-- The watcher loop's `terminate` is not among the results changed. -/
def SparesKill (errs : ℕ → Option Error) (tr : List Entry) : Prop :=
  0 < watcherKills tr → ∀ (i : ℕ) en, tr[i]? = some en →
    en.event.terminateResult? = some (.ok ()) → errs i = none

/-- With the results changed the supervisor makes the same operations on the child, and returns. -/
def SameOperations (cfg : SupervisorConfig) (cmd : CommandSpec) (errs : ℕ → Option Error)
    (tr : List Entry) (s : State) : Prop :=
  ∃ tr', (supervisor cfg cmd).Run tr' s ∧ inputs tr' = inputs (failAt errs tr) ∧
    calls cfg cmd tr' = calls cfg cmd tr ∧ completed tr' = completed tr

theorem failAt_snoc : failAt errs (tr ++ [en]) =
    failAt errs tr ++ [⟨en.time, en.event.failWith (errs tr.length), en.next⟩] := by
  simp [failAt, List.mapIdx_append]

theorem failWith_op (err : Option Error) (ev : Event) : (ev.failWith err).op? = ev.op? := by
  unfold Event.failWith
  split <;> rfl

theorem calls_failAt : calls cfg cmd (failAt errs tr) = calls cfg cmd tr := by
  induction tr using List.reverseRecOn with
  | nil => rfl
  | append_singleton tr en ih => rw [failAt_snoc, calls_snoc, calls_snoc, ih]

theorem completed_failAt : completed (failAt errs tr) = completed tr := by
  induction tr using List.reverseRecOn with
  | nil => rfl
  | append_singleton tr en ih =>
    unfold completed at ih ⊢
    rw [failAt_snoc, List.filterMap_snoc, List.filterMap_snoc, ih, failWith_op]

/-- Every error but the watcher's is logged, and the step goes where it went. -/
theorem Move.failWith {err : Option Error} (hm : Move cfg cmd t p ev p')
    (hk : p = .killing → ev.terminateResult? = some (.ok ()) → err = none) :
    Move cfg cmd t p (ev.failWith err) p' := by
  unfold Event.failWith
  split
  · cases hm
    exact .forwarded _ _
  · cases hm with
    | killOk => cases hk rfl rfl
    | escTerminated => exact .escTerminated _
  · exact hm

theorem watcherKills_snoc : watcherKills (tr ++ [en]) =
    watcherKills tr + if en.next = .killing then 1 else 0 := by
  simp [watcherKills, List.countP_append, List.countP_singleton]

theorem watcherKills_killing (h : (supervisor cfg cmd).Run tr s) (hp : s.phase = .killing) :
    watcherKills tr = 1 := by
  have ha := run_account h
  rw [hp] at ha
  generalize hL : ledger cfg cmd tr = L at ha
  obtain ⟨-, -, -, -, hk, -⟩ := shows_of_ledger hL
  rw [hk]
  cases ha
  rfl

theorem sparesKill_of_snoc (hs : SparesKill errs (tr ++ [en])) : SparesKill errs tr := by
  intro hk i a ha
  have hpos : 0 < watcherKills (tr ++ [en]) := by
    rw [watcherKills_snoc]
    omega
  have hi : (tr ++ [en])[i]? = some a := by
    rw [List.getElem?_append_left (List.getElem?_eq_some_iff.mp ha).1]
    exact ha
  exact hs hpos i a hi

theorem run_failAt (h : (supervisor cfg cmd).Run tr s) (hs : SparesKill errs tr) :
    (supervisor cfg cmd).Run (failAt errs tr) s := by
  induction h with
  | nil hi => exact .nil hi
  | @snoc tr s s' en hr hst ih =>
    rw [failAt_snoc]
    refine (ih (sparesKill_of_snoc hs)).snoc ?_
    obtain ⟨hle, hm, htarget⟩ := step_iff_move.mp hst
    refine step_iff_move.mpr ⟨hle, hm.failWith fun hp hok => ?_, htarget⟩
    refine hs ?_ tr.length en (by simp) hok
    rw [watcherKills_snoc, watcherKills_killing hr hp]
    omega

/-- Only the watcher's failed `terminate` leaves a child that was not waited for. -/
theorem returnsAfterWait_iff (h : (supervisor cfg cmd).Run tr s) :
    ReturnsAfterWait tr s ↔ ¬ WatcherKillFails tr := by
  have ha := run_account h
  unfold ReturnsAfterWait WatcherKillFails Spawned
  generalize hL : ledger cfg cmd tr = L at ha
  obtain ⟨-, hsp, -, -, hk, hc, ht, -⟩ := shows_of_ledger hL
  rw [hsp, hc, hk, ht]
  generalize s.phase = p at ha
  cases ha with
  | returned he => cases he <;> simp
  | _ => simp

/-- A returned run in which the watcher loop's `terminate` succeeded. -/
theorem killed_of_ok (h : (supervisor cfg cmd).Run tr s) (hr : s.phase = .returned r)
    (hk : 0 < watcherKills tr) (hok : .ok () ∈ terminateResults tr) :
    completed tr = [.terminate cfg.grace, .wait] := by
  have he := run_ending h hr
  generalize hL : ledger cfg cmd tr = L at he
  obtain ⟨-, -, -, -, hk', hc, ht, -⟩ := shows_of_ledger hL
  rw [hk'] at hk
  rw [ht] at hok
  rw [hc]
  cases he with
  | killed => rfl
  | killFailed => simp at hok
  | _ => simp at hk

theorem ok_of_killed (h : (supervisor cfg cmd).Run tr s) (hr : s.phase = .returned r)
    (hc : completed tr = [.terminate cfg.grace, .wait]) : terminateResults tr = [.ok ()] := by
  have he := run_ending h hr
  generalize hL : ledger cfg cmd tr = L at he
  obtain ⟨-, -, -, -, -, hc', ht, -⟩ := shows_of_ledger hL
  rw [hc'] at hc
  rw [ht]
  cases he with
  | killed => rfl
  | _ => simp at hc

theorem terminateResults_inputs : terminateResults tr =
    (inputs tr).filterMap fun i => i.2.terminateResult? := by
  rw [inputs, List.filterMap_map]
  rfl

/-- The errors change nothing on the child exactly when they leave the watcher's kill alone. -/
theorem sameOperations_iff (h : (supervisor cfg cmd).Run tr s) (hr : s.phase = .returned r)
    (errs : ℕ → Option Error) : SameOperations cfg cmd errs tr s ↔ SparesKill errs tr := by
  refine ⟨?_, ?_⟩
  · rintro ⟨tr', h', hin, -, hcomp⟩ hk i en hi hok
    have hmem : .ok () ∈ terminateResults tr :=
      List.mem_filterMap.mpr ⟨en, List.mem_of_getElem? hi, hok⟩
    have hres := ok_of_killed h' hr (hcomp.trans (killed_of_ok h hr hk hmem))
    rw [terminateResults_inputs, hin, ← terminateResults_inputs] at hres
    cases herr : errs i with
    | none => rfl
    | some err =>
      have hi' : (failAt errs tr)[i]? = some ⟨en.time, en.event.failWith (errs i), en.next⟩ := by
        rw [failAt, List.getElem?_mapIdx, hi]
        rfl
      have hfail : (en.event.failWith (some err)).terminateResult? = some (.error err) := by
        cases hev : en.event with
        | terminated grace res =>
          rw [hev] at hok
          obtain rfl := Option.some.inj hok
          rfl
        | _ =>
          rw [hev] at hok
          cases hok
      have hmem' : .error err ∈ terminateResults (failAt errs tr) :=
        List.mem_filterMap.mpr ⟨_, List.mem_of_getElem? hi', by rw [herr]; exact hfail⟩
      rw [hres] at hmem'
      simp at hmem'
  · intro hs
    exact ⟨failAt errs tr, run_failAt h hs, rfl, calls_failAt, completed_failAt⟩

/-- No error abandons the child, and errors are harmless to it, but for the watcher's kill. -/
theorem child_waited_iff (h : (supervisor cfg cmd).Run tr s) :
    (ReturnsAfterWait tr s ↔ ¬ WatcherKillFails tr) ∧
    ∀ r errs, s.phase = .returned r → (SameOperations cfg cmd errs tr s ↔ SparesKill errs tr) :=
  ⟨returnsAfterWait_iff h, fun _ errs hr => sameOperations_iff h hr errs⟩

/-- A second signal, with `signal` and `terminate` both in error. -/
def escalatesInError : List (ℕ × Event) :=
  [(0, .evaluated .pass), (0, .spawned ⟨"echo", ["hello"]⟩ (.ok ())),
    (1, .signalled .interrupt), (1, .signalSent .interrupt (.error ⟨"EPERM"⟩)),
    (2, .signalled .interrupt), (3, .terminated 1 (.error ⟨"ESRCH"⟩)), (3, .exited ⟨9⟩)]

theorem child_waited_escalated : ReturnsAfterWait
    (traceOf ⟨false, true, 1, 2, 0⟩ ⟨"echo", ["hello"]⟩ escalatesInError)
    ⟨.returned (.ok 3), 3⟩ := by
  have hrun : (supervisor ⟨false, true, 1, 2, 0⟩ ⟨"echo", ["hello"]⟩).Run
      (traceOf ⟨false, true, 1, 2, 0⟩ ⟨"echo", ["hello"]⟩ escalatesInError)
      ⟨.returned (.ok 3), 3⟩ := replay_run escalatesInError rfl
  exact (child_waited_iff hrun).1.mpr fun hk => absurd hk.1 (by decide)

/-- The watcher loop's `terminate` returns an error. -/
def killFails : List (ℕ × Event) :=
  [(0, .evaluated .pass), (0, .spawned ⟨"echo", ["hello"]⟩ (.ok ())), (2, .elapsed 2),
    (2, .evaluated (.fail "metered")), (2, .terminated 1 (.error ⟨"EPERM"⟩))]

/-- The run returns the error, and the child is left running. -/
theorem kill_error_abandons : ¬ ∀ tr s,
    (supervisor ⟨false, true, 1, 2, 0⟩ ⟨"echo", ["hello"]⟩).Run tr s → ReturnsAfterWait tr s := by
  intro hall
  have hrun : (supervisor ⟨false, true, 1, 2, 0⟩ ⟨"echo", ["hello"]⟩).Run
      (traceOf ⟨false, true, 1, 2, 0⟩ ⟨"echo", ["hello"]⟩ killFails)
      ⟨.returned (.error ⟨"EPERM"⟩), 2⟩ := replay_run killFails rfl
  have hwait := hall _ _ hrun _ rfl (by unfold Spawned; decide)
  revert hwait
  decide

end Condrun
