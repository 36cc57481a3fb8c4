import Condrun.Proofs.Account

/-! When the child is spawned, and what every run returns. -/

namespace Condrun

variable {cfg : SupervisorConfig} {cmd : CommandSpec} {tr : List Entry} {s : State}
  {r : Except Error ℤ}

def Fut.isSpawn : Fut → Bool
  | .spawn _ => true
  | _ => false

def GateFailed (tr : List Entry) : Prop :=
  ∃ reason, preflightOutcome tr = some (.evaluated (.fail reason))

def GateSignalled (tr : List Entry) : Prop := ∃ sig, preflightOutcome tr = some (.signalled sig)

def TerminateCalled (cfg : SupervisorConfig) (cmd : CommandSpec) (tr : List Entry) : Prop :=
  ∃ grace, Fut.child (.terminate grace) ∈ calls cfg cmd tr

/-- The ways of a run that returned `r`, read off its trace. -/
structure ReturnSpec (cfg : SupervisorConfig) (cmd : CommandSpec) (tr : List Entry)
    (r : Except Error ℤ) : Prop where
  err : ∀ e, r = .error e ↔ .error e ∈ spawnResults tr ∨
    (0 < watcherKills tr ∧ .error e ∈ terminateResults tr)
  noChild : ∀ e, .error e ∈ spawnResults tr → ¬ Spawned tr
  one : r = .ok 1 ↔ GateFailed tr ∧ cfg.strict = true
  zero : r = .ok 0 ↔ GateSignalled tr ∨ (GateFailed tr ∧ cfg.strict = false) ∨
    (Spawned tr ∧ ¬ TerminateCalled cfg cmd tr ∧ ∃ st, statuses tr = [st] ∧ st.success = true)
  two : r = .ok 2 ↔
    Spawned tr ∧ ¬ TerminateCalled cfg cmd tr ∧ ∃ st, statuses tr = [st] ∧ st.success = false
  signalDeath : Spawned tr → ¬ TerminateCalled cfg cmd tr →
    ∀ st, statuses tr = [st] → st.code = none → r = .ok 2
  three : r = .ok 3 ↔ TerminateCalled cfg cmd tr ∧ ∃ c, r = .ok c
  range : ∀ c, r = .ok c → c = 0 ∨ c = 1 ∨ c = 2 ∨ c = 3

theorem exitCode_eq (st : ExitStatus) :
    (exitCode st = 0 ↔ st.success = true) ∧ (exitCode st = 2 ↔ st.success = false) ∧
      exitCode st ≠ 1 ∧ exitCode st ≠ 3 := by
  unfold exitCode
  cases st.success <;> simp

/-- The spec of a run in which the child was spawned and never terminated: the status decides. -/
theorem ReturnSpec.of_status {st : ExitStatus} (hg : preflightOutcome tr = passed)
    (hsp : spawnResults tr = [.ok ()]) (hk : watcherKills tr = 0)
    (hc : ¬ TerminateCalled cfg cmd tr) (hst : statuses tr = [st]) :
    ReturnSpec cfg cmd tr (.ok (exitCode st)) := by
  obtain ⟨h0, h2, h1, h3⟩ := exitCode_eq st
  have hs : Spawned tr := by simp [Spawned, hsp]
  refine ⟨by simp [hsp, hk], by simp [hsp], ?_, ?_, ?_, ?_, ?_, ?_⟩
  · simp [h1, GateFailed, hg]
  · simp [h0, GateFailed, GateSignalled, hg, hs, hc, hst]
  · simp [h2, hs, hc, hst]
  · intro _ _ st' hst' hcode
    obtain rfl : st = st' := by simpa [hst] using hst'
    rw [h2.mpr (ExitStatus.not_success_of_code_eq_none hcode)]
  · simp [h3, hc]
  · intro c hc'
    obtain rfl := Except.ok.inj hc'
    unfold exitCode
    split <;> simp

/-- The spec of a run that terminated the child and did not fail. -/
theorem ReturnSpec.of_terminate (hg : preflightOutcome tr = passed)
    (hsp : spawnResults tr = [.ok ()]) (hc : TerminateCalled cfg cmd tr)
    (he : 0 < watcherKills tr → ∀ e, .error e ∉ terminateResults tr) :
    ReturnSpec cfg cmd tr (.ok 3) := by
  refine ⟨?_, by simp [hsp], ?_, ?_, ?_, ?_, ?_, ?_⟩
  · intro e
    refine iff_of_false (by simp) ?_
    rintro (h | ⟨hk, h⟩)
    · simp [hsp] at h
    · exact he hk e h
  · simp [GateFailed, hg]
  · simp [GateFailed, GateSignalled, hg, hc]
  · simp [hc]
  · exact fun _ hn => absurd hc hn
  · simp [hc]
  · simp

/-- The spec of a run that failed: `spawn` did, or the watcher's `terminate`. -/
theorem ReturnSpec.of_error {err : Error} (hg : preflightOutcome tr = passed)
    (he : .error err ∈ spawnResults tr ∨ (0 < watcherKills tr ∧ .error err ∈ terminateResults tr))
    (hu : ∀ e, .error e ∈ spawnResults tr ∨
      (0 < watcherKills tr ∧ .error e ∈ terminateResults tr) → e = err)
    (hn : ∀ e, .error e ∈ spawnResults tr → ¬ Spawned tr)
    (hsp : Spawned tr → TerminateCalled cfg cmd tr) :
    ReturnSpec cfg cmd tr (.error err) := by
  refine ⟨?_, hn, by simp [GateFailed, hg], ?_, ?_, ?_, by simp, by simp⟩
  · intro e
    refine ⟨?_, fun h => by rw [hu e h]⟩
    intro h
    obtain rfl := Except.error.inj h
    exact he
  · refine iff_of_false (by simp) ?_
    rintro (⟨sig, h⟩ | ⟨⟨reason, h⟩, -⟩ | ⟨h, hc, -⟩)
    · simp [hg] at h
    · simp [hg] at h
    · exact hc (hsp h)
  · exact iff_of_false (by simp) fun ⟨h, hc, _⟩ => hc (hsp h)
  · exact fun h hc => absurd (hsp h) hc

/-- The spec of a run that ended before the spawn. -/
theorem ReturnSpec.of_gate {c : ℤ} (hsp : spawnResults tr = []) (hk : watcherKills tr = 0)
    (hc : calls cfg cmd tr = []) (h1 : c = 1 ↔ GateFailed tr ∧ cfg.strict = true)
    (h0 : c = 0 ↔ GateSignalled tr ∨ (GateFailed tr ∧ cfg.strict = false))
    (hr : c = 0 ∨ c = 1) : ReturnSpec cfg cmd tr (.ok c) := by
  have hs : ¬ Spawned tr := by simp [Spawned, hsp]
  have ht : ¬ TerminateCalled cfg cmd tr := by simp [TerminateCalled, hc]
  refine ⟨by simp [hsp, hk], by simp [hsp], ?_, ?_, ?_, ?_, ?_, ?_⟩
  · simpa using h1
  · simpa [hs] using h0
  · refine iff_of_false ?_ fun h => hs h.1
    rcases hr with rfl | rfl <;> simp
  · exact fun h => absurd h hs
  · refine iff_of_false ?_ fun h => ht h.1
    rcases hr with rfl | rfl <;> simp
  · intro c' hc'
    obtain rfl := Except.ok.inj hc'
    exact hr.imp_right Or.inl

theorem returnSpec_of_ending (h : Ending cfg cmd r (ledger cfg cmd tr)) :
    ReturnSpec cfg cmd tr r := by
  generalize hL : ledger cfg cmd tr = L at h
  obtain ⟨hg, hsp, -, hc, hk, -, ht, hst⟩ := shows_of_ledger hL
  cases h
  case signalled sig =>
    exact .of_gate hsp hk hc (by simp [GateFailed, hg]) (by simp [GateSignalled, hg]) (Or.inl rfl)
  case skipped reason =>
    refine .of_gate hsp hk hc ?_ ?_ ?_ <;>
      cases hs : cfg.strict <;> simp [GateFailed, GateSignalled, hg]
  case spawnFailed err =>
    refine .of_error hg (Or.inl (by simp [hsp])) ?_ (by simp [Spawned, hsp])
      (by simp [Spawned, hsp])
    intro e he
    simpa [hsp, hk] using he
  case exited st => exact .of_status hg hsp hk (by simp [TerminateCalled, hc]) hst
  case forwarded sig st => exact .of_status hg hsp hk (by simp [TerminateCalled, hc]) hst
  case escalated sig sig2 res st =>
    exact .of_terminate hg hsp ⟨cfg.grace, by simp [hc]⟩ (by simp [hk])
  case killed hkc st => exact .of_terminate hg hsp ⟨cfg.grace, by simp [hc]⟩ (by simp [ht])
  case killFailed hkc err =>
    refine .of_error hg (Or.inr (by simp [hk, ht])) ?_ (by simp [hsp]) ?_
    · intro e he
      simpa [hsp, hk, ht] using he
    · exact fun _ => ⟨cfg.grace, by simp [hc]⟩

/-- `spawn` is called exactly when the pre-flight evaluation wins the race and passes. -/
theorem spawn_calls {p : Phase} (h : Account cfg cmd p (ledger cfg cmd tr)) :
    (calls cfg cmd tr).filter Fut.isSpawn =
      if preflightOutcome tr = passed then [.spawn cmd] else [] := by
  generalize hL : ledger cfg cmd tr = L at h
  obtain ⟨hg, -, -, hc, -⟩ := shows_of_ledger hL
  rw [hg, hc]
  cases h with
  | returned he => cases he <;> rfl
  | _ => rfl

/-- Gate and exit code of every run: one `spawn` with the given command exactly when the pre-flight
passes, and the result read off what was spawned, terminated and awaited. -/
theorem run_exit_code (h : (supervisor cfg cmd).Run tr s) :
    ((calls cfg cmd tr).filter Fut.isSpawn =
      if preflightOutcome tr = passed then [.spawn cmd] else []) ∧
    ∀ r, s.phase = .returned r → ReturnSpec cfg cmd tr r :=
  ⟨spawn_calls (run_account h), fun _ hr => returnSpec_of_ending (run_ending h hr)⟩

/-- A second signal terminates the child, and `terminate` fails. -/
def escalates : List (ℕ × Event) :=
  [(0, .evaluated .pass), (0, .spawned ⟨"echo", ["hello"]⟩ (.ok ())),
    (1, .signalled .interrupt), (1, .signalSent .interrupt (.ok ())),
    (2, .signalled .interrupt), (3, .terminated 1 (.error ⟨"ESRCH"⟩)), (3, .exited ⟨9⟩)]

theorem run_exit_code_escalated :
    ReturnSpec ⟨false, false, 1, 1, 0⟩ ⟨"echo", ["hello"]⟩
      (traceOf ⟨false, false, 1, 1, 0⟩ ⟨"echo", ["hello"]⟩ escalates) (.ok 3) :=
  have hrun : (supervisor ⟨false, false, 1, 1, 0⟩ ⟨"echo", ["hello"]⟩).Run
      (traceOf ⟨false, false, 1, 1, 0⟩ ⟨"echo", ["hello"]⟩ escalates) ⟨.returned (.ok 3), 3⟩ :=
    replay_run escalates rfl
  (run_exit_code hrun).2 _ rfl

end Condrun
