import Condrun.Spec.Supervisor

/-! What one step of the supervisor can do, said once: a `Move` for each arm of its awaits. The
invariants of the other files go by cases on it and never unfold `resume`. -/

namespace Condrun

inductive Move (cfg : SupervisorConfig) (cmd : CommandSpec) (t : ℕ) :
    Phase → Event → Phase → Prop
  | gatePass : Move cfg cmd t .preflight (.evaluated .pass) .spawning
  | gateFail (reason : String) : Move cfg cmd t .preflight (.evaluated (.fail reason))
      (.returned (.ok (if cfg.strict then 1 else 0)))
  | gateSignal (sig : SignalKind) : Move cfg cmd t .preflight (.signalled sig) (.returned (.ok 0))
  | spawnFail (err : Error) :
      Move cfg cmd t .spawning (.spawned cmd (.error err)) (.returned (.error err))
  | spawnWatch (hk : cfg.killOnChange = true) :
      Move cfg cmd t .spawning (.spawned cmd (.ok ())) (.watching none)
  | spawnPlain (hk : cfg.killOnChange = false) :
      Move cfg cmd t .spawning (.spawned cmd (.ok ())) .plain
  | watchExit (fs : Option ℕ) (st : ExitStatus) :
      Move cfg cmd t (.watching fs) (.exited st) (.returned (.ok (exitCode st)))
  | watchSignal (fs : Option ℕ) (sig : SignalKind) :
      Move cfg cmd t (.watching fs) (.signalled sig) (.forwarding sig)
  | watchTick (fs : Option ℕ) :
      Move cfg cmd t (.watching fs) (.elapsed cfg.poll) (.evaluating fs)
  | evalPass (fs : Option ℕ) :
      Move cfg cmd t (.evaluating fs) (.evaluated .pass) (.watching none)
  | evalWait (fs : Option ℕ) (reason : String) (hd : t - fs.getD t < cfg.debounce) :
      Move cfg cmd t (.evaluating fs) (.evaluated (.fail reason)) (.watching (some (fs.getD t)))
  | evalKill (fs : Option ℕ) (reason : String) (hd : cfg.debounce ≤ t - fs.getD t) :
      Move cfg cmd t (.evaluating fs) (.evaluated (.fail reason)) .killing
  | killOk : Move cfg cmd t .killing (.terminated cfg.grace (.ok ())) .draining
  | killFail (err : Error) :
      Move cfg cmd t .killing (.terminated cfg.grace (.error err)) (.returned (.error err))
  | drained (st : ExitStatus) : Move cfg cmd t .draining (.exited st) (.returned (.ok 3))
  | plainExit (st : ExitStatus) :
      Move cfg cmd t .plain (.exited st) (.returned (.ok (exitCode st)))
  | plainSignal (sig : SignalKind) : Move cfg cmd t .plain (.signalled sig) (.forwarding sig)
  | forwarded (sig : SignalKind) (res : Except Error Unit) :
      Move cfg cmd t (.forwarding sig) (.signalSent sig res) (.escalating .racing)
  | escExit (st : ExitStatus) :
      Move cfg cmd t (.escalating .racing) (.exited st) (.returned (.ok (exitCode st)))
  | escSignal (sig : SignalKind) :
      Move cfg cmd t (.escalating .racing) (.signalled sig) (.escalating .terminating)
  | escTerminated (res : Except Error Unit) :
      Move cfg cmd t (.escalating .terminating) (.terminated cfg.grace res) (.escalating .draining)
  | escDrained (st : ExitStatus) :
      Move cfg cmd t (.escalating .draining) (.exited st) (.returned (.ok 3))

variable {cfg : SupervisorConfig} {cmd : CommandSpec} {t : ℕ} {p p' : Phase} {ev : Event}
  {s s' : State} {en : Entry}

theorem Move.awaited (h : Move cfg cmd t p ev p') : ev.fut ∈ (p.awaits cfg cmd).branches := by
  cases h <;> simp [Event.fut, Phase.awaits, Escalation.awaits]

theorem Move.resumes (h : Move cfg cmd t p ev p') : resume cfg t p ev = some p' := by
  cases h with
  | spawnWatch hk | spawnPlain hk => simp [resume, hk]
  | evalWait fs reason hd => simp [resume, Nat.not_le.2 hd]
  | evalKill fs reason hd => simp [resume, hd]
  | _ => rfl

theorem evaluating_move {fs : Option ℕ} {reason : String}
    (h : resume cfg t (.evaluating fs) (.evaluated (.fail reason)) = some p') :
    Move cfg cmd t (.evaluating fs) (.evaluated (.fail reason)) p' := by
  simp only [resume] at h
  split at h <;> obtain rfl := Option.some.inj h
  · exact .evalKill fs reason ‹_›
  · exact .evalWait fs reason (Nat.not_le.1 ‹_›)

theorem escalating_move {e : Escalation} (ha : ev.fut ∈ (e.awaits cfg.grace).branches)
    (h : resume cfg t (.escalating e) ev = some p') : Move cfg cmd t (.escalating e) ev p' := by
  cases e <;> cases ev <;> simp [Escalation.awaits, Event.fut] at ha
  case racing.exited st =>
    obtain rfl := Option.some.inj h
    exact .escExit st
  case racing.signalled sig =>
    obtain rfl := Option.some.inj h
    exact .escSignal sig
  case terminating.terminated grace res =>
    obtain rfl := Option.some.inj h
    exact ha ▸ .escTerminated res
  case draining.exited st =>
    obtain rfl := Option.some.inj h
    exact .escDrained st

theorem move_of_resume (ha : ev.fut ∈ (p.awaits cfg cmd).branches)
    (h : resume cfg t p ev = some p') : Move cfg cmd t p ev p' := by
  cases p with
  | preflight =>
    cases ev <;> simp [Phase.awaits, Event.fut] at ha
    case evaluated res =>
      cases res <;> obtain rfl := Option.some.inj h
      · exact .gatePass
      · exact .gateFail _
    case signalled sig =>
      obtain rfl := Option.some.inj h
      exact .gateSignal sig
  | spawning =>
    cases ev <;> simp [Phase.awaits, Event.fut] at ha
    case spawned cmd' res =>
      subst ha
      cases res <;> obtain rfl := Option.some.inj h
      · exact .spawnFail _
      · cases hk : cfg.killOnChange
        · exact .spawnPlain hk
        · exact .spawnWatch hk
  | watching fs =>
    cases ev <;> simp [Phase.awaits, Event.fut] at ha
    case exited st =>
      obtain rfl := Option.some.inj h
      exact .watchExit fs st
    case signalled sig =>
      obtain rfl := Option.some.inj h
      exact .watchSignal fs sig
    case elapsed d =>
      obtain rfl := Option.some.inj h
      exact ha ▸ .watchTick fs
  | evaluating fs =>
    cases ev <;> simp [Phase.awaits, Event.fut] at ha
    case evaluated res =>
      cases res with
      | pass =>
        obtain rfl := Option.some.inj h
        exact .evalPass fs
      | fail reason => exact evaluating_move h
  | killing =>
    cases ev <;> simp [Phase.awaits, Event.fut] at ha
    case terminated grace res =>
      subst ha
      cases res <;> obtain rfl := Option.some.inj h
      · exact .killFail _
      · exact .killOk
  | draining =>
    cases ev <;> simp [Phase.awaits, Event.fut] at ha
    case exited st =>
      obtain rfl := Option.some.inj h
      exact .drained st
  | plain =>
    cases ev <;> simp [Phase.awaits, Event.fut] at ha
    case exited st =>
      obtain rfl := Option.some.inj h
      exact .plainExit st
    case signalled sig =>
      obtain rfl := Option.some.inj h
      exact .plainSignal sig
  | forwarding sig =>
    cases ev <;> simp [Phase.awaits, Event.fut] at ha
    case signalSent sig' res =>
      subst ha
      obtain rfl := Option.some.inj h
      exact .forwarded sig' res
  | escalating e => exact escalating_move ha h
  | returned r => simp [Phase.awaits] at ha

/-- The moves are exactly the steps. -/
theorem step_iff_move : Step cfg cmd s en s' ↔
    s.now ≤ en.time ∧ Move cfg cmd en.time s.phase en.event en.next ∧ s' = ⟨en.next, en.time⟩ :=
  ⟨fun h => ⟨h.mono, move_of_resume h.awaited h.resumes, h.target⟩,
    fun ⟨h1, h2, h3⟩ => ⟨h1, h2.awaited, h2.resumes, h3⟩⟩

theorem Step.move (h : Step cfg cmd s en s') :
    Move cfg cmd en.time s.phase en.event en.next := (step_iff_move.mp h).2.1

theorem Move.step {now : ℕ} (h : Move cfg cmd t p ev p') (hle : now ≤ t) :
    Step cfg cmd ⟨p, now⟩ ⟨t, ev, p'⟩ ⟨p', t⟩ := step_iff_move.mpr ⟨hle, h, rfl⟩

/-- The step goes on to call `child.terminate`. -/
def CallsTerminate (cfg : SupervisorConfig) (cmd : CommandSpec) (en : Entry) : Prop :=
  .child (.terminate cfg.grace) ∈ (en.next.awaits cfg cmd).branches

theorem callsTerminate_iff : CallsTerminate cfg cmd en ↔
    en.next = .killing ∨ en.next = .escalating .terminating := by
  obtain ⟨t, ev, p⟩ := en
  cases p with
  | escalating e => cases e <;> simp [CallsTerminate, Phase.awaits, Escalation.awaits]
  | _ => simp [CallsTerminate, Phase.awaits]

instance : Decidable (CallsTerminate cfg cmd en) := decidable_of_iff _ callsTerminate_iff.symm

/-- The two steps that call `terminate`. -/
theorem callsTerminate_cases (hm : Move cfg cmd en.time s.phase en.event en.next)
    (hc : CallsTerminate cfg cmd en) :
    (en.next = .killing ∧ ∃ fs reason, s.phase = .evaluating fs ∧
      en.event = .evaluated (.fail reason) ∧ cfg.debounce ≤ en.time - fs.getD en.time) ∨
    (en.next = .escalating .terminating ∧ s.phase = .escalating .racing ∧
      ∃ sig, en.event = .signalled sig) := by
  obtain ⟨t, ev, p'⟩ := en
  have hp := callsTerminate_iff.mp hc
  simp only at hm hp
  generalize s.phase = p at hm
  cases hm with
  | evalKill fs reason hd => exact Or.inl ⟨rfl, fs, reason, rfl, rfl, hd⟩
  | escSignal sig => exact Or.inr ⟨rfl, rfl, sig, rfl⟩
  | _ => simp at hp

/-- The clock never goes back. -/
theorem run_times {tr : List Entry} (h : (supervisor cfg cmd).Run tr s) :
    tr.Pairwise (fun a b => a.time ≤ b.time) ∧ ∀ en ∈ tr, en.time ≤ s.now := by
  induction h with
  | nil => simp
  | snoc _ hst ih =>
    obtain ⟨hp, hle⟩ := ih
    have hmono := hst.mono
    rw [hst.target]
    refine ⟨List.pairwise_append.2 ⟨hp, by simp, ?_⟩, ?_⟩
    · intro a ha b hb
      rw [List.mem_singleton.1 hb]
      exact (hle a ha).trans hmono
    · intro a ha
      rcases List.mem_append.1 ha with ha | ha
      · exact (hle a ha).trans hmono
      · exact (List.mem_singleton.1 ha) ▸ le_rfl

end Condrun
