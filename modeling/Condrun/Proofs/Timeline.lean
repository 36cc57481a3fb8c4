import Mathlib.Order.Monotone.Defs
import Condrun.Proofs.Fixture
import Condrun.Proofs.Flags
import Condrun.Proofs.Returns

/-! From a fixture file to the end of the child: what the entries of a timeline make of a run over a
real child. An evaluation takes no time, so that both flags are read at one instant. -/

namespace Condrun

variable {T : Type} [LinearOrder T] {p : Platform T (StateM ℕ)} {cli : Cli}
  {l : List (TimedSnapshot T)} {sup : Supervisor (StateM ℕ)} {spec : CommandSpec} {c : RealChild}
  {arrivals : ℕ → Option (ℕ × SignalKind)} {t₀ τ : ℕ}

/-- A run on a file with the timeline `l`. Each flag is read at the instant that the clock shows
then, which is the instant of the evaluation. -/
structure FixtureRun (p : Platform T (StateM ℕ)) (cli : Cli) (l : List (TimedSnapshot T))
    (sup : Supervisor (StateM ℕ)) (spec : CommandSpec) : Prop where
  dispatched : dispatch p cli = .ok (.run sup spec)
  fixtures : p.testFixture = true
  source : ∃ path contents, cli.stateSource = some ("file:" ++ path) ∧
    p.readToString path = .ok contents ∧ p.fromStr contents = .ok (.sequence l)
  clock : p.now = fun t => (t, t)
  secs : Monotone p.secs

/-- The surroundings of a run on a fixture, but for the child. -/
def fixtureEnv (p : Platform T (StateM ℕ)) (cli : Cli) (l : List (TimedSnapshot T))
    (arrivals : ℕ → Option (ℕ × SignalKind)) : Env where
  set := predicateSet cli
  network t :=
    let s : FixtureNetworkState T := ⟨.sequence l, p.start⟩
    ⟨s.isExpensive p.secs t, s.isLowDataMode p.secs t⟩
  arrivals := arrivals
  wait _ _ := none
  reply _ _ := none

def NetworkSnapshot.path (s : NetworkSnapshot) : NwPathSnapshot := ⟨s.expensive, s.lowData⟩

theorem predicateSet_still (cli : Cli) (x : NwPathSnapshot) :
    ((predicateSet cli).evaluate (.still x)).isPass = permits cli x := by
  obtain ⟨e, l⟩ := x
  unfold predicateSet permits buildPredicates
  cases cli.any <;> cases cli.rejectExpensive <;> cases cli.rejectLowData <;> cases e <;>
    cases l <;> rfl

theorem fixtureEnv_verdict (p : Platform T (StateM ℕ)) (cli : Cli) (l : List (TimedSnapshot T))
    (t : ℕ) : ((fixtureEnv p cli l arrivals).verdict t).isPass =
      permits cli (snapshotAt l (p.secs (t - p.start))).path :=
  predicateSet_still cli _

theorem FixtureRun.supervisor_eq (h : FixtureRun p cli l sup spec) :
    sup = ⟨predicateSet cli, p.serve ⟨.sequence l, p.start⟩, cli.config⟩ := by
  obtain ⟨-, -, state, hb, hsup⟩ := dispatch_run.mp h.dispatched
  obtain ⟨path, contents, hs, hread, hparse⟩ := h.source
  have hprefix : stripPrefix ("file:" ++ path) "file:" = some path := stripPrefix_eq_some.mpr rfl
  simp only [buildNetworkState, h.fixtures, if_true, hs, hprefix, loadFromPath, hread, hparse,
    context, Except.mapError, bind, Except.bind, pure, Except.pure, Except.ok.injEq] at hb
  rw [hsup, ← hb]

/-- The predicates read the clock and leave it. -/
theorem FixtureRun.onlyReads (h : FixtureRun p cli l sup spec) :
    OnlyReads (p.serve ⟨.sequence l, p.start⟩) (buildPredicates cli) := by
  intro q hq t
  unfold Platform.serve
  rw [h.clock]
  rcases mem_buildPredicates hq with rfl | rfl
  · exact (rejectFlag_world _ _ _ t).trans rfl
  · exact (rejectFlag_world _ _ _ t).trans rfl

/-- The supervisor that `dispatch` sets up finds at `t` what its surroundings show. -/
theorem FixtureRun.verdict (h : FixtureRun p cli l sup spec) (t : ℕ) :
    (sup.predicateSet.evaluate sup.state t).1.isPass =
      ((fixtureEnv p cli l arrivals).verdict t).isPass := by
  have hreads := h.onlyReads
  rw [← predicateSet_predicates] at hreads
  rw [h.supervisor_eq, fixtureEnv_verdict, (orderFree_of_reads hreads t).evaluate]
  apply admits_flags
  · simp only [Platform.serve, h.clock]
    rfl
  · simp only [Platform.serve, h.clock]
    rfl

/-! What the entries make of the verdicts. -/

/-- Once `y` has started, and if nothing from its time on is permitted, the predicates fail for
good. -/
theorem fails_of_timeline {y : TimedSnapshot T} (hy : y ∈ l) (hs : Monotone p.secs)
    (hstart : y.atSecs ≤ p.secs (t₀ + τ - p.start))
    (hl : ∀ x ∈ l, y.atSecs ≤ x.atSecs → permits cli x.state.path = false) (t : ℕ)
    (ht : t₀ + τ ≤ t) : ((fixtureEnv p cli l arrivals).verdict t).isPass = false := by
  have hle : y.atSecs ≤ p.secs (t - p.start) :=
    hstart.trans (hs (Nat.sub_le_sub_right ht p.start))
  rw [fixtureEnv_verdict]
  rcases snapshotAt_cases l (p.secs (t - p.start)) with ⟨x, hx, he⟩ | ⟨hnone, -⟩
  · rw [he]
    exact hl x hx.mem (hx.greatest y hy hle)
  · exact absurd hle (hnone y hy)

/-- If every entry is permitted, and what is shown before the first one, the predicates pass. -/
theorem passes_of_timeline (hl : ∀ x ∈ l, permits cli x.state.path = true)
    (h0 : permits cli ⟨false, false⟩ = true) (t : ℕ) :
    ((fixtureEnv p cli l arrivals).verdict t).isPass = true := by
  rw [fixtureEnv_verdict]
  rcases snapshotAt_cases l (p.secs (t - p.start)) with ⟨x, hx, he⟩ | ⟨-, he⟩
  · rw [he]
    exact hl x hx.mem
  · rw [he]
    exact h0

/-- Over predicates that pass the watcher never kills. -/
theorem not_killTick_of_passes {cfg : SupervisorConfig} {env : Env}
    (h : ∀ t, (env.verdict t).isPass = true) (k : ℕ) : ¬ KillTick cfg env t₀ k := by
  rintro ⟨⟨j, hjk, -, -, hall⟩, -⟩
  have hfail : (env.verdict (t₀ + k * cfg.poll)).isPass = false := hall k le_rfl hjk
  rw [h] at hfail
  cases hfail

/-- A timeline decides what becomes of a real child, unless a signal is taken first. Once nothing is
permitted any more, every run returns within the debounce, two polls and the grace, with the child
ended; and where all it shows is permitted, every run returns when the child ends by itself, with
its status. -/
theorem timeline_decides (h : FixtureRun p cli l sup spec) (hon : cli.noKillOnChange = false)
    (hp : 0 < cli.poll) (h0 : c.AliveTill [] t₀) :
    (∀ t, (sup.predicateSet.evaluate sup.state t).1.isPass =
      ((fixtureEnv p cli l arrivals).verdict t).isPass) ∧
    (∀ y ∈ l, ∀ τ, y.atSecs ≤ p.secs (t₀ + τ - p.start) →
      (∀ x ∈ l, y.atSecs ≤ x.atSecs → permits cli x.state.path = false) →
      (timed sup.config spec (c.env (fixtureEnv p cli l arrivals)) t₀).Leads fun s =>
        ReturnedBy c (t₀ + τ + cli.debounce + 2 * cli.poll + cli.grace) s ∨
        TookBy (fixtureEnv p cli l arrivals) t₀ (t₀ + τ + cli.debounce + 2 * cli.poll) s) ∧
    ∀ X status, c.ends [] = some (X, status) → (∀ x ∈ l, permits cli x.state.path = true) →
      permits cli ⟨false, false⟩ = true →
      (timed sup.config spec (c.env (fixtureEnv p cli l arrivals)) t₀).Leads fun s =>
        (s.phase = .returned (.ok (exitCode status)) ∧ s.now = X ∧ terminateTimes s.acts = []) ∨
        TookBy (fixtureEnv p cli l arrivals) t₀ X s := by
  have hcfg : sup.config = cli.config := by rw [h.supervisor_eq]
  have hkill : cli.config.killOnChange = true := by simp [Cli.config, hon]
  rw [hcfg]
  refine ⟨h.verdict, fun y hy τ hstart hl => ?_, fun X status hX hl hfirst => ?_⟩
  · exact FailsForGood.returns c h0 ⟨hkill, hp, fails_of_timeline hy h.secs hstart hl⟩
  · have hw : Watches cli.config (c.env (fixtureEnv p cli l arrivals)) t₀ (c.ends []) :=
      child_watches hkill hp h0
    have hpass : ∀ t, ((fixtureEnv p cli l arrivals).verdict t).isPass = true :=
      passes_of_timeline hl hfirst
    obtain ⟨e, he⟩ : ∃ e, Ends cli.config (c.env (fixtureEnv p cli l arrivals)) t₀ (c.ends []) e :=
      exists_ends (Or.inl (by simp [hX]))
    cases he with
    | exit hx hs hk =>
      obtain ⟨rfl, rfl⟩ := Prod.mk.inj (Option.some.inj (hX.symm.trans hx))
      refine (leads_to_return hw (.exit hx hs hk) rfl).strengthen ?_
      rintro ls s - rfl
      exact Or.inl ⟨rfl, rfl, rfl⟩
    | @signal a sig hs hx hk =>
      refine (leads_to_end hw (.signal hs hx hk)).strengthen ?_
      rintro ls s - ⟨js, hjs⟩
      exact Or.inr ⟨run_taken Nat.one_pos hjs, a, sig, hs, (hx X status hX).le⟩
    | kill hk =>
      have hchild : ∀ t, ((c.env (fixtureEnv p cli l arrivals)).verdict t).isPass = true := hpass
      exact absurd hk (not_killTick_of_passes hchild _)

/-- The network turns expensive at 5. -/
def turnsExpensive : List (TimedSnapshot ℕ) := [⟨0, ⟨false, false⟩⟩, ⟨5, ⟨true, false⟩⟩]

def turningPlatform : Platform ℕ (StateM ℕ) :=
  { fixturePlatform with
    fromStr := fun _ => .ok (.sequence turnsExpensive)
    now := fun t => (t, t) }

def watchedRun : Cli where
  command := .run ["sleep", "inf"]
  grace := 3
  poll := 1
  debounce := 2
  rejectExpensive := true
  stateSource := some "file:x"

theorem watchedRun_fixture : FixtureRun turningPlatform watchedRun turnsExpensive
    ⟨predicateSet watchedRun, turningPlatform.serve ⟨.sequence turnsExpensive, 0⟩,
      watchedRun.config⟩ ⟨"sleep", ["inf"]⟩ :=
  ⟨by rfl, rfl, ⟨"x", "", rfl, rfl, rfl⟩, rfl, monotone_id⟩

theorem timeline_decides_turning : (timed watchedRun.config ⟨"sleep", ["inf"]⟩
    (resistant.child.env (fixtureEnv turningPlatform watchedRun turnsExpensive fun _ => none))
      0).Leads fun s => ReturnedBy resistant.child (0 + 5 + 2 + 2 * 1 + 3) s ∨
        TookBy (fixtureEnv turningPlatform watchedRun turnsExpensive fun _ => none) 0
          (0 + 5 + 2 + 2 * 1) s :=
  (timeline_decides watchedRun_fixture rfl (by decide) fun _ _ _ => Nat.zero_le _).2.1
    ⟨5, ⟨true, false⟩⟩ (by decide) 5 (by decide) (by decide)

end Condrun
