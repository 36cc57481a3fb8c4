import Mathlib.Data.List.Infix
import Condrun.Proofs.Check
import Condrun.Proofs.Errors
import Condrun.Proofs.ExitCode

/-! The exit codes of the whole program. -/

namespace Condrun

variable {T σ : Type} {p : Platform T (StateM σ)} {cli : Cli} {w : σ} {tr : List Entry}
  {parsed : Except ErrorKind Cli} {code : ℤ}

/-! When the setup succeeds. -/

theorem stripPrefix_eq_some {s pre path : String} :
    stripPrefix s pre = some path ↔ s = pre ++ path := by
  simp only [stripPrefix, Option.map_eq_some_iff, List.isPrefixOf?_eq_some_iff_append_eq]
  refine ⟨fun ⟨l, hl, he⟩ => ?_, fun h => ⟨path.toList, ?_, String.ofList_toList⟩⟩
  · subst he
    rw [← String.toList_inj, String.toList_append, String.toList_ofList, hl]
  · rw [h, String.toList_append]

theorem context_eq_ok {α : Type} {text : String} {r : Except Error α} {a : α} :
    context text r = .ok a ↔ r = .ok a := by
  cases r with
  | ok b => rfl
  | error err => simp [context, Except.mapError]

theorem bind_eq_ok {ε α β : Type} {r : Except ε α} {f : α → Except ε β} {b : β} :
    r >>= f = .ok b ↔ ∃ a, r = .ok a ∧ f a = .ok b := by
  cases r <;> simp [bind, Except.bind]

/-- The network state can be built: from a file that is a fixture where the build has fixtures and
one is asked for, else from the path monitor of macOS. -/
def StateAvailable (p : Platform T (StateM σ)) (cli : Cli) : Prop :=
  if p.testFixture = true ∧ cli.stateSource ≠ none then
    ∃ path contents fixture, cli.stateSource = some ("file:" ++ path) ∧
      p.readToString path = .ok contents ∧ p.fromStr contents = .ok fixture
  else p.macOs = true ∧ ∃ state, p.pathMonitor = .ok state

/-- Nothing that `dispatch` sets up fails. -/
structure Configured (p : Platform T (StateM σ)) (cli : Cli) : Prop where
  command : cli.command ≠ .run []
  state : StateAvailable p cli
  signals : ∀ cmd, cli.command = .run cmd → p.realSignals = .ok ()

theorem loadFromPath_ok {path : String} : (∃ s, loadFromPath p path = .ok s) ↔
    ∃ contents fixture, p.readToString path = .ok contents ∧ p.fromStr contents = .ok fixture := by
  simp only [loadFromPath, bind_eq_ok, context_eq_ok]
  refine ⟨fun ⟨_, contents, hc, fixture, hf, _⟩ => ⟨contents, fixture, hc, hf⟩, ?_⟩
  exact fun ⟨contents, fixture, hc, hf⟩ => ⟨_, contents, hc, fixture, hf, rfl⟩

theorem realNetworkState_ok : (∃ state, realNetworkState p = .ok state) ↔
    p.macOs = true ∧ ∃ state, p.pathMonitor = .ok state := by
  unfold realNetworkState
  cases hm : p.macOs <;> simp [context_eq_ok, throw, throwThe, MonadExceptOf.throw]

variable [LinearOrder T]

theorem buildNetworkState_ok :
    (∃ state, buildNetworkState p cli = .ok state) ↔ StateAvailable p cli := by
  unfold buildNetworkState StateAvailable
  cases ht : p.testFixture with
  | false => simpa using realNetworkState_ok
  | true =>
    cases hs : cli.stateSource with
    | none => simpa using realNetworkState_ok
    | some src =>
      simp only [if_true, ne_eq, reduceCtorEq, not_false_eq_true, and_self, Option.some.injEq]
      cases hp : stripPrefix src "file:" with
      | none =>
        refine iff_of_false (by simp [throw, throwThe, MonadExceptOf.throw]) ?_
        rintro ⟨path, _, _, rfl, -⟩
        rw [stripPrefix_eq_some.mpr rfl] at hp
        cases hp
      | some path =>
        obtain rfl := stripPrefix_eq_some.mp hp
        have hinj : ∀ path', "file:" ++ path = "file:" ++ path' ↔ path' = path := by
          intro path'
          rw [← stripPrefix_eq_some, hp, Option.some.injEq, eq_comm]
        simp only [bind_eq_ok, context_eq_ok, hinj]
        refine ⟨fun ⟨state, s, hl, _⟩ => ?_, fun ⟨path', contents, fixture, he, hc, hf⟩ => ?_⟩
        · obtain ⟨contents, fixture, hc, hf⟩ := loadFromPath_ok.mp ⟨s, hl⟩
          exact ⟨path, contents, fixture, rfl, hc, hf⟩
        · subst he
          obtain ⟨s, hl⟩ := loadFromPath_ok.mpr ⟨contents, fixture, hc, hf⟩
          exact ⟨_, s, hl, rfl⟩

/-- What a successful `dispatch` of a run has set up. -/
theorem dispatch_run {sup : Supervisor (StateM σ)} {spec : CommandSpec} :
    dispatch p cli = .ok (.run sup spec) ↔
      cli.command = .run (spec.program :: spec.args) ∧ p.realSignals = .ok () ∧
      ∃ state, buildNetworkState p cli = .ok state ∧
        sup = ⟨predicateSet cli, state, cli.config⟩ := by
  unfold dispatch
  rcases cli.command with (_ | ⟨program, args⟩) | explain
  · simp [throw, throwThe, MonadExceptOf.throw]
  · simp only [bind_eq_ok, context_eq_ok, pure, Except.pure, Except.ok.injEq, Job.run.injEq]
    refine ⟨?_, ?_⟩
    · rintro ⟨state, hb, u, hs, rfl, rfl⟩
      exact ⟨rfl, hs, state, hb, rfl⟩
    · rintro ⟨hc, hs, state, hb, rfl⟩
      obtain ⟨rfl, rfl⟩ := List.cons.inj (Command.run.inj hc)
      exact ⟨state, hb, (), hs, rfl, rfl⟩
  · simp [bind_eq_ok, pure, Except.pure]

theorem dispatch_check {explain : Bool} {set : PredicateSet (StateM σ)}
    {state : NetworkState (StateM σ)} : dispatch p cli = .ok (.check explain set state) ↔
      cli.command = .check explain ∧ set = predicateSet cli ∧
      buildNetworkState p cli = .ok state := by
  unfold dispatch
  rcases cli.command with (_ | ⟨program, args⟩) | explain'
  · simp [throw, throwThe, MonadExceptOf.throw]
  · simp [bind_eq_ok, pure, Except.pure]
  · simp only [bind_eq_ok, pure, Except.pure, Except.ok.injEq, Job.check.injEq,
      Command.check.injEq]
    refine ⟨?_, ?_⟩
    · rintro ⟨state', hb, rfl, rfl, rfl⟩
      exact ⟨rfl, rfl, hb⟩
    · rintro ⟨rfl, rfl, hb⟩
      exact ⟨state, hb, rfl, rfl, rfl⟩

theorem dispatch_ok : (∃ job, dispatch p cli = .ok job) ↔ Configured p cli := by
  refine ⟨?_, fun ⟨hc, hs, hr⟩ => ?_⟩
  · rintro ⟨sup | ⟨explain, set, state⟩, h⟩
    · obtain ⟨hc, hs, state, hb, -⟩ := dispatch_run.mp h
      exact ⟨by simp [hc], buildNetworkState_ok.mp ⟨state, hb⟩, fun _ _ => hs⟩
    · obtain ⟨hc, -, hb⟩ := dispatch_check.mp h
      exact ⟨by simp [hc], buildNetworkState_ok.mp ⟨state, hb⟩, by simp [hc]⟩
  · obtain ⟨state, hb⟩ := buildNetworkState_ok.mpr hs
    rcases hcom : cli.command with (_ | ⟨program, args⟩) | explain
    · exact absurd hcom hc
    · exact ⟨.run _ ⟨program, args⟩, dispatch_run.mpr ⟨hcom, hr _ hcom, state, hb, rfl⟩⟩
    · exact ⟨_, dispatch_check.mpr ⟨hcom, rfl, hb⟩⟩

/-! The exit codes. -/

/-- The command line starts this supervisor. -/
def Starts (p : Platform T (StateM σ)) (parsed : Except ErrorKind Cli)
    (sup : Supervisor (StateM σ)) (spec : CommandSpec) : Prop :=
  ∃ cli, parsed = .ok cli ∧ dispatch p cli = .ok (.run sup spec)

/-- The command line asks for a check, which in the world `w` finds this. -/
def Finds (p : Platform T (StateM σ)) (parsed : Except ErrorKind Cli) (w : σ) (pass : Bool) :
    Prop :=
  ∃ cli explain set state, parsed = .ok cli ∧ dispatch p cli = .ok (.check explain set state) ∧
    (set.evaluate state (checkWorld explain set state w)).1.isPass = pass

/-- A command is spawned only if its predicates passed. -/
def Gated (p : Platform T (StateM σ)) (parsed : Except ErrorKind Cli) (tr : List Entry) : Prop :=
  ∀ sup spec, Starts p parsed sup spec → ∀ cmd, .spawn cmd ∈ calls sup.config spec tr →
    cmd = spec ∧ ∃ w, (sup.predicateSet.evaluate sup.state w).1 = .pass

/-- What an exit code says that is no panic's, read off the command line and the steps of the
supervisor. -/
structure ExitSpec (p : Platform T (StateM σ)) (parsed : Except ErrorKind Cli) (w : σ)
    (tr : List Entry) (code : ℤ) : Prop where
  range : code = 0 ∨ code = 1 ∨ code = 2 ∨ code = 3 ∨ code = 4
  four : code = 4 ↔ parsed = .error .other ∨ (∃ cli, parsed = .ok cli ∧ ¬ Configured p cli) ∨
    (∃ err, .error err ∈ spawnResults tr) ∨ WatcherKillFails tr
  three : code = 3 ↔ ∃ sup spec, Starts p parsed sup spec ∧
    TerminateCalled sup.config spec tr ∧ ¬ WatcherKillFails tr
  two : code = 2 ↔ ∃ sup spec, Starts p parsed sup spec ∧ Spawned tr ∧
    ¬ TerminateCalled sup.config spec tr ∧ ∃ st, statuses tr = [st] ∧ st.success = false
  one : code = 1 ↔ Finds p parsed w false ∨
    ∃ sup spec, Starts p parsed sup spec ∧ GateFailed tr ∧ sup.config.strict = true
  zero : code = 0 ↔ (∃ kind, parsed = .error kind ∧ kind ≠ .other) ∨ Finds p parsed w true ∨
    ∃ sup spec, Starts p parsed sup spec ∧ (GateSignalled tr ∨
      (GateFailed tr ∧ sup.config.strict = false) ∨
      (Spawned tr ∧ ¬ TerminateCalled sup.config spec tr ∧
        ∃ st, statuses tr = [st] ∧ st.success = true))

/-- The spec of any execution. Each call of `terminate` is announced by a record at `info`: where
that can fail the program may panic instead of making the call. -/
structure MainSpec (p : Platform T (StateM σ)) (parsed : Except ErrorKind Cli) (w : σ)
    (tr : List Entry) (code : ℤ) : Prop where
  exits : code ≠ 101 → ExitSpec p parsed w tr code
  panics : code = 101 → Panics p parsed w tr ∧ ∃ f, p.fails f = true
  gate : Gated p parsed tr
  announces : p.fails (.log .info) = true → ∀ sup spec, Starts p parsed sup spec →
    ∀ pre en post, tr = pre ++ en :: post → CallsTerminate sup.config spec en →
      Exits p parsed w pre 101

/-- The spec of an execution without a supervisor. -/
theorem ExitSpec.of_quiet (hs : ∀ sup spec, ¬ Starts p parsed sup spec)
    (hr : code = 0 ∨ code = 1 ∨ code = 4)
    (h4 : code = 4 ↔ parsed = .error .other ∨ ∃ cli, parsed = .ok cli ∧ ¬ Configured p cli)
    (h1 : code = 1 ↔ Finds p parsed w false)
    (h0 : code = 0 ↔ (∃ kind, parsed = .error kind ∧ kind ≠ .other) ∨ Finds p parsed w true) :
    ExitSpec p parsed w [] code := by
  refine ⟨by omega, ?_, ?_, ?_, ?_, ?_⟩
  · simpa [spawnResults, WatcherKillFails, watcherKills] using h4
  · refine iff_of_false (by omega) ?_
    rintro ⟨sup, spec, h, -⟩
    exact hs sup spec h
  · refine iff_of_false (by omega) ?_
    rintro ⟨sup, spec, h, -⟩
    exact hs sup spec h
  · simpa [hs] using h1
  · simpa [hs] using h0

theorem not_starts (h : ∀ sup spec, dispatch p cli ≠ .ok (.run sup spec))
    (sup : Supervisor (StateM σ)) (spec : CommandSpec) : ¬ Starts p (.ok cli) sup spec := by
  rintro ⟨cli', he, hd⟩
  obtain rfl := Except.ok.inj he
  exact h sup spec hd

theorem not_finds (h : ∀ explain set state, dispatch p cli ≠ .ok (.check explain set state))
    (pass : Bool) : ¬ Finds p (.ok cli) w pass := by
  rintro ⟨cli', explain, set, state, he, hd, -⟩
  obtain rfl := Except.ok.inj he
  exact h explain set state hd

theorem starts_ok_iff {sup sup' : Supervisor (StateM σ)} {spec spec' : CommandSpec}
    (h : dispatch p cli = .ok (.run sup spec)) :
    Starts p (.ok cli) sup' spec' ↔ sup' = sup ∧ spec' = spec := by
  simp only [Starts, Except.ok.injEq, exists_eq_left', h, Job.run.injEq]
  exact ⟨fun ⟨h1, h2⟩ => ⟨h1.symm, h2.symm⟩, fun ⟨h1, h2⟩ => ⟨h1.symm, h2.symm⟩⟩

theorem exists_starts_iff {sup : Supervisor (StateM σ)} {spec : CommandSpec}
    {P : Supervisor (StateM σ) → CommandSpec → Prop}
    (h : dispatch p cli = .ok (.run sup spec)) :
    (∃ sup' spec', Starts p (.ok cli) sup' spec' ∧ P sup' spec') ↔ P sup spec := by
  simp only [starts_ok_iff h]
  refine ⟨?_, fun hp => ⟨sup, spec, ⟨rfl, rfl⟩, hp⟩⟩
  rintro ⟨_, _, ⟨rfl, rfl⟩, hp⟩
  exact hp

theorem finds_unparsed {kind : ErrorKind} {pass : Bool} :
    ¬ Finds p (.error kind) w pass := by
  rintro ⟨cli, _, _, _, h, -⟩
  cases h

theorem finds_iff {explain : Bool} {set : PredicateSet (StateM σ)}
    {state : NetworkState (StateM σ)} {pass : Bool}
    (h : dispatch p cli = .ok (.check explain set state)) :
    Finds p (.ok cli) w pass ↔
      (set.evaluate state (checkWorld explain set state w)).1.isPass = pass := by
  refine ⟨?_, fun hp => ⟨cli, explain, set, state, rfl, h, hp⟩⟩
  rintro ⟨cli', explain', set', state', he, h', hp⟩
  obtain rfl := Except.ok.inj he
  rw [h] at h'
  obtain ⟨rfl, rfl, rfl⟩ := Job.check.inj (Except.ok.inj h')
  exact hp

/-- Only a spawned child is terminated. -/
theorem spawnResults_of_terminateCalled {cfg : SupervisorConfig} {cmd : CommandSpec} {s : State}
    (hr : (supervisor cfg cmd).Run tr s) (hc : TerminateCalled cfg cmd tr) :
    spawnResults tr = [.ok ()] := by
  have ha := run_account hr
  obtain ⟨grace, hc⟩ := hc
  generalize hL : ledger cfg cmd tr = L at ha
  obtain ⟨-, hsp, -, hcalls, -⟩ := shows_of_ledger hL
  rw [hcalls] at hc
  rw [hsp]
  generalize s.phase = ph at ha
  cases ha with
  | returned he =>
    cases he with
    | signalled | skipped | spawnFailed => simp at hc
    | _ => rfl
  | preflight | spawning => simp at hc
  | _ => rfl

/-- A command is spawned only if the predicates passed. -/
theorem Supervisor.Evaluates.gate {sup : Supervisor (StateM σ)} {spec cmd : CommandSpec}
    {s : State} (he : sup.Evaluates tr) (hr : (supervisor sup.config spec).Run tr s)
    (hc : .spawn cmd ∈ calls sup.config spec tr) :
    cmd = spec ∧ ∃ w, (sup.predicateSet.evaluate sup.state w).1 = .pass := by
  have hmem : Fut.spawn cmd ∈ (calls sup.config spec tr).filter Fut.isSpawn :=
    List.mem_filter.mpr ⟨hc, rfl⟩
  rw [spawn_calls (run_account hr)] at hmem
  split_ifs at hmem with hg
  · obtain ⟨en, hen, hev⟩ := Option.map_eq_some_iff.mp hg
    refine ⟨by simpa using hmem, he en (List.mem_of_head? hen) .pass ?_⟩
    rw [hev]
    rfl
  · cases hmem

/-- The steps of an execution are those of a run that the command line starts. -/
def Supervised (p : Platform T (StateM σ)) (parsed : Except ErrorKind Cli) (tr : List Entry) :
    Prop :=
  tr = [] ∨ ∃ cli sup spec s, parsed = .ok cli ∧ dispatch p cli = .ok (.run sup spec) ∧
    (supervisor sup.config spec).Run tr s ∧ sup.Evaluates tr

theorem Supervised.gated (h : Supervised p parsed tr) : Gated p parsed tr := by
  rcases h with rfl | ⟨cli, sup, spec, s, rfl, h, hr, he⟩
  · intro sup spec _ cmd hc
    cases hc
  · intro sup' spec' hst cmd hc
    obtain ⟨rfl, rfl⟩ := (starts_ok_iff h).mp hst
    exact he.gate hr hc

/-- `terminate` is not called but after a record at `info`. -/
theorem info_of_callsTerminate {cfg : SupervisorConfig} {cmd : CommandSpec} {s s' : State}
    {en : Entry} (hst : Step cfg cmd s en s') (hc : CallsTerminate cfg cmd en) :
    .info ∈ logs cfg en.time s.phase en.event := by
  rcases callsTerminate_cases hst.move hc with ⟨-, fs, reason, hp, he, hd⟩ | ⟨-, hp, sig, he⟩
  · rw [hp, he]
    simp only [logs, if_pos hd, List.mem_singleton]
  · rw [hp, he]
    exact List.mem_singleton_self _

theorem Supervised.announces (h : Supervised p parsed tr) (hf : p.fails (.log .info) = true)
    {sup : Supervisor (StateM σ)} {spec : CommandSpec} (hst : Starts p parsed sup spec)
    {pre post : List Entry} {en : Entry} (htr : tr = pre ++ en :: post)
    (hc : CallsTerminate sup.config spec en) : Panics p parsed w pre := by
  subst htr
  rcases h with hnil | ⟨cli, sup', spec', s, rfl, h, hr, he⟩
  · simp at hnil
  · obtain ⟨rfl, rfl⟩ := (starts_ok_iff h).mp hst
    obtain ⟨a, b, ha, hstep, -⟩ := hr.split
    refine .logs w h ha hstep (fun en' hen' => he en' ?_) (info_of_callsTerminate hstep hc) hf
    rcases List.mem_append.1 hen' with hpre | hen
    · exact List.mem_append_left _ hpre
    · obtain rfl := List.mem_singleton.1 hen
      exact List.mem_append_right _ List.mem_cons_self

theorem Panics.supervised (h : Panics p parsed w tr) : Supervised p parsed tr := by
  cases h with
  | start | warns | opens | bails | prints => exact Or.inl rfl
  | logs _ h hr hst he =>
    exact Or.inr ⟨_, _, _, _, rfl, h, hr, fun en hen => he en (List.mem_append_left _ hen)⟩
  | waits _ h hr he => exact Or.inr ⟨_, _, _, _, rfl, h, hr, he⟩
  | reports _ h hr he => exact Or.inr ⟨_, _, _, _, rfl, h, hr, he⟩

theorem Panics.fails (h : Panics p parsed w tr) : ∃ f, p.fails f = true := by
  cases h with
  | prints _ _ hf =>
    rcases hf with ⟨-, hf⟩ | ⟨-, hf⟩
    · exact ⟨_, hf⟩
    · exact ⟨_, hf⟩
  | start _ _ hf | warns _ _ hf | opens _ _ _ _ hf | bails _ _ hf => exact ⟨_, hf⟩
  | logs _ _ _ _ _ _ hf => exact ⟨_, hf⟩
  | waits _ _ _ _ _ hf | reports _ _ _ _ _ hf => exact ⟨_, hf⟩

/-- The spec of an execution whose supervisor returned `r`. -/
theorem exitSpec_of_run {sup : Supervisor (StateM σ)} {spec : CommandSpec} {s : State}
    {r : Except Error ℤ} (h : dispatch p cli = .ok (.run sup spec))
    (hr : (supervisor sup.config spec).Run tr s) (hs : s.phase = .returned r) :
    ExitSpec p (.ok cli) w tr (exitWith r) := by
  have hspec := returnSpec_of_ending (run_ending hr hs)
  have hconf : Configured p cli := dispatch_ok.mp ⟨_, h⟩
  have hfinds : ∀ pass, ¬ Finds p (.ok cli) w pass := not_finds (by simp [h])
  have herr : (∃ err, r = .error err) ↔
      (∃ err, .error err ∈ spawnResults tr) ∨ WatcherKillFails tr := by
    simp only [hspec.err, WatcherKillFails, exists_or, exists_and_left]
  have hok : ∀ c : ℤ, c ≠ 4 → (exitWith r = c ↔ r = .ok c) := by
    intro c hc
    cases r with
    | ok d => simp [exitWith]
    | error err => simpa [exitWith] using hc.symm
  have hfour : exitWith r = 4 ↔ ∃ err, r = .error err := by
    cases r with
    | error err => simp [exitWith]
    | ok c =>
      have := hspec.range c rfl
      simp only [exitWith, reduceCtorEq, exists_false, iff_false]
      omega
  refine ⟨?_, ?_, ?_, ?_, ?_, ?_⟩
  · cases r with
    | error err => simp [exitWith]
    | ok c =>
      have := hspec.range c rfl
      simp only [exitWith]
      omega
  · rw [hfour, herr]
    simp [hconf]
  · rw [exists_starts_iff h, hok 3 (by decide), hspec.three]
    refine and_congr_right fun hc => ?_
    have hsp := spawnResults_of_terminateCalled hr hc
    rw [show WatcherKillFails tr ↔ ∃ err, r = .error err by rw [herr]; simp [hsp]]
    cases r <;> simp
  · rw [exists_starts_iff h, hok 2 (by decide), hspec.two]
  · rw [exists_starts_iff h, hok 1 (by decide), hspec.one]
    simp [hfinds]
  · rw [exists_starts_iff h, hok 0 (by decide), hspec.zero]
    simp [hfinds]

theorem MainSpec.of_exitSpec (hsup : Supervised p parsed tr) (hs : ExitSpec p parsed w tr code) :
    MainSpec p parsed w tr code := by
  refine ⟨fun _ => hs, fun hc => ?_, hsup.gated, ?_⟩
  · have := hs.range
    omega
  · exact fun hf sup spec hst pre en post htr hc => .panicked (hsup.announces hf hst htr hc)

/-- An execution of the program that does not panic exits with a code from 0 to 4 that means what it
should. -/
theorem main_exit (h : Exits p parsed w tr code) : MainSpec p parsed w tr code := by
  cases h with
  | unparsed kind =>
    refine .of_exitSpec (Or.inl rfl) (.of_quiet (by rintro _ _ ⟨cli, h, -⟩; cases h) ?_ ?_ ?_ ?_)
    · cases kind <;> simp [ErrorKind.code]
    · cases kind <;> simp [ErrorKind.code]
    · cases kind <;> simp [ErrorKind.code, finds_unparsed]
    · cases kind <;> simp [ErrorKind.code, finds_unparsed]
  | @bailed cli err _ h =>
    have hconf : ¬ Configured p cli := fun hc => by
      obtain ⟨job, hj⟩ := dispatch_ok.mpr hc
      rw [h] at hj
      cases hj
    have hfinds : ∀ pass, ¬ Finds p (.ok cli) w pass := not_finds (by simp [h])
    refine .of_exitSpec (Or.inl rfl)
      (.of_quiet (not_starts (by simp [h])) (Or.inr (Or.inr rfl)) ?_ ?_ ?_)
    · simpa [exitWith] using hconf
    · simp [exitWith, hfinds]
    · simp [exitWith, hfinds]
  | @checked cli explain set state _ h =>
    have hconf : Configured p cli := dispatch_ok.mp ⟨_, h⟩
    rw [check_eq]
    refine .of_exitSpec (Or.inl rfl) (.of_quiet (not_starts (by simp [h])) ?_ ?_ ?_ ?_)
    · simp only [exitWith]
      split_ifs <;> simp
    · simp only [exitWith]
      split_ifs <;> simp [hconf]
    · simp only [exitWith, finds_iff h]
      split_ifs with hp <;> simp [hp]
    · simp only [exitWith, finds_iff h]
      split_ifs with hp <;> simp [hp]
  | ran _ h hr he hs =>
    exact .of_exitSpec (Or.inr ⟨_, _, _, _, rfl, h, hr, he⟩) (exitSpec_of_run h hr hs)
  | panicked h =>
    refine ⟨fun hc => absurd rfl hc, fun _ => ⟨h, h.fails⟩, h.supervised.gated, ?_⟩
    exact fun hf sup spec hst pre en post htr hc =>
      .panicked (h.supervised.announces hf hst htr hc)

/-- A build with fixtures, whose only file holds an expensive network; each look at the clock takes
a nanosecond. -/
def fixturePlatform : Platform ℕ (StateM ℕ) where
  testFixture := true
  macOs := false
  readToString := fun path => if path = "x" then .ok "" else .error ⟨"No such file"⟩
  fromStr := fun _ => .ok (.static ⟨true, false⟩)
  start := 0
  now := fun t => (t, t + 1)
  secs := id
  pathMonitor := .error ⟨"no NWPathMonitor"⟩
  realSignals := .ok ()
  fails := fun _ => false

def strictRun : Cli where
  command := .run ["echo", "no"]
  strict := true
  rejectExpensive := true
  stateSource := some "file:x"

def strictSupervisor : Supervisor (StateM ℕ) where
  predicateSet := predicateSet strictRun
  state := fixturePlatform.serve ⟨.static ⟨true, false⟩, 0⟩
  config := strictRun.config

theorem main_exit_strict : MainSpec fixturePlatform (.ok strictRun) 0
    [⟨5, .evaluated (.fail "current connection is expensive (Personal Hotspot or cellular)"),
      .returned (.ok 1)⟩] 1 := by
  have hd : dispatch fixturePlatform strictRun = .ok (.run strictSupervisor ⟨"echo", ["no"]⟩) := by
    rfl
  have hr : (supervisor strictSupervisor.config ⟨"echo", ["no"]⟩).Run
      [⟨5, .evaluated (.fail "current connection is expensive (Personal Hotspot or cellular)"),
        .returned (.ok 1)⟩] ⟨.returned (.ok 1), 5⟩ :=
    replay_run [(5, .evaluated
      (.fail "current connection is expensive (Personal Hotspot or cellular)"))] rfl
  refine main_exit (.ran 0 hd hr ?_ rfl)
  intro en hen res hres
  obtain rfl := List.mem_singleton.1 hen
  obtain rfl := Option.some.inj hres
  exact ⟨0, rfl⟩

end Condrun
