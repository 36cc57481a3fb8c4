import Condrun.Spec.Cli
import Condrun.Spec.Fixture
import Condrun.Spec.Supervisor

/-! `dispatch` of `src/cli.rs` and `main` of `src/main.rs`, from a parsed command line to the exit
code. What the build and the machine decide is a parameter. -/

namespace Condrun

inductive Command
  | run (cmd : List String)
  | check (explain : Bool)
  deriving DecidableEq, Repr

/-- The flags that `dispatch` reads, with their defaults. -/
structure Cli where
  command : Command
  strict : Bool := false
  noKillOnChange : Bool := false
  grace : ℕ := fromSecs 30
  poll : ℕ := fromSecs 30
  debounce : ℕ := fromSecs 0
  any : Bool := false
  rejectExpensive : Bool := false
  rejectLowData : Bool := false
  stateSource : Option String := none
  deriving DecidableEq, Repr

/-- The defaults are what `parse_duration` makes of their texts. -/
theorem defaults_parse (debug : String → String) (command : Command) :
    let cli : Cli := { command := command }
    parseDuration debug "30s" = some (.ok cli.grace) ∧
    parseDuration debug "30s" = some (.ok cli.poll) ∧
    parseDuration debug "0s" = some (.ok cli.debounce) := by
  refine ⟨?_, ?_, ?_⟩
  all_goals rfl

inductive Level
  | debug
  | info
  | warn
  | error
  deriving DecidableEq, Repr

/-- What the program does that panics when it fails: starting the runtime, printing, logging, and
the wait on the child. -/
inductive Fragile
  | runtime
  | println
  | eprintln
  | log (level : Level)
  | wait
  deriving DecidableEq, Repr

/-- The features and the target of the build, the files and the calls that can fail; `start` is the
instant at which a fixture is created, and `now` reads the clock later. What `fails` may fail, at
any time: a record, say, where the filter shows its level and stderr cannot be written. -/
structure Platform (T : Type) (m : Type → Type) where
  testFixture : Bool
  macOs : Bool
  readToString : String → Except Error String
  fromStr : String → Except Error (StateFixture T)
  start : ℕ
  now : m ℕ
  secs : ℕ → T
  pathMonitor : Except Error (NetworkState m)
  realSignals : Except Error Unit
  fails : Fragile → Bool

/-- `Context::context`. A message is the whole chain, as `{:#}` prints it. -/
def context {α : Type} (text : String) (r : Except Error α) : Except Error α :=
  r.mapError fun err => ⟨s!"{text}: {err.message}"⟩

def stripPrefix (s pre : String) : Option String :=
  (pre.toList.isPrefixOf? s.toList).map String.ofList

section Setup

variable {T : Type} {m : Type → Type}

/-- `FixtureNetworkState::load_from_path`. -/
def loadFromPath (p : Platform T m) (path : String) : Except Error (FixtureNetworkState T) := do
  let contents ← context s!"failed to read state fixture file: {path}" (p.readToString path)
  let fixture ← context s!"failed to parse state fixture JSON at {path}" (p.fromStr contents)
  pure ⟨fixture, p.start⟩

variable [Monad m] [LinearOrder T]

/-- A fixture behind the trait. -/
def Platform.serve (p : Platform T m) (s : FixtureNetworkState T) : NetworkState m where
  isExpensive := do pure (s.isExpensive p.secs (← p.now))
  isLowDataMode := do pure (s.isLowDataMode p.secs (← p.now))

def buildPredicates (cli : Cli) : List (Predicate m) :=
  (if cli.rejectExpensive then [rejectExpensive] else []) ++
    if cli.rejectLowData then [rejectLowData] else []

def predicateSet (cli : Cli) : PredicateSet m :=
  if cli.any then .or (buildPredicates cli) else .and (buildPredicates cli)

def realNetworkState (p : Platform T m) : Except Error (NetworkState m) :=
  if p.macOs then context "failed to start NWPathMonitor" p.pathMonitor
  else throw ⟨"real NetworkState reader is only implemented for macOS"⟩

def buildNetworkState (p : Platform T m) (cli : Cli) : Except Error (NetworkState m) :=
  if p.testFixture then
    match cli.stateSource with
    | some src =>
      match stripPrefix src "file:" with
      | some path => do
        let fixture ← context s!"failed to load fixture state from {path}" (loadFromPath p path)
        pure (p.serve fixture)
      | none => throw ⟨"--state-source must use the `file:<path>` form"⟩
    | none => realNetworkState p
  else realNetworkState p

/-- A supervisor over `TokioSpawner` and `RealSignals`. -/
structure Supervisor (m : Type → Type) where
  predicateSet : PredicateSet m
  state : NetworkState m
  config : SupervisorConfig

/-- What `dispatch` goes on to when all is set up. -/
inductive Job (m : Type → Type)
  | run (supervisor : Supervisor m) (spec : CommandSpec)
  | check (explain : Bool) (set : PredicateSet m) (state : NetworkState m)

def Cli.config (cli : Cli) : SupervisorConfig where
  strict := cli.strict
  killOnChange := !cli.noKillOnChange
  grace := cli.grace
  poll := cli.poll
  debounce := cli.debounce

/-- The warnings that `dispatch` logs first. -/
def warnings (cli : Cli) : List String :=
  if cli.noKillOnChange ∧ 0 < cli.debounce then
    ["--debounce is ignored when --no-kill-on-change is set " ++
      "(debounce only applies while watching for predicate flips)"]
  else []

def dispatch (p : Platform T m) (cli : Cli) : Except Error (Job m) :=
  match cli.command with
  | .run [] => throw ⟨"missing command — pass it after `--`, e.g. `condrun run -- echo hi`"⟩
  | .run (program :: args) => do
    let state ← buildNetworkState p cli
    context "failed to install SIGINT/SIGTERM handlers" p.realSignals
    pure (.run ⟨predicateSet cli, state, cli.config⟩ ⟨program, args⟩)
  | .check explain => do
    let state ← buildNetworkState p cli
    pure (.check explain (predicateSet cli) state)

end Setup

/-! The `check` subcommand. -/

/-- What a check prints, line by line, and its exit code. -/
structure Report where
  stdout : List String
  stderr : List String
  code : ℤ
  deriving DecidableEq, Repr

def PredicateResult.line (name : String) : PredicateResult → String
  | .pass => s!"PASS: {name}"
  | .fail reason => s!"FAIL: {name} — {reason}"

section Check

variable {m : Type → Type} [Monad m]

/-- The loop that prints a line for each predicate. -/
def explainLines (state : NetworkState m) : List (Predicate m) → m (List String)
  | [] => pure []
  | p :: ps => do
    let res ← p.evaluate state
    let lines ← explainLines state ps
    pure (res.line p.name :: lines)

def check (explain : Bool) (set : PredicateSet m) (state : NetworkState m) : m Report := do
  if explain then
    let lines ← explainLines state set.predicates
    match ← set.evaluate state with
    | .pass => pure ⟨lines, [], 0⟩
    | .fail _ => pure ⟨lines, [], 1⟩
  else
    match ← set.evaluate state with
    | .pass => pure ⟨[], [], 0⟩
    | .fail reason => pure ⟨[], [s!"predicate failed: {reason}"], 1⟩

end Check

/-! `main`. -/

/-- The kinds of `clap::error::ErrorKind` that `main` tells apart. -/
inductive ErrorKind
  | displayHelp
  | displayVersion
  | displayHelpOnMissingArgumentOrSubcommand
  | other
  deriving DecidableEq, Repr

def ErrorKind.code : ErrorKind → ℤ
  | .displayHelp
  | .displayVersion
  | .displayHelpOnMissingArgumentOrSubcommand => 0
  | .other => 4

/-- The exit code for what `dispatch` returned. -/
def exitWith : Except Error ℤ → ℤ
  | .ok code => code
  | .error _ => 4

variable {T σ : Type} [LinearOrder T]

/-- The evaluations of a run are evaluations of the supervisor's set, each in some world. -/
def Supervisor.Evaluates (sup : Supervisor (StateM σ)) (tr : List Entry) : Prop :=
  ∀ en ∈ tr, ∀ res, en.event.verdict? = some res →
    ∃ w, (sup.predicateSet.evaluate sup.state w).1 = res

/-- What the supervisor logs between the end of an await and the next one. -/
def logs (cfg : SupervisorConfig) (now : ℕ) : Phase → Event → List Level
  | .preflight, .evaluated (.fail _) => [if cfg.strict then .error else .info]
  | .preflight, .signalled _ => [.info]
  | .watching _, .exited status => if status.success then [] else [.error]
  | .watching _, .signalled _ => [.info]
  | .evaluating failStartedAt, .evaluated .pass => if failStartedAt.isSome then [.debug] else []
  | .evaluating failStartedAt, .evaluated (.fail _) =>
    if now - failStartedAt.getD now ≥ cfg.debounce then [.info] else [.debug]
  | .plain, .exited status => if status.success then [] else [.error]
  | .plain, .signalled _ => [.info]
  | .forwarding _, .signalSent _ (.error _) => [.error]
  | .escalating .racing, .signalled _ => [.info]
  | .escalating .terminating, .terminated _ (.error _) => [.error]
  | _, _ => []

/-- Where an execution may panic, with the steps that the supervisor completed before. -/
inductive Panics (p : Platform T (StateM σ)) : Except ErrorKind Cli → σ → List Entry → Prop
  | start (parsed : Except ErrorKind Cli) (w : σ) (hf : p.fails .runtime) : Panics p parsed w []
  | warns {cli : Cli} (w : σ) (h : warnings cli ≠ []) (hf : p.fails (.log .warn)) :
      Panics p (.ok cli) w []
  -- the path monitor delivered nothing in time
  | opens {cli : Cli} (w : σ) (hc : cli.command ≠ .run [])
      (hs : p.testFixture = false ∨ cli.stateSource = none) (hm : p.macOs = true)
      (hf : p.fails (.log .warn)) : Panics p (.ok cli) w []
  | bails {cli : Cli} {err : Error} (w : σ) (h : dispatch p cli = .error err)
      (hf : p.fails (.log .error)) : Panics p (.ok cli) w []
  | prints {cli : Cli} {explain : Bool} {set : PredicateSet (StateM σ)}
      {state : NetworkState (StateM σ)} (w : σ)
      (h : dispatch p cli = .ok (.check explain set state))
      (hf : (check explain set state w).1.stdout ≠ [] ∧ p.fails .println ∨
        (check explain set state w).1.stderr ≠ [] ∧ p.fails .eprintln) : Panics p (.ok cli) w []
  | logs {cli : Cli} {sup : Supervisor (StateM σ)} {spec : CommandSpec} {tr : List Entry}
      {en : Entry} {s s' : State} {level : Level} (w : σ) (h : dispatch p cli = .ok (.run sup spec))
      (hr : (supervisor sup.config spec).Run tr s) (hst : Step sup.config spec s en s')
      (he : sup.Evaluates (tr ++ [en]))
      (hl : level ∈ logs sup.config en.time s.phase en.event) (hf : p.fails (.log level)) :
      Panics p (.ok cli) w tr
  | waits {cli : Cli} {sup : Supervisor (StateM σ)} {spec : CommandSpec} {tr : List Entry}
      {s : State} (w : σ) (h : dispatch p cli = .ok (.run sup spec))
      (hr : (supervisor sup.config spec).Run tr s) (he : sup.Evaluates tr)
      (hw : .child .wait ∈ (s.phase.awaits sup.config spec).branches) (hf : p.fails .wait) :
      Panics p (.ok cli) w tr
  | reports {cli : Cli} {sup : Supervisor (StateM σ)} {spec : CommandSpec} {tr : List Entry}
      {s : State} {err : Error} (w : σ) (h : dispatch p cli = .ok (.run sup spec))
      (hr : (supervisor sup.config spec).Run tr s) (he : sup.Evaluates tr)
      (hs : s.phase = .returned (.error err)) (hf : p.fails (.log .error)) : Panics p (.ok cli) w tr

/-- The executions of `main`, each with the steps of the supervisor, if one runs, and with the exit
code. A check starts in the world `w`. -/
inductive Exits (p : Platform T (StateM σ)) :
    Except ErrorKind Cli → σ → List Entry → ℤ → Prop
  | unparsed (kind : ErrorKind) (w : σ) : Exits p (.error kind) w [] kind.code
  | bailed {cli : Cli} {err : Error} (w : σ) (h : dispatch p cli = .error err) :
      Exits p (.ok cli) w [] (exitWith (.error err))
  | checked {cli : Cli} {explain : Bool} {set : PredicateSet (StateM σ)}
      {state : NetworkState (StateM σ)} (w : σ)
      (h : dispatch p cli = .ok (.check explain set state)) :
      Exits p (.ok cli) w [] (exitWith (.ok (check explain set state w).1.code))
  | ran {cli : Cli} {sup : Supervisor (StateM σ)} {spec : CommandSpec} {tr : List Entry} {s : State}
      {r : Except Error ℤ} (w : σ) (h : dispatch p cli = .ok (.run sup spec))
      (hr : (supervisor sup.config spec).Run tr s) (he : sup.Evaluates tr)
      (hs : s.phase = .returned r) : Exits p (.ok cli) w tr (exitWith r)
  | panicked {parsed : Except ErrorKind Cli} {w : σ} {tr : List Entry} (h : Panics p parsed w tr) :
      Exits p parsed w tr 101

end Condrun
