import Condrun.Proofs.Dispatch

/-! What the flags decide: on a network that stands still `check` tells what `run` will do, and the
debounces that change no run are those that `dispatch` warns of, and any without a predicate. -/

namespace Condrun

variable {σ : Type} {state : NetworkState (StateM σ)} {cli : Cli} {x : NwPathSnapshot}
  {cfg cfg' : SupervisorConfig} {cmd : CommandSpec} {tr : List Entry} {s : State} {w : σ}

/-- Whether the predicates that the flags ask for pass on `x`. -/
def permits (cli : Cli) (x : NwPathSnapshot) : Bool :=
  if cli.any then cli.rejectExpensive && !x.expensive || cli.rejectLowData && !x.lowData
  else !(cli.rejectExpensive && x.expensive) && !(cli.rejectLowData && x.lowData)

/-- Every read finds `x`. -/
structure Still (state : NetworkState (StateM σ)) (x : NwPathSnapshot) : Prop where
  expensive : ∀ w, (state.isExpensive w).1 = x.expensive
  lowData : ∀ w, (state.isLowDataMode w).1 = x.lowData

theorem rejectFlag_isPass (name : String) (flag : NetworkState (StateM σ) → StateM σ Bool)
    (reason : String) (w : σ) :
    ((rejectFlag name flag reason).evaluate state w).1.isPass = !(flag state w).1 := by
  simp only [rejectFlag, bind, StateT.bind]
  rcases flag state w with ⟨_ | _, w'⟩ <;> rfl

theorem rejectFlag_world (name : String) (flag : NetworkState (StateM σ) → StateM σ Bool)
    (reason : String) (w : σ) :
    ((rejectFlag name flag reason).evaluate state w).2 = (flag state w).2 := by
  simp only [rejectFlag, bind, StateT.bind]
  rcases flag state w with ⟨_ | _, w'⟩ <;> rfl

theorem Still.expensive_isPass (hx : Still state x) (w : σ) :
    (rejectExpensive.evaluate state w).1.isPass = !x.expensive :=
  (rejectFlag_isPass _ _ _ w).trans (congrArg _ (hx.expensive w))

theorem Still.lowData_isPass (hx : Still state x) (w : σ) :
    (rejectLowData.evaluate state w).1.isPass = !x.lowData :=
  (rejectFlag_isPass _ _ _ w).trans (congrArg _ (hx.lowData w))

theorem mem_buildPredicates {q : Predicate (StateM σ)} (hq : q ∈ buildPredicates cli) :
    q = rejectExpensive ∨ q = rejectLowData := by
  unfold buildPredicates at hq
  rcases List.mem_append.1 hq with hq | hq <;> split_ifs at hq <;> simp_all

theorem predicateSet_predicates :
    (predicateSet cli : PredicateSet (StateM σ)).predicates = buildPredicates cli := by
  unfold predicateSet
  split_ifs <;> rfl

theorem Still.orderFree (hx : Still state x) (w : σ) :
    OrderFree state (predicateSet cli).predicates w fun q => (q.evaluate state w).1.isPass := by
  intro qs _ q hq
  rw [predicateSet_predicates] at hq
  rcases mem_buildPredicates hq with rfl | rfl
  · exact (hx.expensive_isPass _).trans (hx.expensive_isPass w).symm
  · exact (hx.lowData_isPass _).trans (hx.lowData_isPass w).symm

/-- What a set of the flags' predicates makes of the flags of the network. -/
theorem admits_flags (he : (state.isExpensive w).1 = x.expensive)
    (hl : (state.isLowDataMode w).1 = x.lowData) :
    (predicateSet cli : PredicateSet (StateM σ)).composition.admits
      ((predicateSet cli).predicates.map fun q => (q.evaluate state w).1.isPass) =
    permits cli x := by
  have he : (rejectExpensive.evaluate state w).1.isPass = !x.expensive :=
    (rejectFlag_isPass _ _ _ w).trans (congrArg _ he)
  have hl : (rejectLowData.evaluate state w).1.isPass = !x.lowData :=
    (rejectFlag_isPass _ _ _ w).trans (congrArg _ hl)
  unfold predicateSet permits buildPredicates
  cases cli.any <;> cases cli.rejectExpensive <;> cases cli.rejectLowData <;>
    simp [PredicateSet.and, PredicateSet.or, PredicateSet.new, Composition.admits, he, hl]

theorem Still.admits (hx : Still state x) (w : σ) :
    (predicateSet cli : PredicateSet (StateM σ)).composition.admits
      ((predicateSet cli).predicates.map fun q => (q.evaluate state w).1.isPass) =
    permits cli x := admits_flags (hx.expensive w) (hx.lowData w)

theorem Still.evaluate (hx : Still state x) (w : σ) :
    ((predicateSet cli).evaluate state w).1.isPass = permits cli x := by
  rw [(hx.orderFree w).evaluate, hx.admits]

/-- The watcher loop kills on a failed evaluation only. -/
theorem run_killing (hr : (supervisor cfg cmd).Run tr s) :
    ∀ en ∈ tr, en.next = .killing → ∃ reason, en.event = .evaluated (.fail reason) := by
  induction hr with
  | nil => simp
  | @snoc tr s s' en _ hst ih =>
    intro a ha hk
    rcases List.mem_append.1 ha with ha | ha
    · exact ih a ha hk
    · obtain rfl := List.mem_singleton.1 ha
      have hm := hst.move
      rw [hk] at hm
      generalize s.phase = q, a.event = ev at hm
      cases hm with
      | evalKill fs reason => exact ⟨reason, rfl⟩

/-- Without a kill of the watcher's, `terminate` takes two signals. -/
theorem terminateCalled_of_signals (hr : (supervisor cfg cmd).Run tr s) (hk : watcherKills tr = 0)
    (hc : TerminateCalled cfg cmd tr) : ∃ k k', dequeued tr = [k, k'] := by
  have ha := run_account hr
  obtain ⟨grace, hc⟩ := hc
  generalize hL : ledger cfg cmd tr = L at ha
  obtain ⟨-, -, hdeq, hcalls, hkills, -⟩ := shows_of_ledger hL
  rw [hcalls] at hc
  rw [hkills] at hk
  rw [hdeq]
  generalize s.phase = q at ha
  cases ha with
  | returned he =>
    cases he with
    | escalated k k' => exact ⟨k, k', rfl⟩
    | killed | killFailed => cases hk
    | _ => simp at hc
  | killing | draining => cases hk
  | terminating k k' | escDraining k k' => exact ⟨k, k', rfl⟩
  | _ => simp at hc

/-- A run whose gate did not pass has called nothing, and returns 0 or the code of a skip. -/
theorem run_of_not_passed (hr : (supervisor cfg cmd).Run tr s)
    (hg : preflightOutcome tr ≠ passed) : calls cfg cmd tr = [] ∧
    ∀ r, s.phase = .returned r → (∃ k, dequeued tr = [k] ∧ r = .ok 0) ∨
      (dequeued tr = [] ∧ r = .ok (if cfg.strict then 1 else 0)) := by
  have ha := run_account hr
  generalize hL : ledger cfg cmd tr = L at ha
  obtain ⟨hgate, -, hdeq, hcalls, -⟩ := shows_of_ledger hL
  rw [hgate] at hg
  rw [hcalls, hdeq]
  generalize s.phase = q at ha
  cases ha with
  | preflight => exact ⟨rfl, by simp⟩
  | returned he =>
    cases he with
    | signalled k => exact ⟨rfl, fun r hr => Or.inl ⟨k, rfl, (Phase.returned.inj hr).symm⟩⟩
    | skipped reason => exact ⟨rfl, fun r hr => Or.inr ⟨rfl, (Phase.returned.inj hr).symm⟩⟩
    | _ => exact absurd rfl hg
  | _ => exact absurd rfl hg

/-- While the network stands still, a check finds what a run does: where the predicates pass, the
run passes its gate and is never killed by its watcher, and only a second signal terminates it;
where they fail, nothing is ever spawned. -/
theorem network_decides (hx : Still state x) :
    (∀ explain w, (check explain (predicateSet cli) state w).1.code =
      if permits cli x then 0 else 1) ∧
    ∀ cmd tr s, (supervisor cli.config cmd).Run tr s →
      Supervisor.Evaluates ⟨predicateSet cli, state, cli.config⟩ tr →
      (permits cli x = true → ¬ GateFailed tr ∧ watcherKills tr = 0 ∧
        (TerminateCalled cli.config cmd tr → ∃ k k', dequeued tr = [k, k'])) ∧
      (permits cli x = false → calls cli.config cmd tr = [] ∧
        ∀ r, s.phase = .returned r → (∃ k, dequeued tr = [k] ∧ r = .ok 0) ∨
          (dequeued tr = [] ∧ r = .ok (if cli.strict then 1 else 0))) := by
  refine ⟨fun explain w => ?_, fun cmd tr s hr he => ?_⟩
  · rw [(hx.orderFree w).check_code, hx.admits]
  · have hverdict : ∀ en ∈ tr, ∀ res, en.event = .evaluated res → res.isPass = permits cli x := by
      intro en hen res hev
      obtain ⟨w, hw⟩ := he en hen res (by rw [hev]; rfl)
      rw [← hw]
      exact hx.evaluate w
    have hgate : ∀ res, preflightOutcome tr = some (.evaluated res) →
        res.isPass = permits cli x := by
      intro res hg
      obtain ⟨en, hen, hev⟩ := Option.map_eq_some_iff.mp hg
      exact hverdict en (List.mem_of_head? hen) res hev
    refine ⟨fun hp => ?_, fun hp => ?_⟩
    · have hk : watcherKills tr = 0 := by
        rw [watcherKills, List.countP_eq_zero]
        intro en hen hnext
        obtain ⟨reason, hev⟩ := run_killing hr en hen (by simpa using hnext)
        have hfail := hverdict en hen _ hev
        rw [hp] at hfail
        cases hfail
      refine ⟨?_, hk, terminateCalled_of_signals hr hk⟩
      rintro ⟨reason, hg⟩
      have hfail := hgate _ hg
      rw [hp] at hfail
      cases hfail
    · refine run_of_not_passed hr fun hg => ?_
      have hpass := hgate _ hg
      rw [hp] at hpass
      cases hpass

/-- On an expensive network a check returns 1, and a strict run ends without a call. -/
theorem network_decides_strict :
    (check true (predicateSet strictRun) (⟨fun w => (true, w), fun w => (false, w)⟩ :
      NetworkState (StateM Unit)) ()).1.code = 1 ∧
    calls strictRun.config ⟨"echo", ["no"]⟩ [⟨5, .evaluated
      (.fail "current connection is expensive (Personal Hotspot or cellular)"),
      .returned (.ok 1)⟩] = [] := by
  have hx : Still (⟨fun w => (true, w), fun w => (false, w)⟩ : NetworkState (StateM Unit))
      ⟨true, false⟩ := ⟨fun _ => rfl, fun _ => rfl⟩
  have hr : (supervisor strictRun.config ⟨"echo", ["no"]⟩).Run [⟨5, .evaluated
      (.fail "current connection is expensive (Personal Hotspot or cellular)"),
      .returned (.ok 1)⟩] ⟨.returned (.ok 1), 5⟩ :=
    replay_run [(5, .evaluated
      (.fail "current connection is expensive (Personal Hotspot or cellular)"))] rfl
  refine ⟨((network_decides hx).1 true ()).trans (by decide), ?_⟩
  refine (((network_decides hx).2 _ _ _ hr ?_).2 (by decide)).1
  intro en hen res hres
  obtain rfl := List.mem_singleton.1 hen
  obtain rfl := Option.some.inj hres
  exact ⟨(), rfl⟩

/-! The debounce without the watcher. -/

/-- Without the watcher a run depends on the strictness and the grace alone. -/
theorem run_unwatched (h : cfg.killOnChange = false) (h' : cfg'.killOnChange = false)
    (hs : cfg'.strict = cfg.strict) (hg : cfg'.grace = cfg.grace)
    (hr : (supervisor cfg cmd).Run tr s) : (supervisor cfg' cmd).Run tr s := by
  induction hr with
  | nil hi => exact .nil hi
  | @snoc tr s s' en hr hst ih =>
    refine ih.snoc ?_
    have ha := run_account hr
    obtain ⟨hle, hm, htarget⟩ := step_iff_move.mp hst
    refine step_iff_move.mpr ⟨hle, ?_, htarget⟩
    generalize s.phase = q, en.event = ev, en.next = q', ledger cfg cmd tr = L at ha hm
    -- the phases of the watcher are those that `killOnChange` rules out
    have hoff : ∀ {P : Prop}, cfg.killOnChange = true → P := fun hk => by rw [h] at hk; cases hk
    cases hm with
    | gateFail reason => exact hs ▸ .gateFail reason
    | spawnWatch hk => exact hoff hk
    | spawnPlain hk => exact .spawnPlain h'
    | watchTick | evalPass | evalWait | evalKill | killOk | killFail =>
      cases ha
      exact hoff ‹_›
    | escTerminated res => exact hg ▸ .escTerminated res
    | gatePass => exact .gatePass
    | gateSignal sig => exact .gateSignal sig
    | spawnFail err => exact .spawnFail err
    | watchExit fs st => exact .watchExit fs st
    | watchSignal fs sig => exact .watchSignal fs sig
    | drained st => exact .drained st
    | plainExit st => exact .plainExit st
    | plainSignal sig => exact .plainSignal sig
    | forwarded sig res => exact .forwarded sig res
    | escExit st => exact .escExit st
    | escSignal sig => exact .escSignal sig
    | escDrained st => exact .escDrained st

/-- The debounce is looked at after a failed evaluation of the watcher's only. -/
theorem resume_debounce (d : ℕ) {t : ℕ} {q : Phase} {ev : Event}
    (hn : ∀ fs reason, q = .evaluating fs → ev ≠ .evaluated (.fail reason)) :
    resume { cfg with debounce := d } t q ev = resume cfg t q ev := by
  unfold resume
  split
  -- the failed evaluation
  case h_10 fs reason => exact absurd rfl (hn fs reason rfl)
  all_goals rfl

theorem awaits_debounce (d : ℕ) (q : Phase) :
    q.awaits { cfg with debounce := d } cmd = q.awaits cfg cmd := by
  cases q <;> rfl

theorem Step.debounce (d : ℕ) {en : Entry} {s' : State} (h : Step cfg cmd s en s')
    (hn : ∀ fs reason, s.phase = .evaluating fs → en.event ≠ .evaluated (.fail reason)) :
    Step { cfg with debounce := d } cmd s en s' := by
  refine ⟨h.mono, ?_, ?_, h.target⟩
  · rw [awaits_debounce]
    exact h.awaited
  · rw [resume_debounce d hn]
    exact h.resumes

theorem passed_of_evaluating (hr : (supervisor cfg cmd).Run tr s) {fs : Option ℕ}
    (hp : s.phase = .evaluating fs) : preflightOutcome tr = passed := by
  have ha := run_account hr
  generalize hL : ledger cfg cmd tr = L at ha
  obtain ⟨hgate, -⟩ := shows_of_ledger hL
  rw [hgate]
  rw [hp] at ha
  cases ha with
  | evaluating => rfl

/-- Where every evaluation comes out as the gate's did, the watcher sees no failure. -/
theorem run_debounce (d : ℕ) {r : PredicateResult} (hr : (supervisor cfg cmd).Run tr s)
    (hv : ∀ en ∈ tr, ∀ res, en.event.verdict? = some res → res = r) :
    (supervisor { cfg with debounce := d } cmd).Run tr s := by
  induction hr with
  | nil hi => exact .nil hi
  | @snoc tr s s' en hr hst ih =>
    refine (ih fun a ha => hv a (List.mem_append_left _ ha)).snoc (hst.debounce d ?_)
    intro fs reason hp he
    obtain ⟨a, ha, hev⟩ := Option.map_eq_some_iff.mp (passed_of_evaluating hr hp)
    have hpass : .pass = r := hv a (List.mem_append_left _ (List.mem_of_head? ha)) .pass (by
      rw [hev]
      rfl)
    have hfail : .fail reason = r := hv en (by simp) (.fail reason) (by
      rw [he]
      rfl)
    cases hpass.trans hfail.symm

/-- Without a predicate flag every evaluation comes out the same. -/
theorem evaluate_unflagged (he : cli.rejectExpensive = false) (hl : cli.rejectLowData = false)
    (w : σ) : ((predicateSet cli).evaluate state w).1 =
      if cli.any then .fail "no predicates" else .pass := by
  have hb : (buildPredicates cli : List (Predicate (StateM σ))) = [] := by
    simp [buildPredicates, he, hl]
  unfold predicateSet
  rw [hb]
  cases cli.any <;> rfl

theorem held_isPass (cli : Cli) (x : NwPathSnapshot) :
    ((predicateSet cli).evaluate .held x).1.isPass = permits cli x := by
  have hreads : OnlyReads .held (predicateSet cli).predicates := by
    intro q hq
    rw [predicateSet_predicates] at hq
    rcases mem_buildPredicates hq with rfl | rfl
    · exact onlyReads_held _ (by simp)
    · exact onlyReads_held _ (by simp)
  rw [(orderFree_of_reads hreads x).evaluate]
  exact admits_flags rfl rfl

/-- A predicate flag permits one network and refuses another. -/
theorem flag_refuses (hf : cli.rejectExpensive = true ∨ cli.rejectLowData = true) :
    ((predicateSet cli).evaluate .held (⟨false, false⟩ : NwPathSnapshot)).1 = .pass ∧
    ∃ reason, ((predicateSet cli).evaluate .held (⟨true, true⟩ : NwPathSnapshot)).1 =
      .fail reason := by
  have hup := held_isPass cli ⟨false, false⟩
  have hdown := held_isPass cli ⟨true, true⟩
  rw [show permits cli ⟨false, false⟩ = true by unfold permits; split_ifs <;> simp [hf]] at hup
  rw [show permits cli ⟨true, true⟩ = false by
    unfold permits
    split_ifs <;> rcases hf with hf | hf <;> simp [hf]] at hdown
  refine ⟨PredicateResult.isPass_iff.mp hup, ?_⟩
  cases hres : ((predicateSet cli).evaluate .held (⟨true, true⟩ : NwPathSnapshot)).1 with
  | pass =>
    rw [hres] at hdown
    cases hdown
  | fail reason => exact ⟨reason, rfl⟩

/-- A watcher with a debounce looks at a failure and goes on. -/
theorem run_tolerates (cmd : CommandSpec) (reason : String) (hk : cfg.killOnChange = true)
    (hd : 0 < cfg.debounce) :
    ∃ tr en s, (supervisor cfg cmd).Run (tr ++ [en]) s ∧
      en.event = .evaluated (.fail reason) ∧ (∃ fs, en.next = .watching fs) ∧
      ∀ a ∈ tr ++ [en], ∀ res, a.event.verdict? = some res → res = .pass ∨ res = .fail reason := by
  have h0 : (supervisor cfg cmd).Run [] ⟨.preflight, 0⟩ := .nil rfl
  have h1 := h0.snoc (Move.gatePass.step (Nat.le_refl 0))
  have h2 := h1.snoc ((Move.spawnWatch hk).step (Nat.le_refl 0))
  have h3 := h2.snoc ((Move.watchTick none).step (Nat.le_refl 0))
  refine ⟨_, _, _, h3.snoc ((Move.evalWait none reason hd).step (Nat.le_refl 0)), rfl, ⟨_, rfl⟩, ?_⟩
  simp [Event.verdict?]

theorem not_tolerates (hd : cfg.debounce = 0) {en : Entry}
    (hr : (supervisor cfg cmd).Run (tr ++ [en]) s) {reason : String}
    (he : en.event = .evaluated (.fail reason)) {fs : Option ℕ} : en.next ≠ .watching fs := by
  obtain ⟨a, -, hst⟩ := Lts.run_snoc_iff.mp hr
  intro hn
  have hm := Step.move hst
  rw [he, hn] at hm
  generalize a.phase = q at hm
  cases hm with
  | evalWait _ _ hlt => omega

/-- The runs of the supervisor that `dispatch` sets up, over this network. -/
def RunsOver (state : NetworkState (StateM σ)) (cli : Cli) (cmd : CommandSpec) (tr : List Entry)
    (s : State) : Prop :=
  (supervisor cli.config cmd).Run tr s ∧
    Supervisor.Evaluates ⟨predicateSet cli, state, cli.config⟩ tr

/-- Whatever the network does, the runs are the same without the debounce. -/
def DebounceIdle (cli : Cli) (cmd : CommandSpec) : Prop :=
  ∀ (σ : Type) (state : NetworkState (StateM σ)) (tr : List Entry) (s : State),
    RunsOver state cli cmd tr s ↔ RunsOver state { cli with debounce := 0 } cmd tr s

/-- A debounce changes no run when there is none, when `dispatch` warns of it, and when there is no
predicate that could fail. -/
theorem debounce_idle_iff (cli : Cli) (cmd : CommandSpec) : DebounceIdle cli cmd ↔
    cli.debounce = 0 ∨ warnings cli ≠ [] ∨
      (cli.rejectExpensive = false ∧ cli.rejectLowData = false) := by
  have hw : warnings cli ≠ [] ↔ cli.noKillOnChange = true ∧ 0 < cli.debounce := by
    unfold warnings
    split_ifs with h <;> simp [h]
  rw [hw]
  refine ⟨fun hidle => ?_, ?_⟩
  · by_contra hn
    simp only [not_or, not_and_or, Bool.not_eq_true, Bool.not_eq_false] at hn
    obtain ⟨hd, hk, hf⟩ := hn
    have hpos : 0 < cli.debounce := Nat.pos_of_ne_zero hd
    have hon : cli.config.killOnChange = true := by
      simpa [Cli.config] using hk.resolve_right (fun h => h hpos)
    obtain ⟨hpass, reason, hfail⟩ := flag_refuses hf
    obtain ⟨tr, en, s, hr, he, ⟨fs, hnext⟩, hv⟩ := run_tolerates cmd reason hon hpos
    have hruns : RunsOver .held cli cmd (tr ++ [en]) s := by
      refine ⟨hr, fun a ha res hres => ?_⟩
      rcases hv a ha res hres with rfl | rfl
      · exact ⟨_, hpass⟩
      · exact ⟨_, hfail⟩
    exact not_tolerates rfl ((hidle _ _ _ _).mp hruns).1 he hnext
  · rintro (hd | ⟨hn, -⟩ | ⟨he, hl⟩) σ state tr s
    · rw [show { cli with debounce := 0 } = cli by rw [← hd]]
    · have hoff : cli.config.killOnChange = false := by simp [Cli.config, hn]
      exact and_congr_left fun _ =>
        ⟨run_unwatched hoff hoff rfl rfl, run_unwatched hoff hoff rfl rfl⟩
    · refine and_congr_left fun hev => ?_
      have hv : ∀ en ∈ tr, ∀ res, en.event.verdict? = some res →
          res = if cli.any then .fail "no predicates" else .pass := by
        intro en hen res hres
        obtain ⟨w, hw⟩ := hev en hen res hres
        exact hw.symm.trans (evaluate_unflagged he hl w)
      exact ⟨fun hr => run_debounce 0 hr hv, fun hr => run_debounce cli.debounce hr hv⟩

end Condrun
