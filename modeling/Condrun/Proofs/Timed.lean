import Condrun.Proofs.Moves
import Condrun.Spec.Timed

/-! The steps of the timed runs, as moves of the supervisor. -/

namespace Condrun

variable {cfg : SupervisorConfig} {cmd : CommandSpec} {env : Env} {s s' : Timed} {f : Fut} {t : ℕ}
  {ev : Event}

theorem completes_fut (h : env.completes s f = some (t, ev)) : ev.fut = f ∧ s.now ≤ t := by
  cases f with
  | evaluate =>
    obtain ⟨rfl, rfl⟩ := Prod.mk.inj (Option.some.inj h)
    exact ⟨rfl, le_rfl⟩
  | sleep d =>
    obtain ⟨rfl, rfl⟩ := Prod.mk.inj (Option.some.inj h)
    exact ⟨rfl, Nat.le_add_right _ _⟩
  | spawn => cases h
  | next =>
    obtain ⟨a, -, ha⟩ := Option.map_eq_some_iff.mp h
    obtain ⟨rfl, rfl⟩ := Prod.mk.inj ha
    exact ⟨rfl, Nat.le_max_left _ _⟩
  | child op =>
    cases op <;> obtain ⟨a, -, ha⟩ := Option.map_eq_some_iff.mp h <;>
      obtain ⟨rfl, rfl⟩ := Prod.mk.inj ha <;> exact ⟨rfl, Nat.le_max_left _ _⟩

theorem readyAt_of_completes (h : env.completes s f = some (t, ev)) : env.readyAt s f = some t := by
  rw [Env.readyAt, h]
  rfl

variable {t₀ d u : ℕ} {en : Entry} {fs : Option ℕ} {p : Phase} {status : ExitStatus}

theorem Timed.step_iff : s.Step cfg cmd env en s' ↔
    (s.phase.awaits cfg cmd).FiresAt (env.readyAt s) en.event.fut en.time ∧
    env.completes s en.event.fut = some (en.time, en.event) ∧
    Move cfg cmd en.time s.phase en.event en.next ∧
    s' = s.after cfg cmd en.time en.event en.next := by
  refine ⟨?_, ?_⟩
  · rintro ⟨hf, hc, hr, hs⟩
    exact ⟨hf, hc, move_of_resume hf.mem hr, hs⟩
  · rintro ⟨hf, hc, hm, hs⟩
    exact ⟨hf, hc, hm.resumes, hs⟩

theorem timed_step_iff : (timed cfg cmd env t₀).step s en s' ↔
    (s.phase.awaits cfg cmd).FiresAt (env.readyAt s) en.event.fut en.time ∧
    env.completes s en.event.fut = some (en.time, en.event) ∧
    Move cfg cmd en.time s.phase en.event en.next ∧
    s' = s.after cfg cmd en.time en.event en.next := Timed.step_iff

/-- A timed step is a move whose future wins its `select!`. -/
theorem timedStep_iff : TimedStep cfg cmd env s s' ↔ ∃ t ev p,
    (s.phase.awaits cfg cmd).FiresAt (env.readyAt s) ev.fut t ∧
    env.completes s ev.fut = some (t, ev) ∧ Move cfg cmd t s.phase ev p ∧
    s' = s.after cfg cmd t ev p := by
  refine ⟨?_, ?_⟩
  · rintro ⟨⟨t, ev, p⟩, h⟩
    exact ⟨t, ev, p, Timed.step_iff.mp h⟩
  · rintro ⟨t, ev, p, h⟩
    exact ⟨⟨t, ev, p⟩, Timed.step_iff.mpr h⟩

theorem after_quiet (hs : ev.sig? = none) (ho : ev.op? = none) (hc : p.called cfg cmd = []) :
    s.after cfg cmd t ev p = ⟨p, t, s.taken, s.acts⟩ := by
  simp [Timed.after, hs, ho, hc]

/-- An await of one future has one outcome. -/
theorem fires_single (h : env.completes s f = some (t, ev)) {g : Fut} {u : ℕ} :
    (Select.mk false [f]).FiresAt (env.readyAt s) g u ↔ g = f ∧ u = t := by
  have hready := readyAt_of_completes h
  rw [Select.firesAt_unbiased, List.mem_singleton]
  refine ⟨?_, ?_⟩
  · rintro ⟨rfl, hu, -⟩
    exact ⟨rfl, (Option.some.inj (hready.symm.trans hu)).symm⟩
  · rintro ⟨rfl, rfl⟩
    refine ⟨rfl, hready, fun x hx v hv => ?_⟩
    rw [List.mem_singleton.1 hx, hready] at hv
    exact (Option.some.inj hv).le

theorem terminateTimes_append (acts acts' : Acts) :
    terminateTimes (acts ++ acts') = terminateTimes acts ++ terminateTimes acts' :=
  List.filterMap_append

theorem terminateTimes_done (t : ℕ) (ev : Event) (ops : List ChildOp) :
    terminateTimes (ops.map fun _ => (t, .done ev)) = [] := by
  simp [terminateTimes]

/-- A step adds the calls of `terminate` that it makes on its way into the next phase. -/
theorem terminateTimes_after (s : Timed) (t : ℕ) (ev : Event) (p : Phase) :
    terminateTimes (s.after cfg cmd t ev p).acts = terminateTimes s.acts ++
      terminateTimes ((p.called cfg cmd).map fun op => (t, .call op)) := by
  simp only [Timed.after]
  rw [terminateTimes_append, terminateTimes_append, terminateTimes_done, List.append_nil]

/-- When one future alone can win, the step is determined. -/
theorem step_of_fires
    (hf : ∀ g u, (s.phase.awaits cfg cmd).FiresAt (env.readyAt s) g u ↔ g = f ∧ u = t)
    (hc : env.completes s f = some (t, ev)) (hr : resume cfg t s.phase ev = some p) :
    (timed cfg cmd env t₀).step s en s' ↔
      en = ⟨t, ev, p⟩ ∧ s' = s.after cfg cmd t ev p := by
  obtain ⟨rfl, -⟩ := completes_fut hc
  refine ⟨?_, ?_⟩
  · obtain ⟨t', ev', p'⟩ := en
    rintro ⟨hf', hc', hr', rfl⟩
    obtain ⟨hfut, rfl⟩ := (hf _ _).mp hf'
    rw [hfut, hc] at hc'
    obtain ⟨-, rfl⟩ := Prod.mk.inj (Option.some.inj hc')
    obtain rfl := Option.some.inj (hr.symm.trans hr')
    exact ⟨rfl, rfl⟩
  · rintro ⟨rfl, rfl⟩
    exact ⟨(hf _ _).mpr ⟨rfl, rfl⟩, hc, hr, rfl⟩

theorem returned_stuck {r : Except Error ℤ} (hp : s.phase = .returned r) :
    ¬ (timed cfg cmd env t₀).step s en s' := by
  intro hst
  obtain ⟨-, -, hm, -⟩ := timed_step_iff.mp hst
  rw [hp] at hm
  cases hm

theorem single_step (ha : s.phase.awaits cfg cmd = ⟨false, [f]⟩)
    (hc : env.completes s f = some (t, ev)) (hr : resume cfg t s.phase ev = some p) :
    (timed cfg cmd env t₀).step s en s' ↔
      en = ⟨t, ev, p⟩ ∧ s' = s.after cfg cmd t ev p :=
  step_of_fires (by rw [ha]; exact fun g u => fires_single hc) hc hr

/-! The watcher loop when no signal comes: a wait that resolves within the window or at its end wins
against the tick, since its branch is polled first. -/

theorem next_never (h : env.arrivals s.taken = none) : env.readyAt s .next = none := by
  rw [Env.readyAt, Env.completes, h]
  rfl

theorem readyAt_sleep (d : ℕ) : env.readyAt s (.sleep d) = some (s.now + d) := rfl

theorem watch_fires_exit (hn : env.arrivals s.taken = none)
    (hw : env.readyAt s (.child .wait) = some u) (hle : u ≤ s.now + d) :
    (Select.mk true [.child .wait, .next, .sleep d]).FiresAt (env.readyAt s) f t ↔
      f = .child .wait ∧ t = u := by
  refine Select.firesAt_biased [] [.next, .sleep d] hw (by simp) ?_
  intro x hx v hv
  simp only [List.mem_cons, List.not_mem_nil, or_false] at hx
  rcases hx with rfl | rfl
  · rw [next_never hn] at hv
    cases hv
  · rw [readyAt_sleep] at hv
    exact hle.trans (Option.some.inj hv).le

theorem tick_step_of_later (hp : s.phase = .watching fs)
    (hlater : ∀ f, f = .child .wait ∨ f = .next → ∀ u, env.readyAt s f = some u →
      s.now + cfg.poll < u) :
    (timed cfg cmd env t₀).step s en s' ↔
      en = ⟨s.now + cfg.poll, .elapsed cfg.poll, .evaluating fs⟩ ∧
      s' = ⟨.evaluating fs, s.now + cfg.poll, s.taken, s.acts⟩ := by
  rw [step_of_fires (f := .sleep cfg.poll) ?_ rfl (by rw [hp]; rfl), after_quiet rfl rfl rfl]
  rw [hp]
  refine fun g u => Select.firesAt_biased [Fut.child .wait, .next] [] (readyAt_sleep _) ?_ (by simp)
  intro x hx v hv
  simp only [List.mem_cons, List.not_mem_nil, or_false] at hx
  exact hlater x hx v hv

theorem tick_step (hn : env.arrivals s.taken = none) (hp : s.phase = .watching fs)
    (hw : ∀ u, env.readyAt s (.child .wait) = some u → s.now + cfg.poll < u) :
    (timed cfg cmd env t₀).step s en s' ↔
      en = ⟨s.now + cfg.poll, .elapsed cfg.poll, .evaluating fs⟩ ∧
      s' = ⟨.evaluating fs, s.now + cfg.poll, s.taken, s.acts⟩ := by
  apply tick_step_of_later hp
  rintro f (rfl | rfl) u hu
  · exact hw u hu
  · rw [next_never hn] at hu
    cases hu

theorem exit_step (hn : env.arrivals s.taken = none) (hp : s.phase = .watching fs)
    (hc : env.completes s (.child .wait) = some (u, .exited status))
    (hle : u ≤ s.now + cfg.poll) :
    (timed cfg cmd env t₀).step s en s' ↔
      en = ⟨u, .exited status, .returned (.ok (exitCode status))⟩ ∧
      s' = s.after cfg cmd u (.exited status) (.returned (.ok (exitCode status))) := by
  apply step_of_fires ?_ hc (by rw [hp]; rfl)
  rw [hp]
  exact fun g v => watch_fires_exit hn (readyAt_of_completes hc) hle

/-- Where the loop goes on with a verdict at `now`. -/
def evalNext (cfg : SupervisorConfig) (now : ℕ) (fs : Option ℕ) : PredicateResult → Phase
  | .pass => .watching none
  | .fail _ =>
    if cfg.debounce ≤ now - fs.getD now then .killing else .watching (some (fs.getD now))

theorem eval_step (hp : s.phase = .evaluating fs) :
    (timed cfg cmd env t₀).step s en s' ↔
      en = ⟨s.now, .evaluated (env.verdict s.now), evalNext cfg s.now fs (env.verdict s.now)⟩ ∧
      s' = s.after cfg cmd s.now (.evaluated (env.verdict s.now))
        (evalNext cfg s.now fs (env.verdict s.now)) := by
  apply single_step (f := .evaluate)
  · rw [hp]
    rfl
  · rfl
  · rw [hp]
    cases env.verdict s.now with
    | pass => rfl
    | fail reason =>
      simp only [resume, evalNext, ge_iff_le]
      split_ifs <;> rfl

end Condrun
