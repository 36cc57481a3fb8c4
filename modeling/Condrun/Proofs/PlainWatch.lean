import Condrun.Proofs.Timed

/-! The watching path against the plain path: a simulation each way. -/

namespace Condrun

variable {cfg plain : SupervisorConfig} {cmd : CommandSpec} {env : Env} {t₀ t : ℕ}
  {w w' q q' : Timed} {p p' : Phase} {ev : Event} {acts acts' : Acts} {r r' : Except Error ℤ}

/-- It makes no difference when a wait was called. -/
def DropSafe (env : Env) : Prop := ∀ acts c c', env.wait acts c = env.wait acts c'

/-- The watcher loop never comes to terminate the child. -/
def NeverKills (cfg : SupervisorConfig) (cmd : CommandSpec) (env : Env) (t₀ : ℕ) : Prop :=
  ∀ s, Reaches cfg cmd env t₀ s → s.phase ≠ .killing

/-- The exit of the child and a signal never become ready at the same instant. -/
def NoTie (cfg : SupervisorConfig) (cmd : CommandSpec) (env : Env) (t₀ : ℕ) : Prop :=
  ∀ s, Reaches cfg cmd env t₀ s → ∀ t, .child .wait ∈ (s.phase.awaits cfg cmd).branches →
    .next ∈ (s.phase.awaits cfg cmd).branches →
    env.readyAt s (.child .wait) = some t → env.readyAt s .next ≠ some t

/-- What both paths race: the exit of the child and the next signal. -/
def Fut.Raced (f : Fut) : Prop := f = .child .wait ∨ f = .next

theorem mem_plain_iff {f : Fut} : f ∈ (Phase.plain.awaits plain cmd).branches ↔ f.Raced := by
  simp [Fut.Raced, Phase.awaits]

theorem mem_watching {f : Fut} {fs : Option ℕ} (hf : f.Raced) :
    f ∈ ((Phase.watching fs).awaits cfg cmd).branches := by
  rcases hf with rfl | rfl <;> simp [Phase.awaits]

/-! The phases that both paths go through do the same in both. -/

def Shared : Phase → Prop
  | .forwarding _ | .escalating _ | .returned _ => True
  | _ => False

theorem shared_awaits (hg : cfg.grace = plain.grace) (hs : Shared p) :
    p.awaits cfg cmd = p.awaits plain cmd := by
  cases p with
  | forwarding | returned => rfl
  | escalating e => simp only [Phase.awaits, hg]
  | _ => exact hs.elim

theorem shared_after (hg : cfg.grace = plain.grace) (hs : Shared p) :
    w.after cfg cmd t ev p = w.after plain cmd t ev p := by
  unfold Timed.after Phase.called
  rw [shared_awaits hg hs]

theorem shared_move (hg : cfg.grace = plain.grace) (hs : Shared p) (hm : Move cfg cmd t p ev p') :
    Move plain cmd t p ev p' ∧ Shared p' := by
  cases hm with
  | forwarded sig res => exact ⟨.forwarded sig res, trivial⟩
  | escExit st => exact ⟨.escExit st, trivial⟩
  | escSignal sig => exact ⟨.escSignal sig, trivial⟩
  | escTerminated res => exact ⟨hg ▸ .escTerminated res, trivial⟩
  | escDrained st => exact ⟨.escDrained st, trivial⟩
  | _ => exact hs.elim

theorem shared_step (hg : cfg.grace = plain.grace) (hs : Shared w.phase)
    (hst : TimedStep cfg cmd env w w') : TimedStep plain cmd env w w' ∧ Shared w'.phase := by
  obtain ⟨t, ev, p, hf, hc, hm, rfl⟩ := timedStep_iff.mp hst
  obtain ⟨hm', hs'⟩ := shared_move hg hs hm
  rw [shared_awaits hg hs] at hf
  exact ⟨timedStep_iff.mpr ⟨t, ev, p, hf, hc, hm', shared_after hg hs'⟩, hs'⟩

/-! While the watcher loop runs, its `select!` has the exit and the signal of the plain one. -/

/-- The state of the plain path before anything happened. -/
def atRest (t₀ : ℕ) : Timed := ⟨.plain, t₀, 0, []⟩

structure SameView (env : Env) (w q : Timed) : Prop where
  exit : env.completes w (.child .wait) = env.completes q (.child .wait)
  signal : env.completes w .next = env.completes q .next

/-- How a state of the watching path and one of the plain path correspond. -/
inductive Agree (env : Env) (t₀ : ℕ) : Timed → Timed → Prop
  | watching {w : Timed} (fs : Option ℕ)
      (hp : w.phase = .watching fs ∨ w.phase = .evaluating fs) (ht : w.taken = 0)
      (ha : w.acts = []) (hv : SameView env w (atRest t₀)) : Agree env t₀ w (atRest t₀)
  | shared {w : Timed} (hs : Shared w.phase) : Agree env t₀ w w

theorem SameView.completes (hv : SameView env w q) {f : Fut} (hf : f.Raced) :
    env.completes w f = env.completes q f := by
  rcases hf with rfl | rfl
  · exact hv.exit
  · exact hv.signal

theorem SameView.readyAt (hv : SameView env w q) {f : Fut} (hf : f.Raced) :
    env.readyAt w f = env.readyAt q f := congrArg (Option.map Prod.fst) (hv.completes hf)

/-- What completes after `u` and not at `u` completes when it did before. -/
theorem max_of_later {n u x : ℕ} (hn : n ≤ u) (hle : u ≤ max n x) (hne : max n x ≠ u) :
    max u x = max n x := by
  omega

/-- A tick at `u` that beats exit and signal leaves both where they were. -/
theorem sameView_tick (hd : DropSafe env) (hn : w.now ≤ t)
    (hw : ∀ f, f.Raced → ∀ u, env.readyAt w f = some u → t ≤ u ∧ u ≠ t) (p : Phase) :
    SameView env ⟨p, t, w.taken, w.acts⟩ w := by
  refine ⟨?_, ?_⟩
  · have hwait := hw (.child .wait) (Or.inl rfl)
    simp only [Env.readyAt, Env.completes, hd w.acts t w.now] at hwait ⊢
    cases he : env.wait w.acts w.now with
    | none => rfl
    | some e =>
      rw [he] at hwait
      obtain ⟨hle, hne⟩ := hwait _ rfl
      simp only [Option.map_some, max_of_later hn hle hne]
  · have hnext := hw .next (Or.inr rfl)
    simp only [Env.readyAt, Env.completes] at hnext ⊢
    cases ha : env.arrivals w.taken with
    | none => rfl
    | some a =>
      rw [ha] at hnext
      obtain ⟨hle, hne⟩ := hnext _ rfl
      simp only [Option.map_some, max_of_later hn hle hne]

theorem SameView.trans {a b c : Timed} (h : SameView env a b) (h' : SameView env b c) :
    SameView env a c := ⟨h.exit.trans h'.exit, h.signal.trans h'.signal⟩

/-- What fires first in the watching `select!`, exit or signal, may fire in the plain one. -/
theorem plain_fires {fs : Option ℕ} {f : Fut} (hp : w.phase = .watching fs)
    (hv : SameView env w (atRest t₀)) (hf : f.Raced)
    (h : (w.phase.awaits cfg cmd).FiresAt (env.readyAt w) f t) :
    (Phase.plain.awaits plain cmd).FiresAt (env.readyAt (atRest t₀)) f t := by
  have hmem : f ∈ (Phase.plain.awaits plain cmd).branches := mem_plain_iff.mpr hf
  refine (Select.firesAt_unbiased _).mpr ⟨hmem, ?_, fun g hg u hu => ?_⟩
  · rw [← hv.readyAt hf]
    exact h.ready_eq
  · obtain hg : g ∈ (Phase.plain.awaits plain cmd).branches := hg
    have hg' := mem_plain_iff.mp hg
    rw [← hv.readyAt hg'] at hu
    refine h.le ?_ hu
    rw [hp]
    exact mem_watching hg'

/-- A tick that fires leaves exit and signal for later. -/
theorem tick_first {fs : Option ℕ} (hp : w.phase = .watching fs)
    (h : (w.phase.awaits cfg cmd).FiresAt (env.readyAt w) (.sleep cfg.poll) t) :
    ∀ f, f.Raced → ∀ u, env.readyAt w f = some u → t ≤ u ∧ u ≠ t := by
  intro f hf u hu
  have hmem : f ∈ (w.phase.awaits cfg cmd).branches := by
    rw [hp]
    exact mem_watching hf
  refine ⟨h.le hmem hu, ?_⟩
  rintro rfl
  have hw := h.2
  rw [hp] at hw
  simp only [Phase.awaits, Select.wins_biased_cons, reduceCtorEq, false_and, false_or] at hw
  obtain ⟨hexit, hsig, -⟩ := hw
  rcases hf with rfl | rfl
  · exact hexit hu
  · exact hsig hu

theorem after_eq (hg : cfg.grace = plain.grace) (hs : Shared p) (ht : w.taken = 0)
    (ha : w.acts = []) : w.after cfg cmd t ev p = (atRest t₀).after plain cmd t ev p := by
  rw [shared_after hg hs]
  simp only [Timed.after, ht, ha, atRest]

/-- Exit and signal lead both paths into one state. -/
theorem agree_leave (hg : cfg.grace = plain.grace) (ht : w.taken = 0) (ha : w.acts = [])
    (hs : Shared p)
    (hf : (Phase.plain.awaits plain cmd).FiresAt (env.readyAt (atRest t₀)) ev.fut t)
    (hc : env.completes (atRest t₀) ev.fut = some (t, ev)) (hm : Move plain cmd t .plain ev p) :
    ∃ q', Relation.ReflTransGen (TimedStep plain cmd env) (atRest t₀) q' ∧
      Agree env t₀ (w.after cfg cmd t ev p) q' := by
  have hstep : TimedStep plain cmd env (atRest t₀) ((atRest t₀).after plain cmd t ev p) :=
    timedStep_iff.mpr ⟨t, ev, p, hf, hc, hm, rfl⟩
  refine ⟨_, .single hstep, ?_⟩
  rw [after_eq hg hs ht ha]
  exact .shared hs

/-- An evaluation that does not kill goes back to the top of the loop at once. -/
theorem evaluating_step {fs : Option ℕ} (hp : w.phase = .evaluating fs)
    (hst : TimedStep cfg cmd env w w') (hn : w'.phase ≠ .killing) :
    ∃ fs', w' = ⟨.watching fs', w.now, w.taken, w.acts⟩ := by
  obtain ⟨t, ev, p, -, hc, hm, rfl⟩ := timedStep_iff.mp hst
  rw [hp] at hm
  cases hm with
  | evalKill => exact absurd rfl hn
  | evalPass =>
    obtain ⟨rfl, -⟩ := Prod.mk.inj (Option.some.inj hc)
    exact ⟨none, after_quiet rfl rfl rfl⟩
  | evalWait fs reason =>
    obtain ⟨rfl, -⟩ := Prod.mk.inj (Option.some.inj hc)
    exact ⟨_, after_quiet rfl rfl rfl⟩

/-- One step of the watching path, answered by the plain path. -/
theorem agree_step (hd : DropSafe env) (hg : cfg.grace = plain.grace) (h : Agree env t₀ w q)
    (hst : TimedStep cfg cmd env w w') (hn : w'.phase ≠ .killing) :
    ∃ q', Relation.ReflTransGen (TimedStep plain cmd env) q q' ∧ Agree env t₀ w' q' := by
  cases h with
  | shared hs =>
    obtain ⟨hst', hs'⟩ := shared_step hg hs hst
    exact ⟨w', .single hst', .shared hs'⟩
  | watching fs hp ht ha hv =>
    rcases hp with hp | hp
    · obtain ⟨t, ev, p, hf, hc, hm, rfl⟩ := timedStep_iff.mp hst
      rw [hp] at hm
      cases hm with
      | watchExit _ st =>
        exact agree_leave hg ht ha trivial (plain_fires hp hv (Or.inl rfl) hf)
          (hv.exit.symm.trans hc) (.plainExit st)
      | watchSignal _ sig =>
        exact agree_leave hg ht ha trivial (plain_fires hp hv (Or.inr rfl) hf)
          (hv.signal.symm.trans hc) (.plainSignal sig)
      | watchTick =>
        have hle := (completes_fut hc).2
        refine ⟨atRest t₀, .refl, ?_⟩
        rw [after_quiet rfl rfl rfl]
        exact .watching fs (Or.inr rfl) ht ha
          ((sameView_tick hd hle (tick_first hp hf) _).trans hv)
    · obtain ⟨fs', rfl⟩ := evaluating_step hp hst hn
      exact ⟨atRest t₀, .refl, .watching fs' (Or.inl rfl) ht ha ⟨hv.exit, hv.signal⟩⟩

theorem agree_start (hk : cfg.killOnChange = true) (hk' : plain.killOnChange = false) :
    Agree env t₀ (spawnedAt cfg t₀) (spawnedAt plain t₀) := by
  have hplain : spawnedAt plain t₀ = atRest t₀ := by simp [spawnedAt, atRest, hk']
  rw [hplain]
  exact .watching none (Or.inl (by simp [spawnedAt, hk])) rfl rfl ⟨rfl, rfl⟩

/-- What the watching path can produce the plain path can. -/
theorem outcome_of_watch (hd : DropSafe env) (hg : cfg.grace = plain.grace)
    (hk : cfg.killOnChange = true) (hk' : plain.killOnChange = false)
    (hn : NeverKills cfg cmd env t₀) (ho : Outcome cfg cmd env t₀ acts r) :
    Outcome plain cmd env t₀ acts r := by
  obtain ⟨w, hw, hr, hacts⟩ := ho
  have hsim := Relation.ReflTransGen.simulate (q := TimedStep plain cmd env)
    (R := fun w q => Reaches cfg cmd env t₀ w ∧ Agree env t₀ w q) ?_ hw
    ⟨.refl, agree_start hk hk'⟩
  · obtain ⟨q, hq, -, hagree⟩ := hsim
    cases hagree with
    | watching fs hp =>
      rw [hr] at hp
      simp at hp
    | shared hs => exact ⟨w, hq, hr, hacts⟩
  · rintro a b a' ⟨ha, hab⟩ hst
    have ha' : Reaches cfg cmd env t₀ a' := ha.tail hst
    obtain ⟨b', hb', hagree⟩ := agree_step hd hg hab hst (hn a' ha')
    exact ⟨b', hb', ha', hagree⟩

/-! The other way: the watching path ticks until what the plain path awaits is due. -/

theorem evaluating_next {fs : Option ℕ} (hp : w.phase = .evaluating fs) :
    ∃ w', TimedStep cfg cmd env w w' := by
  have hst : (timed cfg cmd env w.now).step w _ _ := (eval_step hp).mpr ⟨rfl, rfl⟩
  exact ⟨_, _, hst⟩

/-- From an evaluation the loop comes back to its top. -/
theorem evaluating_reaches {fs : Option ℕ} (hn : NeverKills cfg cmd env t₀)
    (hw : Reaches cfg cmd env t₀ w) (hp : w.phase = .evaluating fs) :
    ∃ fs', Relation.ReflTransGen (TimedStep cfg cmd env) w
      ⟨.watching fs', w.now, w.taken, w.acts⟩ := by
  obtain ⟨w', hst⟩ : ∃ w', TimedStep cfg cmd env w w' := evaluating_next hp
  obtain ⟨fs', rfl⟩ := evaluating_step hp hst (hn _ (hw.tail hst))
  exact ⟨fs', .single hst⟩

/-- A round of the loop in which neither exit nor signal is due. -/
theorem round {fs : Option ℕ} (hn : NeverKills cfg cmd env t₀) (hw : Reaches cfg cmd env t₀ w)
    (hp : w.phase = .watching fs)
    (hlater : ∀ f, f.Raced → ∀ u, env.readyAt w f = some u → w.now + cfg.poll < u) :
    ∃ fs', Relation.ReflTransGen (TimedStep cfg cmd env) w
      ⟨.watching fs', w.now + cfg.poll, w.taken, w.acts⟩ := by
  have htick : (timed cfg cmd env t₀).step w _ _ :=
    (tick_step_of_later hp hlater).mpr ⟨rfl, rfl⟩
  have hst : TimedStep cfg cmd env w ⟨.evaluating fs, w.now + cfg.poll, w.taken, w.acts⟩ :=
    ⟨_, htick⟩
  obtain ⟨fs', hback⟩ := evaluating_reaches hn (hw.tail hst) rfl
  exact ⟨fs', hback.head hst⟩

/-- The loop comes to the round in which what is due at `t` falls. -/
theorem watch_until (hd : DropSafe env) (hn : NeverKills cfg cmd env t₀) (hpoll : 0 < cfg.poll)
    (ht : ∀ f, f.Raced → ∀ u, env.readyAt (atRest t₀) f = some u → t ≤ u)
    {fs : Option ℕ} {now : ℕ} (hw : Reaches cfg cmd env t₀ ⟨.watching fs, now, 0, []⟩)
    (hv : SameView env ⟨.watching fs, now, 0, []⟩ (atRest t₀)) :
    ∃ fs' now', Relation.ReflTransGen (TimedStep cfg cmd env) ⟨.watching fs, now, 0, []⟩
        ⟨.watching fs', now', 0, []⟩ ∧
      SameView env ⟨.watching fs', now', 0, []⟩ (atRest t₀) ∧ t ≤ now' + cfg.poll := by
  induction hk : t - now using Nat.strong_induction_on generalizing fs now with
  | _ k ih =>
    by_cases hdue : t ≤ now + cfg.poll
    · exact ⟨fs, now, .refl, hv, hdue⟩
    · have hlater : ∀ f, f.Raced → ∀ u, env.readyAt ⟨.watching fs, now, 0, []⟩ f = some u →
          now + cfg.poll < u := by
        intro f hf u hu
        rw [hv.readyAt hf] at hu
        have hle := ht f hf u hu
        omega
      obtain ⟨fs', hround⟩ := round hn hw rfl hlater
      have hv' : SameView env ⟨.watching fs', now + cfg.poll, 0, []⟩ (atRest t₀) := by
        refine (sameView_tick hd (Nat.le_add_right now _) (fun f hf u hu => ?_) _).trans hv
        have hlt := hlater f hf u hu
        exact ⟨hlt.le, hlt.ne'⟩
      obtain ⟨fs'', now'', hrest, hv'', hdue''⟩ :=
        ih (t - (now + cfg.poll)) (by omega) (hw.trans hround) hv' rfl
      exact ⟨fs'', now'', hround.trans hrest, hv'', hdue''⟩

/-- In that round the biased `select!` takes what the plain one takes, if there is no tie. -/
theorem watch_fires {fs : Option ℕ} {now : ℕ} {f : Fut}
    (hv : SameView env ⟨.watching fs, now, 0, []⟩ (atRest t₀)) (hdue : t ≤ now + cfg.poll)
    (hf : (Phase.plain.awaits plain cmd).FiresAt (env.readyAt (atRest t₀)) f t)
    (hne : f = .next → env.readyAt (atRest t₀) (.child .wait) ≠ some t) :
    ((Phase.watching fs).awaits cfg cmd).FiresAt
      (env.readyAt ⟨.watching fs, now, 0, []⟩) f t := by
  have hmem : f.Raced := mem_plain_iff.mp hf.mem
  have hready : env.readyAt ⟨.watching fs, now, 0, []⟩ f = some t :=
    (hv.readyAt hmem).trans hf.ready_eq
  refine ⟨fun g hg u hu => ?_, ?_⟩
  · simp only [Phase.awaits, List.mem_cons, List.not_mem_nil, or_false] at hg
    rcases hg with rfl | rfl | rfl
    · rw [hv.readyAt (Or.inl rfl)] at hu
      exact hf.le (mem_plain_iff.mpr (Or.inl rfl)) hu
    · rw [hv.readyAt (Or.inr rfl)] at hu
      exact hf.le (mem_plain_iff.mpr (Or.inr rfl)) hu
    · obtain rfl := Option.some.inj hu
      exact hdue
  · simp only [Phase.awaits, Select.wins_biased_cons]
    rcases hmem with rfl | rfl
    · exact Or.inl ⟨rfl, hready⟩
    · refine Or.inr ⟨?_, Or.inl ⟨rfl, hready⟩⟩
      rw [hv.readyAt (Or.inl rfl)]
      exact hne rfl

/-- One step of the plain path, answered by the watching path. -/
theorem agree_back (hd : DropSafe env) (hg : cfg.grace = plain.grace)
    (hn : NeverKills cfg cmd env t₀) (hpoll : 0 < cfg.poll) (hnt : NoTie plain cmd env t₀)
    (h : Agree env t₀ w q) (hw : Reaches cfg cmd env t₀ w) (hq : Reaches plain cmd env t₀ q)
    (hst : TimedStep plain cmd env q q') :
    ∃ w', Relation.ReflTransGen (TimedStep cfg cmd env) w w' ∧ Agree env t₀ w' q' := by
  cases h with
  | shared hs =>
    obtain ⟨hst', hs'⟩ := shared_step hg.symm hs hst
    exact ⟨q', .single hst', .shared hs'⟩
  | watching fs hp ht ha hv =>
    -- first back to the top of the loop, if an evaluation is under way
    obtain ⟨fs', htop⟩ : ∃ fs', Relation.ReflTransGen (TimedStep cfg cmd env) w
        ⟨.watching fs', w.now, 0, []⟩ := by
      rcases hp with hp | hp
      · refine ⟨fs, ?_⟩
        rw [← hp, ← ht, ← ha]
      · rw [← ht, ← ha]
        exact evaluating_reaches hn hw hp
    have hv' : SameView env ⟨.watching fs', w.now, 0, []⟩ (atRest t₀) := by
      rw [← ht, ← ha]
      exact ⟨hv.exit, hv.signal⟩
    obtain ⟨t, ev, p, hf, hc, hm, rfl⟩ := timedStep_iff.mp hst
    have hfirst : ∀ f, f.Raced → ∀ u, env.readyAt (atRest t₀) f = some u → t ≤ u := by
      intro f hfm u hu
      exact hf.le (mem_plain_iff.mpr hfm) hu
    obtain ⟨fs'', now, hticks, hv'', hdue⟩ :=
      watch_until hd hn hpoll hfirst (hw.trans htop) hv'
    have hne : ev.fut = .next → env.readyAt (atRest t₀) (.child .wait) ≠ some t := by
      intro hnext hwait
      refine hnt _ hq t (mem_plain_iff.mpr (Or.inl rfl)) (mem_plain_iff.mpr (Or.inr rfl)) hwait ?_
      rw [← hnext]
      exact hf.ready_eq
    have hfire := watch_fires hv'' hdue hf hne
    suffices hleave : Shared p ∧ Move cfg cmd t (.watching fs'') ev p by
      obtain ⟨hs, hm'⟩ := hleave
      refine ⟨_, (htop.trans hticks).tail
        (timedStep_iff.mpr ⟨t, ev, p, hfire, ?_, hm', rfl⟩), ?_⟩
      · exact (hv''.completes (mem_plain_iff.mp hf.mem)).trans hc
      · rw [after_eq hg hs rfl rfl]
        exact .shared hs
    obtain hm : Move plain cmd t .plain ev p := hm
    cases hm with
    | plainExit st => exact ⟨trivial, .watchExit fs'' st⟩
    | plainSignal sig => exact ⟨trivial, .watchSignal fs'' sig⟩

theorem plain_phase (hk : plain.killOnChange = false) (hq : Reaches plain cmd env t₀ q) :
    q.phase = .plain ∨ Shared q.phase := by
  induction hq with
  | refl => exact Or.inl (by simp [spawnedAt, hk])
  | tail _ hst ih =>
    obtain ⟨t, ev, p, -, -, hm, rfl⟩ := timedStep_iff.mp hst
    refine Or.inr ?_
    rcases ih with hp | hs
    · rw [hp] at hm
      cases hm with
      | plainExit | plainSignal => exact trivial
    · exact (shared_move rfl hs hm).2

/-- The plain path awaits one future, or exit and signal. -/
theorem plain_awaits (hp : p = .plain ∨ Shared p) {x y : Fut}
    (hx : x ∈ (p.awaits plain cmd).branches) (hy : y ∈ (p.awaits plain cmd).branches) :
    x = y ∨ (x = .child .wait ∧ y = .next) ∨ (x = .next ∧ y = .child .wait) := by
  rcases hp with rfl | hs
  · simp only [Phase.awaits, List.mem_cons, List.not_mem_nil, or_false] at hx hy
    rcases hx with rfl | rfl <;> rcases hy with rfl | rfl <;> simp
  · cases p with
    | forwarding | returned => simp_all [Phase.awaits]
    | escalating e =>
      cases e with
      | racing =>
        simp only [Phase.awaits, Escalation.awaits, List.mem_cons, List.not_mem_nil,
          or_false] at hx hy
        rcases hx with rfl | rfl <;> rcases hy with rfl | rfl <;> simp
      | terminating | draining => simp_all [Phase.awaits, Escalation.awaits]
    | _ => exact hs.elim

/-- Without a tie the plain path has one successor at most. -/
theorem plain_unique (hk : plain.killOnChange = false) (hnt : NoTie plain cmd env t₀)
    (hq : Reaches plain cmd env t₀ q) {a b : Timed} (ha : TimedStep plain cmd env q a)
    (hb : TimedStep plain cmd env q b) : a = b := by
  obtain ⟨⟨t, ev, p⟩, hf, hc, hr, rfl⟩ := ha
  obtain ⟨⟨t', ev', p'⟩, hf', hc', hr', rfl⟩ := hb
  simp only at hf hc hr hf' hc' hr'
  have hne : ∀ x ∈ (q.phase.awaits plain cmd).branches, ∀ y ∈ (q.phase.awaits plain cmd).branches,
      env.readyAt q x = some t → env.readyAt q y = some t → x = y := by
    intro x hx y hy hxt hyt
    rcases plain_awaits (plain_phase hk hq) hx hy with h | ⟨rfl, rfl⟩ | ⟨rfl, rfl⟩
    · exact h
    · exact absurd hyt (hnt q hq t hx hy hxt)
    · exact absurd hxt (hnt q hq t hy hx hyt)
  obtain ⟨hfut, rfl⟩ := hf.unique hf' hne
  rw [hfut, hc'] at hc
  obtain ⟨-, rfl⟩ := Prod.mk.inj (Option.some.inj hc)
  obtain rfl := Option.some.inj (hr.symm.trans hr')
  rfl

theorem returned_stops (hr : w.phase = .returned r) (s : Timed) : ¬ TimedStep cfg cmd env w s := by
  rintro ⟨_, hst⟩
  exact returned_stuck hr (show (timed cfg cmd env w.now).step w _ s from hst)

theorem outcome_unique (hk : plain.killOnChange = false) (hnt : NoTie plain cmd env t₀)
    (h : Outcome plain cmd env t₀ acts r) (h' : Outcome plain cmd env t₀ acts' r') :
    acts = acts' ∧ r = r' := by
  obtain ⟨s, hs, hr, rfl⟩ := h
  obtain ⟨s', hs', hr', rfl⟩ := h'
  obtain rfl := Relation.ReflTransGen.end_unique (fun _ hx _ _ => plain_unique hk hnt hx) hs hs'
    (returned_stops hr) (returned_stops hr')
  rw [hr] at hr'
  exact ⟨rfl, Phase.returned.inj hr'⟩

/-- Without ties what the plain path can produce the watching path can. -/
theorem outcome_of_plain (hd : DropSafe env) (hg : cfg.grace = plain.grace)
    (hk : cfg.killOnChange = true) (hk' : plain.killOnChange = false)
    (hn : NeverKills cfg cmd env t₀) (hpoll : 0 < cfg.poll) (hnt : NoTie plain cmd env t₀)
    (ho : Outcome plain cmd env t₀ acts r) : Outcome cfg cmd env t₀ acts r := by
  obtain ⟨q, hq, hr, hacts⟩ := ho
  have hsim := Relation.ReflTransGen.simulate (q := TimedStep cfg cmd env)
    (R := fun q w => Reaches plain cmd env t₀ q ∧ Reaches cfg cmd env t₀ w ∧ Agree env t₀ w q) ?_ hq
    ⟨.refl, .refl, agree_start hk hk'⟩
  · obtain ⟨w, hw, -, -, hagree⟩ := hsim
    cases hagree with
    | watching fs hp => cases hr
    | shared hs => exact ⟨q, hw, hr, hacts⟩
  · rintro a b a' ⟨ha, hb, hab⟩ hst
    obtain ⟨b', hb', hagree⟩ := agree_back hd hg hn hpoll hnt hab hb ha hst
    exact ⟨b', hb', ha.tail hst, hb.trans hb', hagree⟩

/-- A watch that does not kill produces only what the plain path can; without ties both produce one
and the same outcome, whatever `poll` and `debounce` are. -/
theorem watch_agrees_plain (hd : DropSafe env) (hg : cfg.grace = plain.grace)
    (hk : cfg.killOnChange = true) (hk' : plain.killOnChange = false) (hpoll : 0 < cfg.poll)
    (hn : NeverKills cfg cmd env t₀) :
    (∀ acts r, Outcome cfg cmd env t₀ acts r → Outcome plain cmd env t₀ acts r) ∧
    (NoTie plain cmd env t₀ →
      (∀ acts r, Outcome cfg cmd env t₀ acts r ↔ Outcome plain cmd env t₀ acts r) ∧
      ∀ acts acts' r r', Outcome plain cmd env t₀ acts r → Outcome plain cmd env t₀ acts' r' →
        acts = acts' ∧ r = r') := by
  refine ⟨fun _ _ => outcome_of_watch hd hg hk hk' hn, fun hnt => ⟨fun _ _ => ⟨?_, ?_⟩, ?_⟩⟩
  · exact outcome_of_watch hd hg hk hk' hn
  · exact outcome_of_plain hd hg hk hk' hn hpoll hnt
  · exact fun _ _ _ _ => outcome_unique hk' hnt

/-- While the predicates pass nothing is killed. -/
theorem neverKills_of_pass (hv : ∀ t, env.verdict t = .pass) : NeverKills cfg cmd env t₀ := by
  intro s hs hk
  cases hs with
  | refl =>
    unfold spawnedAt at hk
    split_ifs at hk
  | tail _ hst =>
    obtain ⟨t, ev, p, -, hc, hm, rfl⟩ := timedStep_iff.mp hst
    obtain rfl : p = .killing := hk
    generalize hp : Timed.phase _ = p at hm
    cases hm with
    | evalKill fs reason =>
      obtain ⟨-, he⟩ := Prod.mk.inj (Option.some.inj hc)
      rw [hv] at he
      cases he

/-- No predicates and no signals; the child succeeds after 5. -/
def succeedsAtFive : Env where
  set := .and []
  network _ := ⟨false, false⟩
  arrivals _ := none
  wait _ _ := some (5, ⟨0⟩)
  reply _ _ := some (0, .ok ())

theorem watch_agrees_plain_five :
    Outcome ⟨false, true, 1, 2, 0⟩ ⟨"echo", ["hello"]⟩ succeedsAtFive 0
      [(5, .done (.exited ⟨0⟩))] (.ok 0) := by
  have hn : NeverKills ⟨false, true, 1, 2, 0⟩ ⟨"echo", ["hello"]⟩ succeedsAtFive 0 :=
    neverKills_of_pass fun _ => rfl
  have hnt : NoTie ⟨false, false, 1, 9, 4⟩ ⟨"echo", ["hello"]⟩ succeedsAtFive 0 := by
    intro s _ t _ _ _ h
    cases h
  have hplain : Outcome ⟨false, false, 1, 9, 4⟩ ⟨"echo", ["hello"]⟩ succeedsAtFive 0
      [(5, .done (.exited ⟨0⟩))] (.ok 0) := by
    refine ⟨⟨.returned (.ok 0), 5, 0, [(5, .done (.exited ⟨0⟩))]⟩, .single ?_, rfl, rfl⟩
    refine ⟨⟨5, .exited ⟨0⟩, .returned (.ok 0)⟩, ?_, rfl, rfl, rfl⟩
    refine (Select.firesAt_unbiased _).mpr ⟨by simp [Event.fut], rfl, fun g hg u hu => ?_⟩
    simp only [List.mem_cons, List.not_mem_nil, or_false] at hg
    rcases hg with rfl | rfl
    · exact (Option.some.inj hu).le
    · cases hu
  have hg : SupervisorConfig.grace ⟨false, true, 1, 2, 0⟩ =
      SupervisorConfig.grace ⟨false, false, 1, 9, 4⟩ := rfl
  have hboth := watch_agrees_plain (fun _ _ _ => rfl) hg rfl rfl (by decide) hn
  exact ((hboth.2 hnt).1 _ _).mpr hplain

end Condrun
