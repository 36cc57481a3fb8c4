import Mathlib.Tactic.Ring
import Condrun.Spec.Handles
import Condrun.Proofs.Timed

/-! How the watcher loop, which drops its wait on every tick, gets along with the two handles. -/

namespace Condrun

variable {cfg : SupervisorConfig} {cmd : CommandSpec} {env : Env} {t₀ t X k : ℕ} {s s' : Timed}
  {ls : List Entry} {en : Entry} {status : ExitStatus} {h h' : FakeChildHandle}

/-- The loop runs on predicates that always pass, and no signal arrives. -/
structure AllQuiet (cfg : SupervisorConfig) (env : Env) (t₀ : ℕ) : Prop where
  watches : cfg.killOnChange = true
  poll_pos : 0 < cfg.poll
  passes : ∀ t, t₀ ≤ t → env.verdict t = .pass
  silent : env.arrivals 0 = none

/-- Every run leaves the loop at `t`, with `code`. -/
def LeavesAt (cfg : SupervisorConfig) (cmd : CommandSpec) (env : Env) (t₀ t : ℕ) (code : ℤ) :
    Prop :=
  (timed cfg cmd env t₀).Leads fun s => s.phase = .returned (.ok code) ∧ s.now = t

/-- The code for a child that exits with `c`. -/
def mappedCode (c : ℕ) : ℤ := if c = 0 then 0 else 2

theorem exitCode_makeStatus {c : ℕ} (hc : c < 256) :
    exitCode (makeStatus (BitVec.ofNat 32 c)) = mappedCode c := by
  have hraw : (BitVec.ofNat 32 c <<< 8 = 0) ↔ c = 0 := by
    rw [← BitVec.toNat_inj, BitVec.toNat_shiftLeft, BitVec.toNat_ofNat, Nat.shiftLeft_eq]
    simp only [BitVec.ofNat_eq_ofNat, BitVec.toNat_ofNat]
    omega
  unfold exitCode mappedCode ExitStatus.success makeStatus
  simp only [beq_iff_eq, hraw]

theorem AllQuiet.fake (hq : AllQuiet cfg env t₀) (h : FakeChildHandle) :
    AllQuiet cfg (h.env env) t₀ := ⟨hq.watches, hq.poll_pos, hq.passes, hq.silent⟩

theorem AllQuiet.child (hq : AllQuiet cfg env t₀) (c : RealChild) :
    AllQuiet cfg (c.env env) t₀ := ⟨hq.watches, hq.poll_pos, hq.passes, hq.silent⟩

/-! The states of the loop before the child exits at `X`. -/

inductive Idle (cfg : SupervisorConfig) (t₀ X : ℕ) : Timed → Prop
  | watching (k : ℕ) (hk : k = 0 ∨ t₀ + k * cfg.poll < X) :
      Idle cfg t₀ X ⟨.watching none, t₀ + k * cfg.poll, 0, []⟩
  | evaluating (k : ℕ) (hk : t₀ + (k + 1) * cfg.poll < X) :
      Idle cfg t₀ X ⟨.evaluating none, t₀ + (k + 1) * cfg.poll, 0, []⟩

theorem AllQuiet.eval (hq : AllQuiet cfg env t₀) :
    (timed cfg cmd env t₀).step ⟨.evaluating none, t₀ + (k + 1) * cfg.poll, 0, []⟩ en s' ↔
      en = ⟨t₀ + (k + 1) * cfg.poll, .evaluated .pass, .watching none⟩ ∧
      s' = ⟨.watching none, t₀ + (k + 1) * cfg.poll, 0, []⟩ := by
  have hpass : env.verdict (t₀ + (k + 1) * cfg.poll) = .pass := hq.passes _ (Nat.le_add_right _ _)
  rw [eval_step rfl]
  simp only [hpass]
  rw [after_quiet rfl rfl rfl]
  rfl

/-- Every wait that the loop makes by `X` resolves at `X`. -/
structure ExitsAt (cfg : SupervisorConfig) (env : Env) (t₀ X : ℕ) (status : ExitStatus) : Prop where
  after_spawn : t₀ ≤ X
  resolves : ∀ k, k = 0 ∨ t₀ + k * cfg.poll < X →
    env.wait [] (t₀ + k * cfg.poll) = some (X, status)

theorem ExitsAt.completes (hx : ExitsAt cfg env t₀ X status)
    (hk : k = 0 ∨ t₀ + k * cfg.poll < X) (p : Phase) :
    env.completes ⟨p, t₀ + k * cfg.poll, 0, []⟩ (.child .wait) = some (X, .exited status) := by
  have hle : t₀ + k * cfg.poll ≤ X := by
    rcases hk with rfl | hk
    · rw [Nat.zero_mul]
      exact hx.after_spawn
    · exact hk.le
  simp only [Env.completes, hx.resolves k hk, Option.map_some, Nat.max_eq_right hle]

/-- Twice the time to the exit, and which half of a round is next. -/
def idleRank (X : ℕ) (s : Timed) : ℕ :=
  match s.phase with
  | .watching _ => 2 * (X - s.now) + 1
  | .evaluating _ => 2 * (X - s.now) + 2
  | _ => 0

/-- A round of the loop, or its end. -/
theorem idle_step (hq : AllQuiet cfg env t₀) (hx : ExitsAt cfg env t₀ X status)
    (hs : Idle cfg t₀ X s) : ∃ en₀ s₀, (∀ en s', (timed cfg cmd env t₀).step s en s' ↔
      en = en₀ ∧ s' = s₀) ∧ idleRank X s₀ < idleRank X s ∧
      (Idle cfg t₀ X s₀ ∨ s₀.phase = .returned (.ok (exitCode status)) ∧ s₀.now = X) := by
  induction hs with
  | watching k hk =>
    have hc := hx.completes hk (.watching none)
    by_cases hle : X ≤ t₀ + k * cfg.poll + cfg.poll
    · refine ⟨_, _, fun en s' => exit_step hq.silent rfl hc hle, ?_, Or.inr ⟨rfl, rfl⟩⟩
      exact Nat.succ_pos _
    · refine ⟨_, _, fun en s' => tick_step hq.silent rfl fun u hu => ?_, ?_, Or.inl ?_⟩
      · rw [readyAt_of_completes hc] at hu
        obtain rfl := Option.some.inj hu
        exact Nat.not_le.mp hle
      · have hp := hq.poll_pos
        simp only [idleRank]
        omega
      · rw [show t₀ + k * cfg.poll + cfg.poll = t₀ + (k + 1) * cfg.poll by ring]
        exact .evaluating k (by rw [Nat.add_mul, Nat.one_mul]; omega)
  | evaluating k hk =>
    refine ⟨_, _, fun en s' => hq.eval, ?_, Or.inl (.watching (k + 1) (Or.inr hk))⟩
    exact Nat.lt_succ_self _

def Left (X : ℕ) (status : ExitStatus) (s : Timed) : Prop :=
  s.phase = .returned (.ok (exitCode status)) ∧ s.now = X

theorem leaves_of_exitsAt (hq : AllQuiet cfg env t₀) (hx : ExitsAt cfg env t₀ X status) :
    LeavesAt cfg cmd env t₀ X (exitCode status) := by
  apply Lts.leads_of_determined (fun s => Idle cfg t₀ X s ∨ Left X status s) (idleRank X)
    (idleRank X (spawnedAt cfg t₀))
  · rintro _ rfl
    have h0 : Idle cfg t₀ X ⟨.watching none, t₀ + 0 * cfg.poll, 0, []⟩ := .watching 0 (Or.inl rfl)
    rw [Nat.zero_mul, Nat.add_zero] at h0
    refine ⟨Or.inl ?_, le_rfl⟩
    rw [spawnedAt, if_pos hq.watches]
    exact h0
  · rintro s (hs | hs)
    · obtain ⟨en₀, s₀, hiff, hrank, hs₀⟩ := idle_step hq hx hs
      exact Or.inr ⟨en₀, s₀, hiff, hs₀, hrank⟩
    · exact Or.inl ⟨hs, fun _ _ => returned_stuck hs.1⟩

/-- The loop over a real child that exits by itself at `X` leaves at `X`. -/
theorem child_leaves (c : RealChild) (hq : AllQuiet cfg env t₀) (hX : t₀ ≤ X)
    (hc : c.ends [] = some (X, status)) : LeavesAt cfg cmd (c.env env) t₀ X (exitCode status) :=
  leaves_of_exitsAt (hq.child c) ⟨hX, fun _ _ => hc⟩

theorem fake_wait (h : FakeChildHandle) (hex : h.state.exited = false) (c : ℕ) :
    (h.env env).wait [] c = some (c + h.exitDelay, makeStatus h.state.exitCode) := by
  simp [FakeChildHandle.env, FakeChildHandle.after, FakeChildHandle.wait, hex, Called.resolvesAt]

theorem fake_leaves (hq : AllQuiet cfg env t₀) (hex : h.state.exited = false)
    (hd : h.exitDelay ≤ cfg.poll) :
    LeavesAt cfg cmd (h.env env) t₀ (t₀ + h.exitDelay)
      (exitCode (makeStatus h.state.exitCode)) := by
  apply leaves_of_exitsAt (hq.fake h)
  refine ⟨Nat.le_add_right _ _, fun k hk => ?_⟩
  -- the first wait is the only one: its window holds the exit
  have hk0 : k = 0 := by
    rcases hk with hk | hk
    · exact hk
    · by_contra hne
      have hle : 1 * cfg.poll ≤ k * cfg.poll := Nat.mul_le_mul_right _ (by omega)
      omega
  subst hk0
  rw [fake_wait h hex, Nat.zero_mul, Nat.add_zero]

/-- A fake whose delay exceeds the poll interval is asked again and again. -/
theorem fake_stays (hq : AllQuiet cfg env t₀) (hex : h.state.exited = false)
    (hd : cfg.poll < h.exitDelay) (hr : (timed cfg cmd (h.env env) t₀).Run ls s) :
    (s.phase = .watching none ∨ s.phase = .evaluating none) ∧ t₀ ≤ s.now ∧ s.taken = 0 ∧
      s.acts = [] := by
  induction hr with
  | nil hi =>
    obtain rfl := hi
    refine ⟨Or.inl ?_, le_rfl, rfl, rfl⟩
    rw [spawnedAt, if_pos hq.watches]
  | @snoc ls s s' en _ hst ih =>
    obtain ⟨hp, hnow, htaken, hacts⟩ := ih
    obtain ⟨p, now, taken, acts⟩ := s
    simp only at hp hnow htaken hacts
    subst htaken hacts
    rcases hp with rfl | rfl
    · have hlate : ∀ u, (h.env env).readyAt ⟨.watching none, now, 0, []⟩ (.child .wait) = some u →
          now + cfg.poll < u := by
        intro u hu
        simp only [Env.readyAt, Env.completes, fake_wait h hex, Option.map_some,
          Option.some.injEq] at hu
        omega
      obtain ⟨-, rfl⟩ := (tick_step (hq.fake h).silent rfl hlate).mp hst
      exact ⟨Or.inr rfl, hnow.trans (Nat.le_add_right _ _), rfl, rfl⟩
    · obtain ⟨-, rfl⟩ := (eval_step rfl).mp hst
      have hpass : (h.env env).verdict now = .pass := hq.passes now hnow
      simp only [hpass]
      rw [after_quiet rfl rfl rfl]
      exact ⟨Or.inl rfl, hnow, rfl, rfl⟩

theorem fake_never_leaves (hq : AllQuiet cfg env t₀) (hex : h.state.exited = false)
    (hd : cfg.poll < h.exitDelay) (code : ℤ) : ¬ LeavesAt cfg cmd (h.env env) t₀ t code := by
  intro hl
  obtain ⟨ls, s, hr, hp, -⟩ := hl.reached rfl
  rcases (fake_stays hq hex hd hr).1 with hp' | hp'
  · rw [hp] at hp'
    cases hp'
  · rw [hp] at hp'
    cases hp'

/-! Waits that are dropped and made again, outside the loop too. -/

/-- Calls of `wait`, one after the other, with the instants of call and drop: each is dropped before
it resolves. -/
inductive Drops (h : FakeChildHandle) : List (ℕ × ℕ) → FakeChildHandle → Prop
  | nil : Drops h [] h
  | snoc {ws : List (ℕ × ℕ)} {h' : FakeChildHandle} {called dropped : ℕ} (hws : Drops h ws h')
      (hafter : ∀ w ∈ ws, w.2 ≤ called) (hle : called ≤ dropped)
      (hlt : dropped < h'.wait.resolvesAt called) :
      Drops h (ws ++ [(called, dropped)]) (h'.onCall .wait)

variable {ws : List (ℕ × ℕ)} {first dropped later : ℕ}

theorem onCall_wait (h : FakeChildHandle) : h.onCall .wait = h := by
  unfold FakeChildHandle.onCall FakeChildHandle.wait
  split_ifs <;> rfl

/-- A dropped wait leaves no trace in the handle. -/
theorem Drops.eq (hw : Drops h ws h') : h' = h := by
  induction hw with
  | nil => rfl
  | snoc _ _ _ _ ih => rw [onCall_wait, ih]

theorem Drops.window (hw : Drops h ws h') :
    ∀ w ∈ ws, w.1 ≤ w.2 ∧ w.2 < h.wait.resolvesAt w.1 := by
  induction hw with
  | nil => simp
  | snoc hws _ hle hlt ih =>
    intro w hmem
    rcases List.mem_append.1 hmem with hmem | hmem
    · exact ih w hmem
    · obtain rfl := List.mem_singleton.1 hmem
      rw [hws.eq] at hlt
      exact ⟨hle, hlt⟩

theorem resolvesAt_wait (hex : h.state.exited = false) (t : ℕ) :
    h.wait.resolvesAt t = t + h.exitDelay := by
  simp [FakeChildHandle.wait, hex, Called.resolvesAt]

/-- A later wait resolves by `exitDelay` after the first call only if no time has passed since; nor
is it otherwise in time for a child that it may find gone. -/
theorem later_wait_iff (hex : h.state.exited = false) (hw : Drops h ((first, dropped) :: ws) h')
    (hlater : ∀ w ∈ (first, dropped) :: ws, w.2 ≤ later) :
    (h'.wait.resolvesAt later ≤ first + h.exitDelay ↔ later = first) ∧
    (h'.wait.resolvesAt later ≤ max later (first + h.exitDelay) ↔ later = first) := by
  obtain ⟨hle, hlt⟩ := hw.window _ List.mem_cons_self
  have hlast := hlater _ List.mem_cons_self
  rw [resolvesAt_wait hex] at hlt
  rw [hw.eq, resolvesAt_wait hex]
  simp only at hle hlt hlast
  omega

/-- The fake exits on time in the watcher loop exactly when the first poll window holds its exit,
and a wait after dropped ones is on time exactly when it is made at the instant of the first. A real
child is on time whenever it exits. -/
theorem fake_on_time_iff (hq : AllQuiet cfg env t₀) {c : ℕ} (hc : c < 256) (D : ℕ) :
    (LeavesAt cfg cmd ((FakeChildHandle.new (BitVec.ofNat 32 c) D).env env) t₀ (t₀ + D)
      (mappedCode c) ↔ D ≤ cfg.poll) ∧
    (∀ first dropped ws later h',
      Drops (.new (BitVec.ofNat 32 c) D) ((first, dropped) :: ws) h' →
      (∀ w ∈ (first, dropped) :: ws, w.2 ≤ later) →
      (h'.wait.resolvesAt later ≤ first + D ↔ later = first) ∧
      (h'.wait.resolvesAt later ≤ max later (first + D) ↔ later = first)) ∧
    ∀ child : RealChild, child.ends [] = some (t₀ + D, makeStatus (BitVec.ofNat 32 c)) →
      LeavesAt cfg cmd (child.env env) t₀ (t₀ + D) (mappedCode c) := by
  refine ⟨⟨fun hl => ?_, fun hd => ?_⟩, fun _ _ _ _ _ hw hlater => later_wait_iff rfl hw hlater,
    fun child hx => ?_⟩
  · by_contra hd
    exact fake_never_leaves hq rfl (Nat.not_le.mp hd) _ hl
  · rw [← exitCode_makeStatus hc]
    exact fake_leaves hq rfl hd
  · rw [← exitCode_makeStatus hc]
    exact child_leaves child hq (Nat.le_add_right _ _) hx

/-- The surroundings of the runs below. -/
def calm : Env :=
  ⟨.and [], fun _ => ⟨false, false⟩, fun _ => none, fun _ _ => none, fun _ _ => none⟩

theorem calm_quiet : AllQuiet ⟨false, true, 1, 2, 0⟩ calm 0 :=
  ⟨rfl, by decide, fun _ _ => rfl, rfl⟩

/-- A child that exits after 2 is seen to, by a loop that polls every 2. -/
theorem fake_on_time_at_poll :
    LeavesAt ⟨false, true, 1, 2, 0⟩ ⟨"sleep", ["2"]⟩
      ((FakeChildHandle.new (BitVec.ofNat 32 7) 2).env calm) 0 (0 + 2) (mappedCode 7) :=
  (fake_on_time_iff calm_quiet (by decide) 2).1.mpr (by decide)

/-- One that exits after 3 never is; and a wait made at 2, after one dropped then, resolves at 5. -/
theorem fake_postponed :
    ¬ LeavesAt ⟨false, true, 1, 2, 0⟩ ⟨"sleep", ["3"]⟩
      ((FakeChildHandle.new (BitVec.ofNat 32 0) 3).env calm) 0 (0 + 3) (mappedCode 0) ∧
    ∃ h', Drops (.new (BitVec.ofNat 32 0) 3) [(0, 2)] h' ∧ h'.wait.resolvesAt 2 = 5 :=
  ⟨fake_never_leaves calm_quiet rfl (by decide) _,
    _, .snoc .nil (by simp) (by decide) (by decide), rfl⟩

end Condrun
