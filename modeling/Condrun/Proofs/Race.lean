import Mathlib.Algebra.Order.Floor.Div
import Mathlib.Tactic.Ring
import Condrun.Lib.Streak
import Condrun.Proofs.Timed

/-! What ends the watcher loop, and when, for every history of verdicts: the exit of the child, the
first signal, or the first tick that finds the predicates failing for the debounce time. -/

namespace Condrun

variable {cfg : SupervisorConfig} {cmd : CommandSpec} {env : Env} {t₀ k : ℕ} {s s' : Timed}
  {ls : List Entry} {en : Entry} {exit : Option (ℕ × ExitStatus)}

/-- Tick `k` finds the predicates failing. -/
def FailsAt (cfg : SupervisorConfig) (env : Env) (t₀ k : ℕ) : Prop :=
  (env.verdict (t₀ + k * cfg.poll)).isPass = false

instance : DecidablePred (FailsAt cfg env t₀) := fun _ => inferInstanceAs (Decidable (_ = false))

/-- The failures at tick `k` go back without a gap to a tick `debounce` earlier. -/
def Due (cfg : SupervisorConfig) (env : Env) (t₀ k : ℕ) : Prop :=
  ∃ j ≤ k, 0 < j ∧ cfg.debounce ≤ (k - j) * cfg.poll ∧ ∀ i ≤ k, j ≤ i → FailsAt cfg env t₀ i

instance : DecidablePred (Due cfg env t₀) := fun k => inferInstanceAs (Decidable
  (∃ j ≤ k, 0 < j ∧ cfg.debounce ≤ (k - j) * cfg.poll ∧ ∀ i ≤ k, j ≤ i → FailsAt cfg env t₀ i))

structure KillTick (cfg : SupervisorConfig) (env : Env) (t₀ k : ℕ) : Prop where
  due : Due cfg env t₀ k
  first : ∀ j < k, ¬ Due cfg env t₀ j

inductive WatchEnd
  | exit (t : ℕ) (status : ExitStatus)
  | signal (t : ℕ) (sig : SignalKind)
  | kill (t : ℕ)
  deriving DecidableEq

namespace WatchEnd

def time : WatchEnd → ℕ
  | .exit t _ | .signal t _ | .kill t => t

/-- The state in which the loop is left. -/
def state (cfg : SupervisorConfig) : WatchEnd → Timed
  | .exit t status => ⟨.returned (.ok (exitCode status)), t, 0, [(t, .done (.exited status))]⟩
  | .signal t sig => ⟨.forwarding sig, t, 1, [(t, .call (.signal sig))]⟩
  | .kill t => ⟨.killing, t, 0, [(t, .call (.terminate cfg.grace))]⟩

end WatchEnd

/-- What comes first ends the loop. At one instant the exit goes before the signal, and both go
before the tick. -/
inductive Ends (cfg : SupervisorConfig) (env : Env) (t₀ : ℕ) (exit : Option (ℕ × ExitStatus)) :
    WatchEnd → Prop
  | exit {x : ℕ} {status : ExitStatus} (hx : exit = some (x, status))
      (hs : ∀ a sig, env.arrivals 0 = some (a, sig) → x ≤ max t₀ a)
      (hk : ∀ k, KillTick cfg env t₀ k → x ≤ t₀ + k * cfg.poll) :
      Ends cfg env t₀ exit (.exit x status)
  | signal {a : ℕ} {sig : SignalKind} (hs : env.arrivals 0 = some (a, sig))
      (hx : ∀ x status, exit = some (x, status) → max t₀ a < x)
      (hk : ∀ k, KillTick cfg env t₀ k → max t₀ a ≤ t₀ + k * cfg.poll) :
      Ends cfg env t₀ exit (.signal (max t₀ a) sig)
  | kill {k : ℕ} (hk : KillTick cfg env t₀ k)
      (hx : ∀ x status, exit = some (x, status) → t₀ + k * cfg.poll < x)
      (hs : ∀ a sig, env.arrivals 0 = some (a, sig) → t₀ + k * cfg.poll < max t₀ a) :
      Ends cfg env t₀ exit (.kill (t₀ + k * cfg.poll))

/-- The loop runs, and `exit` is when and how the child exits if nothing is done to it. -/
structure Watches (cfg : SupervisorConfig) (env : Env) (t₀ : ℕ)
    (exit : Option (ℕ × ExitStatus)) : Prop where
  on : cfg.killOnChange = true
  poll_pos : 0 < cfg.poll
  wait : ∀ c, t₀ ≤ c → env.wait [] c = exit
  after_spawn : ∀ x status, exit = some (x, status) → t₀ ≤ x

/-! The debounce timer is the length of a streak. -/

theorem due_iff (hp : 0 < cfg.poll) :
    Due cfg env t₀ k ↔ cfg.debounce ⌈/⌉ cfg.poll < streak (FailsAt cfg env t₀) k := by
  rw [← Nat.succ_le_iff, Streak.le_iff]
  have hceil : ∀ n, cfg.debounce ⌈/⌉ cfg.poll ≤ n ↔ cfg.debounce ≤ n * cfg.poll := by
    intro n
    rw [ceilDiv_le_iff_le_mul hp, Nat.mul_comm]
  refine ⟨?_, ?_⟩
  · rintro ⟨j, hjk, hj, hd, hall⟩
    have hle := (hceil (k - j)).mpr hd
    exact ⟨by omega, fun i hi hik => hall i hik (by omega)⟩
  · rintro ⟨hle, hall⟩
    refine ⟨k - cfg.debounce ⌈/⌉ cfg.poll, Nat.sub_le _ _, by omega, ?_, ?_⟩
    · exact (hceil _).mp (by omega)
    · exact fun i hik hi => hall i (by omega) hik

theorem KillTick.unique {j : ℕ} (h : KillTick cfg env t₀ k) (h' : KillTick cfg env t₀ j) :
    k = j := by
  rcases Nat.lt_trichotomy k j with hlt | heq | hlt
  · exact absurd h.due (h'.first k hlt)
  · exact heq
  · exact absurd h'.due (h.first j hlt)

/-- What `fail_started_at` holds after `k` evaluations. -/
def failStartedAt (cfg : SupervisorConfig) (env : Env) (t₀ k : ℕ) : Option ℕ :=
  if streak (FailsAt cfg env t₀) k = 0 then none
  else some (t₀ + (k + 1 - streak (FailsAt cfg env t₀) k) * cfg.poll)

theorem failStartedAt_getD (hf : FailsAt cfg env t₀ (k + 1)) :
    (failStartedAt cfg env t₀ k).getD (t₀ + (k + 1) * cfg.poll) =
      t₀ + (k + 2 - streak (FailsAt cfg env t₀) (k + 1)) * cfg.poll := by
  rw [Streak.succ_of_pos hf, show ∀ n, k + 2 - (n + 1) = k + 1 - n by omega]
  unfold failStartedAt
  split_ifs with h
  · rw [h]
    rfl
  · rfl

theorem failStartedAt_of_pass (hf : ¬ FailsAt cfg env t₀ (k + 1)) :
    failStartedAt cfg env t₀ (k + 1) = none := if_pos (Streak.succ_of_neg hf)

theorem failStartedAt_of_fail (hf : FailsAt cfg env t₀ (k + 1)) : failStartedAt cfg env t₀ (k + 1) =
    some (t₀ + (k + 2 - streak (FailsAt cfg env t₀) (k + 1)) * cfg.poll) :=
  if_neg (Streak.pos_iff.mpr hf).ne'

/-- Where the loop goes on after evaluation `k + 1`. -/
theorem evalNext_of_history (hp : 0 < cfg.poll) :
    evalNext cfg (t₀ + (k + 1) * cfg.poll) (failStartedAt cfg env t₀ k)
      (env.verdict (t₀ + (k + 1) * cfg.poll)) =
    if Due cfg env t₀ (k + 1) then .killing
    else .watching (failStartedAt cfg env t₀ (k + 1)) := by
  cases hv : env.verdict (t₀ + (k + 1) * cfg.poll) with
  | pass =>
    have hf : ¬ FailsAt cfg env t₀ (k + 1) := by simp [FailsAt, hv, PredicateResult.isPass]
    have hd : ¬ Due cfg env t₀ (k + 1) := by
      rw [due_iff hp, Streak.succ_of_neg hf]
      exact Nat.not_lt_zero _
    rw [if_neg hd, failStartedAt_of_pass hf]
    rfl
  | fail reason =>
    have hf : FailsAt cfg env t₀ (k + 1) := by simp [FailsAt, hv, PredicateResult.isPass]
    have hpos := Streak.pos_iff.mpr hf
    have hle := Streak.le_self (FailsAt cfg env t₀) (k + 1)
    rw [evalNext, failStartedAt_getD hf, failStartedAt_of_fail hf]
    -- the block is one tick shorter than its streak
    have hage : t₀ + (k + 1) * cfg.poll -
        (t₀ + (k + 2 - streak (FailsAt cfg env t₀) (k + 1)) * cfg.poll) =
        cfg.poll * (streak (FailsAt cfg env t₀) (k + 1) - 1) := by
      rw [Nat.add_sub_add_left, ← Nat.sub_mul, Nat.mul_comm]
      congr 1
      omega
    have hdue : Due cfg env t₀ (k + 1) ↔
        cfg.debounce ≤ cfg.poll * (streak (FailsAt cfg env t₀) (k + 1) - 1) := by
      rw [due_iff hp, ← ceilDiv_le_iff_le_mul hp]
      omega
    rw [hage]
    by_cases hd : Due cfg env t₀ (k + 1)
    · rw [if_pos hd, if_pos (hdue.mp hd)]
    · rw [if_neg hd, if_neg (mt hdue.mpr hd)]

/-! The states of the loop. -/

/-- Neither the exit nor the signal has come by tick `k`. -/
structure Later (cfg : SupervisorConfig) (env : Env) (t₀ : ℕ) (exit : Option (ℕ × ExitStatus))
    (k : ℕ) : Prop where
  exit : ∀ x status, exit = some (x, status) → t₀ + k * cfg.poll < x
  signal : ∀ a sig, env.arrivals 0 = some (a, sig) → t₀ + k * cfg.poll < max t₀ a

inductive Looping (cfg : SupervisorConfig) (env : Env) (t₀ : ℕ) (exit : Option (ℕ × ExitStatus)) :
    Timed → Prop
  | watching (k : ℕ) (hl : k = 0 ∨ Later cfg env t₀ exit k) (hd : ∀ j ≤ k, ¬ Due cfg env t₀ j) :
      Looping cfg env t₀ exit
        ⟨.watching (failStartedAt cfg env t₀ k), t₀ + k * cfg.poll, 0, []⟩
  | evaluating (k : ℕ) (hl : Later cfg env t₀ exit (k + 1)) (hd : ∀ j ≤ k, ¬ Due cfg env t₀ j) :
      Looping cfg env t₀ exit
        ⟨.evaluating (failStartedAt cfg env t₀ k), t₀ + (k + 1) * cfg.poll, 0, []⟩

/-- Twice the time to `τ`, and which half of a round is next. -/
def roundRank (τ : ℕ) (s : Timed) : ℕ :=
  match s.phase with
  | .watching _ => 2 * (τ - s.now) + 1
  | .evaluating _ => 2 * (τ - s.now) + 2
  | _ => 0

/-- The step from a state of the loop: an end of it, or the next half of a round. -/
def NextRound (cfg : SupervisorConfig) (env : Env) (t₀ : ℕ) (exit : Option (ℕ × ExitStatus))
    (s s₀ : Timed) : Prop :=
  (∃ e, Ends cfg env t₀ exit e ∧ s₀ = e.state cfg) ∨
    (Looping cfg env t₀ exit s₀ ∧ ∀ e, Ends cfg env t₀ exit e →
      roundRank e.time s₀ < roundRank e.time s)

theorem Watches.exit_ready (h : Watches cfg env t₀ exit) {x : ℕ} {status : ExitStatus}
    (hx : exit = some (x, status)) (hl : k = 0 ∨ Later cfg env t₀ exit k) (p : Phase) :
    env.completes ⟨p, t₀ + k * cfg.poll, 0, []⟩ (.child .wait) = some (x, .exited status) := by
  have hle : t₀ + k * cfg.poll ≤ x := by
    rcases hl with rfl | hl
    · rw [Nat.zero_mul]
      exact h.after_spawn x status hx
    · exact (hl.exit x status hx).le
  simp only [Env.completes, h.wait _ (Nat.le_add_right _ _), hx, Option.map_some,
    Nat.max_eq_right hle]

theorem Watches.signal_ready {a : ℕ} {sig : SignalKind} (hs : env.arrivals 0 = some (a, sig))
    (hl : k = 0 ∨ Later cfg env t₀ exit k) (p : Phase) :
    env.completes ⟨p, t₀ + k * cfg.poll, 0, []⟩ .next = some (max t₀ a, .signalled sig) := by
  have hle : max (t₀ + k * cfg.poll) a = max t₀ a := by
    rcases hl with rfl | hl
    · rw [Nat.zero_mul]
      rfl
    · have hlt := hl.signal a sig hs
      omega
  simp only [Env.completes, hs, Option.map_some, hle]

theorem Watches.readyAt_wait (h : Watches cfg env t₀ exit)
    (hl : k = 0 ∨ Later cfg env t₀ exit k) {p : Phase} {u : ℕ}
    (hu : env.readyAt ⟨p, t₀ + k * cfg.poll, 0, []⟩ (.child .wait) = some u) :
    ∃ status, exit = some (u, status) := by
  cases hx : exit with
  | none =>
    simp only [Env.readyAt, Env.completes, h.wait _ (Nat.le_add_right _ _), hx] at hu
    cases hu
  | some e =>
    obtain ⟨x, status⟩ := e
    rw [readyAt_of_completes (h.exit_ready hx hl p)] at hu
    exact ⟨status, by rw [Option.some.inj hu]⟩

theorem Watches.readyAt_next (hl : k = 0 ∨ Later cfg env t₀ exit k) {p : Phase} {u : ℕ}
    (hu : env.readyAt ⟨p, t₀ + k * cfg.poll, 0, []⟩ .next = some u) :
    ∃ a sig, env.arrivals 0 = some (a, sig) ∧ u = max t₀ a := by
  cases ha : env.arrivals 0 with
  | none =>
    simp only [Env.readyAt, Env.completes, ha] at hu
    cases hu
  | some e =>
    obtain ⟨a, sig⟩ := e
    rw [readyAt_of_completes (signal_ready ha hl p)] at hu
    exact ⟨a, sig, rfl, (Option.some.inj hu).symm⟩

theorem Watches.tick_after (hd : ∀ j ≤ k, ¬ Due cfg env t₀ j) {j : ℕ} (hj : KillTick cfg env t₀ j) :
    t₀ + (k + 1) * cfg.poll ≤ t₀ + j * cfg.poll := by
  have hlt : k < j := Nat.lt_of_not_le fun hle => hd j hle hj.due
  exact Nat.add_le_add_left (Nat.mul_le_mul_right _ hlt) _

theorem Watches.exits (h : Watches cfg env t₀ exit) (hl : k = 0 ∨ Later cfg env t₀ exit k)
    {fs : Option ℕ} {x : ℕ} {status : ExitStatus} (hx : exit = some (x, status))
    (hle : x ≤ t₀ + (k + 1) * cfg.poll)
    (hs : ∀ a sig, env.arrivals 0 = some (a, sig) → x ≤ max t₀ a) :
    (timed cfg cmd env t₀).step ⟨.watching fs, t₀ + k * cfg.poll, 0, []⟩ en s' ↔
      en = ⟨x, .exited status, .returned (.ok (exitCode status))⟩ ∧
      s' = (WatchEnd.exit x status).state cfg := by
  have hc := h.exit_ready hx hl (.watching fs)
  rw [step_of_fires (fun g u => ?_) hc rfl]
  · rfl
  · refine Select.firesAt_biased [] [Fut.next, .sleep cfg.poll] (readyAt_of_completes hc) ?_ ?_
    · simp
    · intro y hy v hv
      simp only [List.mem_cons, List.not_mem_nil, or_false] at hy
      rcases hy with rfl | rfl
      · obtain ⟨a, sig, ha, rfl⟩ := Watches.readyAt_next hl hv
        exact hs a sig ha
      · obtain rfl := Option.some.inj hv
        rwa [Nat.add_mul, Nat.one_mul, ← Nat.add_assoc] at hle

theorem Watches.signals (h : Watches cfg env t₀ exit) (hl : k = 0 ∨ Later cfg env t₀ exit k)
    {fs : Option ℕ} {a : ℕ} {sig : SignalKind} (hs : env.arrivals 0 = some (a, sig))
    (hle : max t₀ a ≤ t₀ + (k + 1) * cfg.poll)
    (hx : ∀ x status, exit = some (x, status) → max t₀ a < x) :
    (timed cfg cmd env t₀).step ⟨.watching fs, t₀ + k * cfg.poll, 0, []⟩ en s' ↔
      en = ⟨max t₀ a, .signalled sig, .forwarding sig⟩ ∧
      s' = (WatchEnd.signal (max t₀ a) sig).state cfg := by
  have hc := Watches.signal_ready hs hl (.watching fs)
  rw [step_of_fires (fun g u => ?_) hc rfl]
  · rfl
  · refine Select.firesAt_biased [Fut.child .wait] [.sleep cfg.poll] (readyAt_of_completes hc) ?_ ?_
    · intro y hy v hv
      rw [List.mem_singleton.1 hy] at hv
      obtain ⟨status, hv⟩ := h.readyAt_wait hl hv
      exact hx v status hv
    · intro y hy v hv
      rw [List.mem_singleton.1 hy] at hv
      obtain rfl := Option.some.inj hv
      rwa [Nat.add_mul, Nat.one_mul, ← Nat.add_assoc] at hle

theorem Watches.ticks (h : Watches cfg env t₀ exit) (hl : k = 0 ∨ Later cfg env t₀ exit k)
    (hl' : Later cfg env t₀ exit (k + 1)) {fs : Option ℕ} :
    (timed cfg cmd env t₀).step ⟨.watching fs, t₀ + k * cfg.poll, 0, []⟩ en s' ↔
      en = ⟨t₀ + (k + 1) * cfg.poll, .elapsed cfg.poll, .evaluating fs⟩ ∧
      s' = ⟨.evaluating fs, t₀ + (k + 1) * cfg.poll, 0, []⟩ := by
  have hnow : t₀ + k * cfg.poll + cfg.poll = t₀ + (k + 1) * cfg.poll := by ring
  rw [tick_step_of_later rfl]
  · simp only [hnow]
  · simp only [hnow]
    rintro f (rfl | rfl) u hu
    · obtain ⟨status, hx⟩ := h.readyAt_wait hl hu
      exact hl'.exit u status hx
    · obtain ⟨a, sig, ha, rfl⟩ := Watches.readyAt_next hl hu
      exact hl'.signal a sig ha

/-- What ends the loop does so at the next tick or later. -/
theorem Ends.time_ge {e : WatchEnd} (he : Ends cfg env t₀ exit e)
    (hl : Later cfg env t₀ exit (k + 1)) (hd : ∀ j ≤ k, ¬ Due cfg env t₀ j) :
    t₀ + (k + 1) * cfg.poll ≤ e.time := by
  cases he with
  | exit hx => exact (hl.exit _ _ hx).le
  | signal hs => exact (hl.signal _ _ hs).le
  | kill hk => exact Watches.tick_after hd hk

/-- In the window up to the next tick the exit comes, or the signal, or neither. -/
theorem window_cases (cfg : SupervisorConfig) (env : Env) (t₀ k : ℕ)
    (exit : Option (ℕ × ExitStatus)) :
    (∃ x status, exit = some (x, status) ∧ x ≤ t₀ + (k + 1) * cfg.poll ∧
      ∀ a sig, env.arrivals 0 = some (a, sig) → x ≤ max t₀ a) ∨
    (∃ a sig, env.arrivals 0 = some (a, sig) ∧ max t₀ a ≤ t₀ + (k + 1) * cfg.poll ∧
      ∀ x status, exit = some (x, status) → max t₀ a < x) ∨
    Later cfg env t₀ exit (k + 1) := by
  rcases exit with _ | ⟨x, status⟩ <;> rcases ha : env.arrivals 0 with _ | ⟨a, sig⟩
  · exact Or.inr (Or.inr ⟨by simp, by simp [ha]⟩)
  · rcases Nat.lt_or_ge (t₀ + (k + 1) * cfg.poll) (max t₀ a) with h | h
    · exact Or.inr (Or.inr ⟨by simp, fun _ _ h' => by rw [ha] at h'; cases h'; exact h⟩)
    · exact Or.inr (Or.inl ⟨a, sig, rfl, h, by simp⟩)
  · rcases Nat.lt_or_ge (t₀ + (k + 1) * cfg.poll) x with h | h
    · exact Or.inr (Or.inr ⟨fun _ _ h' => by cases h'; exact h, by simp [ha]⟩)
    · exact Or.inl ⟨x, status, rfl, h, by simp⟩
  · rcases Nat.lt_or_ge (t₀ + (k + 1) * cfg.poll) (min x (max t₀ a)) with h | h
    · refine Or.inr (Or.inr ⟨fun _ _ h' => ?_, fun _ _ h' => ?_⟩)
      · cases h'
        omega
      · rw [ha] at h'
        cases h'
        omega
    · rcases Nat.lt_or_ge (max t₀ a) x with hlt | hge
      · refine Or.inr (Or.inl ⟨a, sig, rfl, by omega, fun _ _ h' => ?_⟩)
        cases h'
        exact hlt
      · refine Or.inl ⟨x, status, rfl, by omega, fun _ _ h' => ?_⟩
        cases h'
        exact hge

/-- From a state of the loop there is one step. -/
theorem looping_step (h : Watches cfg env t₀ exit) (hs : Looping cfg env t₀ exit s) :
    ∃ en₀ s₀, (∀ en s', (timed cfg cmd env t₀).step s en s' ↔ en = en₀ ∧ s' = s₀) ∧
      NextRound cfg env t₀ exit s s₀ := by
  cases hs with
  | watching k hl hd =>
    rcases window_cases cfg env t₀ k exit with
      ⟨x, status, hx, hle, hs⟩ | ⟨a, sig, hs, hle, hx⟩ | hl'
    · refine ⟨_, _, fun en s' => h.exits hl hx hle hs, Or.inl ⟨_, .exit hx hs fun j hj => ?_, rfl⟩⟩
      exact hle.trans (Watches.tick_after hd hj)
    · refine ⟨_, _, fun en s' => h.signals hl hs hle hx,
        Or.inl ⟨_, .signal hs hx fun j hj => ?_, rfl⟩⟩
      exact hle.trans (Watches.tick_after hd hj)
    · refine ⟨_, _, fun en s' => h.ticks hl hl', Or.inr ⟨.evaluating k hl' hd, fun e he => ?_⟩⟩
      have hge := he.time_ge hl' hd
      have hp := h.poll_pos
      rw [Nat.add_mul, Nat.one_mul] at hge
      simp only [roundRank, Nat.add_mul, Nat.one_mul]
      omega
  | evaluating k hl hd =>
    refine ⟨_, _, fun en s' => eval_step rfl, ?_⟩
    simp only [evalNext_of_history h.poll_pos]
    by_cases hdue : Due cfg env t₀ (k + 1)
    · simp only [if_pos hdue]
      refine Or.inl ⟨_, .kill ⟨hdue, fun j hj => hd j (by omega)⟩ hl.exit hl.signal, ?_⟩
      simp [Timed.after, WatchEnd.state, Event.sig?, Event.op?, Phase.called, Phase.awaits]
    · simp only [if_neg hdue]
      rw [after_quiet rfl rfl rfl]
      have hd' : ∀ j ≤ k + 1, ¬ Due cfg env t₀ j := by
        intro j hj
        rcases Nat.lt_or_eq_of_le hj with hlt | rfl
        · exact hd j (Nat.le_of_lt_succ hlt)
        · exact hdue
      exact Or.inr ⟨.watching (k + 1) (Or.inr hl) hd', fun e _ => Nat.lt_succ_self _⟩

theorem looping_start (h : Watches cfg env t₀ exit) :
    Looping cfg env t₀ exit (spawnedAt cfg t₀) := by
  have h0 : Looping cfg env t₀ exit
      ⟨.watching (failStartedAt cfg env t₀ 0), t₀ + 0 * cfg.poll, 0, []⟩ := by
    refine .watching 0 (Or.inl rfl) fun j hj => ?_
    rintro ⟨i, hi, hpos, -⟩
    omega
  rw [Nat.zero_mul, Nat.add_zero] at h0
  rw [spawnedAt, if_pos h.on]
  exact h0

theorem Ends.unique {e e' : WatchEnd} (he : Ends cfg env t₀ exit e)
    (he' : Ends cfg env t₀ exit e') : e = e' := by
  cases he with
  | exit hx hs hk =>
    cases he' with
    | exit hx' => rw [hx] at hx'; cases hx'; rfl
    | signal hs' hx' =>
      have hle := hs _ _ hs'
      have hlt := hx' _ _ hx
      omega
    | kill hk' hx' =>
      have hle := hk _ hk'
      have hlt := hx' _ _ hx
      omega
  | signal hs hx hk =>
    cases he' with
    | exit hx' hs' =>
      have hle := hs' _ _ hs
      have hlt := hx _ _ hx'
      omega
    | signal hs' => rw [hs] at hs'; cases hs'; rfl
    | kill hk' _ hs' =>
      have hle := hk _ hk'
      have hlt := hs' _ _ hs
      omega
  | kill hk hx hs =>
    cases he' with
    | exit hx' _ hk' =>
      have hle := hk' _ hk
      have hlt := hx _ _ hx'
      omega
    | signal hs' _ hk' =>
      have hle := hk' _ hk
      have hlt := hs _ _ hs'
      omega
    | kill hk' => rw [hk.unique hk']

theorem exists_killTick (h : Due cfg env t₀ k) : ∃ j ≤ k, KillTick cfg env t₀ j := by
  have hex : ∃ j, Due cfg env t₀ j := ⟨k, h⟩
  exact ⟨Nat.find hex, Nat.find_le h, Nat.find_spec hex, fun j hj => Nat.find_min hex hj⟩

/-- What could end the loop if it came first. -/
inductive Contends (cfg : SupervisorConfig) (env : Env) (t₀ : ℕ)
    (exit : Option (ℕ × ExitStatus)) : WatchEnd → Prop
  | exit {x : ℕ} {status : ExitStatus} (hx : exit = some (x, status)) :
      Contends cfg env t₀ exit (.exit x status)
  | signal {a : ℕ} {sig : SignalKind} (hs : env.arrivals 0 = some (a, sig)) :
      Contends cfg env t₀ exit (.signal (max t₀ a) sig)
  | kill {k : ℕ} (hk : KillTick cfg env t₀ k) :
      Contends cfg env t₀ exit (.kill (t₀ + k * cfg.poll))

/-- The order in which the three come, ties included. -/
def WatchEnd.order : WatchEnd → ℕ
  | .exit t _ => 3 * t
  | .signal t _ => 3 * t + 1
  | .kill t => 3 * t + 2

/-- If anything can end the loop, something does. -/
theorem exists_ends (h : exit ≠ none ∨ env.arrivals 0 ≠ none ∨ ∃ k, Due cfg env t₀ k) :
    ∃ e, Ends cfg env t₀ exit e := by
  have hne : ∃ e, Contends cfg env t₀ exit e := by
    rcases h with h | h | ⟨k, hk⟩
    · obtain ⟨⟨x, status⟩, hx⟩ := Option.ne_none_iff_exists'.mp h
      exact ⟨_, .exit hx⟩
    · obtain ⟨⟨a, sig⟩, hs⟩ := Option.ne_none_iff_exists'.mp h
      exact ⟨_, .signal hs⟩
    · obtain ⟨j, -, hj⟩ := exists_killTick hk
      exact ⟨_, .kill hj⟩
  obtain ⟨e, he, hmin⟩ := WellFounded.has_min (measure WatchEnd.order).wf
    {e | Contends cfg env t₀ exit e} hne
  have hle : ∀ e', Contends cfg env t₀ exit e' → e.order ≤ e'.order :=
    fun e' he' => Nat.le_of_not_lt (hmin e' he')
  refine ⟨e, ?_⟩
  cases he with
  | exit hx =>
    refine .exit hx (fun a sig hs => ?_) fun k hk => ?_
    · have := hle _ (.signal hs)
      simp only [WatchEnd.order] at this
      omega
    · have := hle _ (.kill hk)
      simp only [WatchEnd.order] at this
      omega
  | signal hs =>
    refine .signal hs (fun x status hx => ?_) fun k hk => ?_
    · have := hle _ (.exit hx)
      simp only [WatchEnd.order] at this
      omega
    · have := hle _ (.kill hk)
      simp only [WatchEnd.order] at this
      omega
  | kill hk =>
    refine .kill hk (fun x status hx => ?_) fun a sig hs => ?_
    · have := hle _ (.exit hx)
      simp only [WatchEnd.order] at this
      omega
    · have := hle _ (.signal hs)
      simp only [WatchEnd.order] at this
      omega

/-- The run came through `x`. -/
def CameThrough (cfg : SupervisorConfig) (cmd : CommandSpec) (env : Env) (t₀ : ℕ) (x s : Timed) :
    Prop := ∃ ls, ((timed cfg cmd env t₀).startAt x).Run ls s

/-- Every run comes through the end that is first. -/
theorem leads_to_end (h : Watches cfg env t₀ exit) {e : WatchEnd} (he : Ends cfg env t₀ exit e) :
    (timed cfg cmd env t₀).Leads (CameThrough cfg cmd env t₀ (e.state cfg)) := by
  apply Lts.leads_of_stable (Looping cfg env t₀ exit) (roundRank e.time)
    (roundRank e.time (spawnedAt cfg t₀))
  · rintro _ rfl
    exact ⟨looping_start h, le_rfl⟩
  · rintro x en y ⟨ls, hr⟩ hst
    exact ⟨ls ++ [en], hr.snoc hst⟩
  · intro x hx
    obtain ⟨en₀, s₀, hiff, hnext⟩ := looping_step h hx
    refine Or.inr ⟨en₀, s₀, hiff, ?_⟩
    rcases hnext with ⟨e', he', rfl⟩ | ⟨hloop, hrank⟩
    · obtain rfl := he.unique he'
      exact Or.inl ⟨[], .nil rfl⟩
    · exact Or.inr ⟨hloop, hrank e he⟩

/-- An end that returns is where every run stays. -/
theorem leads_to_return (h : Watches cfg env t₀ exit) {e : WatchEnd} (he : Ends cfg env t₀ exit e)
    {r : Except Error ℤ} (hr : (e.state cfg).phase = .returned r) :
    (timed cfg cmd env t₀).Leads fun s => s = e.state cfg := by
  refine (leads_to_end h he).strengthen fun _ s _ ⟨ls, hls⟩ => ?_
  refine hls.invariant (P := fun s => s = e.state cfg) (fun _ hi => hi) ?_
  rintro a l b rfl hst
  exact absurd (show (timed cfg cmd env t₀).step _ _ _ from hst) (returned_stuck hr)

/-- A loop that nothing ends goes on, and does nothing to the child. -/
theorem watch_forever (h : Watches cfg env t₀ exit) (hn : ∀ e, ¬ Ends cfg env t₀ exit e)
    (hr : (timed cfg cmd env t₀).Run ls s) : Looping cfg env t₀ exit s := by
  refine Lts.Run.invariant ?_ ?_ hr
  · rintro _ rfl
    exact looping_start h
  · intro x en y hx hst
    obtain ⟨en₀, s₀, hiff, hnext⟩ := looping_step h hx
    obtain ⟨-, rfl⟩ := (hiff en y).mp hst
    rcases hnext with ⟨e, he, -⟩ | ⟨hloop, -⟩
    · exact absurd he (hn e)
    · exact hloop

/-- The watcher loop ends by what comes first: the exit of the child, the first signal, or the first
tick at which the failures are `debounce` old; and where none of them comes it goes on for ever. -/
theorem watch_race (h : Watches cfg env t₀ exit) :
    ((exit ≠ none ∨ env.arrivals 0 ≠ none ∨ ∃ k, Due cfg env t₀ k) →
      ∃! e, Ends cfg env t₀ exit e) ∧
    (∀ e, Ends cfg env t₀ exit e →
      (timed cfg cmd env t₀).Leads (CameThrough cfg cmd env t₀ (e.state cfg))) ∧
    (exit = none → env.arrivals 0 = none → (∀ k, ¬ Due cfg env t₀ k) →
      ∀ ls s, (timed cfg cmd env t₀).Run ls s → s.acts = [] ∧ (∀ r, s.phase ≠ .returned r) ∧
        ∃ en s', (timed cfg cmd env t₀).step s en s') := by
  refine ⟨fun hex => ?_, fun e he => leads_to_end h he, fun hx hs hk ls s hr => ?_⟩
  · obtain ⟨e, he⟩ := exists_ends hex
    exact ⟨e, he, fun e' he' => he'.unique he⟩
  · have hn : ∀ e, ¬ Ends cfg env t₀ exit e := by
      rintro _ (⟨hx', -, -⟩ | ⟨hs', -, -⟩ | ⟨hk', -, -⟩)
      · rw [hx] at hx'
        cases hx'
      · rw [hs] at hs'
        cases hs'
      · exact hk _ hk'.due
    have hloop := watch_forever h hn hr
    obtain ⟨en, s', hiff, -⟩ : ∃ en₀ s₀, (∀ en s', (timed cfg cmd env t₀).step s en s' ↔
        en = en₀ ∧ s' = s₀) ∧ NextRound cfg env t₀ exit s s₀ := looping_step h hloop
    refine ⟨?_, ?_, en, s', (hiff en s').mpr ⟨rfl, rfl⟩⟩
    · cases hloop with
      | watching | evaluating => rfl
    · cases hloop with
      | watching | evaluating => simp

/-- Polls every 1 with a debounce of 2. The predicates fail at 2, pass at 3 and fail from 5 on: the
loop kills at 7, before the child exits at 9. -/
def flickers : Env where
  set := .and [rejectExpensive]
  network t := ⟨t == 2 || decide (5 ≤ t), false⟩
  arrivals _ := none
  wait _ _ := some (9, ⟨0⟩)
  reply _ _ := none

theorem flickers_watches : Watches ⟨false, true, 1, 1, 2⟩ flickers 0 (some (9, ⟨0⟩)) :=
  ⟨rfl, by decide, fun _ _ => rfl, fun _ _ _ => Nat.zero_le _⟩

theorem watch_race_flickers : (∃! e, Ends ⟨false, true, 1, 1, 2⟩ flickers 0 (some (9, ⟨0⟩)) e) ∧
    ∀ e, Ends ⟨false, true, 1, 1, 2⟩ flickers 0 (some (9, ⟨0⟩)) e →
      (timed ⟨false, true, 1, 1, 2⟩ ⟨"sleep", ["9"]⟩ flickers 0).Leads
        (CameThrough ⟨false, true, 1, 1, 2⟩ ⟨"sleep", ["9"]⟩ flickers 0
          (e.state ⟨false, true, 1, 1, 2⟩)) := by
  obtain ⟨hone, hleads, -⟩ := @watch_race _ ⟨"sleep", ["9"]⟩ _ _ _ flickers_watches
  exact ⟨hone (Or.inl (by decide)), hleads⟩

example : Due ⟨false, true, 1, 1, 2⟩ flickers 0 7 ∧
    ∀ j < 7, ¬ Due ⟨false, true, 1, 1, 2⟩ flickers 0 j := by
  decide

end Condrun
