import Mathlib.Algebra.Order.Floor.Div
import Mathlib.Tactic.Ring
import Condrun.Proofs.Timed

/-! When the watcher loop evaluates and when it kills, as functions of poll interval, debounce and
onset of the failure. -/

namespace Condrun

variable {cfg : SupervisorConfig} {cmd : CommandSpec} {env : Env} {t₀ T k : ℕ} {s s' : Timed}
  {ls : List Entry} {en : Entry}

/-- The number of the first evaluation that fails. -/
def firstFail (cfg : SupervisorConfig) (T : ℕ) : ℕ := T ⌈/⌉ cfg.poll

/-- The number of the evaluation that kills. -/
def killEval (cfg : SupervisorConfig) (T : ℕ) : ℕ :=
  firstFail cfg T + cfg.debounce ⌈/⌉ cfg.poll

/-- How long after the spawn `terminate` is called. -/
def killAfter (cfg : SupervisorConfig) (T : ℕ) : ℕ :=
  cfg.poll * (T ⌈/⌉ cfg.poll) + cfg.poll * (cfg.debounce ⌈/⌉ cfg.poll)

/-- The predicates pass before `T` and fail from `T` on, no signal arrives, and the child does not
exit first. -/
structure FailsFrom (cfg : SupervisorConfig) (env : Env) (t₀ T : ℕ) : Prop where
  watches : cfg.killOnChange = true
  poll_pos : 0 < cfg.poll
  onset_pos : 0 < T
  passes : ∀ t, t₀ ≤ t → t < t₀ + T → env.verdict t = .pass
  fails : ∀ t, t₀ + T ≤ t → env.verdict t ≠ .pass
  silent : env.arrivals 0 = none
  outlives : ∀ c e, t₀ ≤ c → env.wait [] c = some e → t₀ + killAfter cfg T < e.1

/-- The instants of the evaluations made in a run. -/
def evalTimes (ls : List Entry) : List ℕ :=
  (ls.filter fun en => en.event.verdict?.isSome).map Entry.time

/-- The first `k` ticks after the spawn. -/
def ticks (cfg : SupervisorConfig) (t₀ k : ℕ) : List ℕ :=
  (List.range k).map fun i => t₀ + (i + 1) * cfg.poll

/-- What `fail_started_at` holds after `k` evaluations. -/
def failStarted (cfg : SupervisorConfig) (t₀ T k : ℕ) : Option ℕ :=
  if k < firstFail cfg T then none else some (t₀ + firstFail cfg T * cfg.poll)

theorem failStarted_of_lt (hk : k < firstFail cfg T) : failStarted cfg t₀ T k = none := if_pos hk

theorem failStarted_of_le (hk : firstFail cfg T ≤ k) :
    failStarted cfg t₀ T k = some (t₀ + firstFail cfg T * cfg.poll) := if_neg (Nat.not_lt.mpr hk)

theorem killAfter_eq : killAfter cfg T = killEval cfg T * cfg.poll := by
  unfold killAfter killEval firstFail
  ring

theorem firstFail_le_iff (hp : 0 < cfg.poll) : firstFail cfg T ≤ k ↔ T ≤ k * cfg.poll := by
  unfold firstFail
  rw [ceilDiv_le_iff_le_mul hp, Nat.mul_comm]

theorem firstFail_pos (hp : 0 < cfg.poll) (hT : 0 < T) : 0 < firstFail cfg T := by
  by_contra h
  have := (firstFail_le_iff (k := 0) (T := T) hp).mp (by omega)
  omega

/-- The loop kills from evaluation `killEval` on, and not before. -/
theorem killEval_le_iff (t₀ : ℕ) (hp : 0 < cfg.poll) (hk : firstFail cfg T ≤ k) :
    killEval cfg T ≤ k ↔ cfg.debounce ≤ t₀ + k * cfg.poll - (t₀ + firstFail cfg T * cfg.poll) := by
  have hmul : t₀ + k * cfg.poll - (t₀ + firstFail cfg T * cfg.poll) =
      cfg.poll * (k - firstFail cfg T) := by
    rw [Nat.add_sub_add_left, ← Nat.sub_mul, Nat.mul_comm]
  rw [hmul, ← ceilDiv_le_iff_le_mul hp]
  unfold killEval
  omega

theorem FailsFrom.verdict_pass (h : FailsFrom cfg env t₀ T) (hk : k < firstFail cfg T) :
    env.verdict (t₀ + k * cfg.poll) = .pass := by
  have hlt := mt (firstFail_le_iff (T := T) h.poll_pos).mpr (Nat.not_le.mpr hk)
  exact h.passes _ (by omega) (by omega)

theorem FailsFrom.verdict_fail (h : FailsFrom cfg env t₀ T) (hk : firstFail cfg T ≤ k) :
    ∃ reason, env.verdict (t₀ + k * cfg.poll) = .fail reason := by
  have hle := (firstFail_le_iff h.poll_pos).mp hk
  have hv := h.fails (t₀ + k * cfg.poll) (by omega)
  rcases hr : env.verdict (t₀ + k * cfg.poll) with _ | reason
  · exact absurd hr hv
  · exact ⟨reason, rfl⟩

/-- The first failing evaluation sets `fail_started_at` and later ones leave it. -/
theorem failStarted_getD (t₀ : ℕ) (hk : firstFail cfg T ≤ k + 1) :
    (failStarted cfg t₀ T k).getD (t₀ + (k + 1) * cfg.poll) =
      t₀ + firstFail cfg T * cfg.poll := by
  by_cases hlt : k < firstFail cfg T
  · have he : firstFail cfg T = k + 1 := by omega
    rw [failStarted_of_lt hlt, he]
    rfl
  · rw [failStarted_of_le (by omega)]
    rfl

/-- Where the loop goes on after evaluation `k + 1`. -/
theorem evalNext_eq (h : FailsFrom cfg env t₀ T) (hk : k < killEval cfg T) :
    evalNext cfg (t₀ + (k + 1) * cfg.poll) (failStarted cfg t₀ T k)
      (env.verdict (t₀ + (k + 1) * cfg.poll)) =
    if k + 1 < killEval cfg T then .watching (failStarted cfg t₀ T (k + 1)) else .killing := by
  by_cases hf : k + 1 < firstFail cfg T
  · have hkill : k + 1 < killEval cfg T := by
      unfold killEval
      omega
    rw [h.verdict_pass hf, if_pos hkill, failStarted_of_lt hf]
    rfl
  · obtain ⟨reason, hr⟩ := h.verdict_fail (by omega : firstFail cfg T ≤ k + 1)
    have hstarted := failStarted_getD t₀ (by omega : firstFail cfg T ≤ k + 1)
    have hkill := killEval_le_iff t₀ h.poll_pos (by omega : firstFail cfg T ≤ k + 1)
    rw [hr, evalNext, hstarted, failStarted_of_le (by omega : firstFail cfg T ≤ k + 1)]
    by_cases hd : killEval cfg T ≤ k + 1
    · rw [if_pos (hkill.mp hd), if_neg (by omega)]
    · rw [if_neg (mt hkill.mpr hd), if_pos (by omega)]

/-! The schedule of a run: its `k`-th tick and evaluation, and what is left after the kill. -/

def AfterKill (p : Phase) : Prop := p = .killing ∨ p = .draining ∨ ∃ r, p = .returned r

inductive Scheduled (cfg : SupervisorConfig) (t₀ T : ℕ) : List Entry → Timed → Prop
  | watching {ls : List Entry} (k : ℕ) (hk : k < killEval cfg T)
      (he : evalTimes ls = ticks cfg t₀ k) (hl : ls.length = 2 * k) :
      Scheduled cfg t₀ T ls ⟨.watching (failStarted cfg t₀ T k), t₀ + k * cfg.poll, 0, []⟩
  | evaluating {ls : List Entry} (k : ℕ) (hk : k < killEval cfg T)
      (he : evalTimes ls = ticks cfg t₀ k) (hl : ls.length = 2 * k + 1) :
      Scheduled cfg t₀ T ls ⟨.evaluating (failStarted cfg t₀ T k), t₀ + (k + 1) * cfg.poll, 0, []⟩
  | killed {ls : List Entry} {s : Timed} (he : evalTimes ls = ticks cfg t₀ (killEval cfg T))
      (hp : AfterKill s.phase) (hc : terminateTimes s.acts = [t₀ + killAfter cfg T]) :
      Scheduled cfg t₀ T ls s

theorem evalTimes_snoc (ls : List Entry) (en : Entry) : evalTimes (ls ++ [en]) =
    evalTimes ls ++ if en.event.verdict?.isSome then [en.time] else [] := by
  unfold evalTimes
  rw [List.filter_append, List.map_append]
  by_cases h : en.event.verdict?.isSome = true <;> simp [h]

theorem ticks_succ (cfg : SupervisorConfig) (t₀ k : ℕ) :
    ticks cfg t₀ (k + 1) = ticks cfg t₀ k ++ [t₀ + (k + 1) * cfg.poll] := by
  unfold ticks
  rw [List.range_succ, List.map_append]
  rfl

/-- No wait made before the kill resolves within its window. -/
theorem FailsFrom.outlives_window (h : FailsFrom cfg env t₀ T) (hk : k < killEval cfg T) {u : ℕ}
    {p : Phase} (hu : env.readyAt ⟨p, t₀ + k * cfg.poll, 0, []⟩ (.child .wait) = some u) :
    t₀ + k * cfg.poll + cfg.poll < u := by
  simp only [Env.readyAt, Env.completes, Option.map_map, Option.map_eq_some_iff] at hu
  obtain ⟨e, he, rfl⟩ := hu
  have hlate := h.outlives _ e (Nat.le_add_right _ _) he
  have hle : (k + 1) * cfg.poll ≤ killEval cfg T * cfg.poll := Nat.mul_le_mul_right _ hk
  rw [killAfter_eq] at hlate
  rw [Nat.add_mul, Nat.one_mul] at hle
  have hmax : e.1 ≤ max (t₀ + k * cfg.poll) e.1 := Nat.le_max_right _ _
  exact Nat.lt_of_lt_of_le (by omega) hmax

theorem FailsFrom.watch_step (h : FailsFrom cfg env t₀ T) (hk : k < killEval cfg T)
    (fs : Option ℕ) :
    (timed cfg cmd env t₀).step ⟨.watching fs, t₀ + k * cfg.poll, 0, []⟩ en s' ↔
      en = ⟨t₀ + k * cfg.poll + cfg.poll, .elapsed cfg.poll, .evaluating fs⟩ ∧
      s' = ⟨.evaluating fs, t₀ + k * cfg.poll + cfg.poll, 0, []⟩ :=
  tick_step h.silent rfl fun _ hu => h.outlives_window hk hu

theorem afterKill_move {p p' : Phase} {t : ℕ} {ev : Event} (hp : AfterKill p)
    (hm : Move cfg cmd t p ev p') :
    AfterKill p' ∧ ev.verdict? = none ∧ p'.called cfg cmd = [] := by
  rcases hp with rfl | rfl | ⟨r, rfl⟩
  · cases hm with
    | killOk => exact ⟨Or.inr (Or.inl rfl), rfl, rfl⟩
    | killFail err => exact ⟨Or.inr (Or.inr ⟨_, rfl⟩), rfl, rfl⟩
  · cases hm
    exact ⟨Or.inr (Or.inr ⟨_, rfl⟩), rfl, rfl⟩
  · cases hm

/-- After the kill nothing is evaluated and nothing is killed. -/
theorem scheduled_killed (he : evalTimes ls = ticks cfg t₀ (killEval cfg T))
    (hp : AfterKill s.phase) (hc : terminateTimes s.acts = [t₀ + killAfter cfg T])
    (hst : (timed cfg cmd env t₀).step s en s') : Scheduled cfg t₀ T (ls ++ [en]) s' := by
  obtain ⟨-, -, hm, rfl⟩ := timed_step_iff.mp hst
  obtain ⟨hafter, hev, hcalled⟩ := afterKill_move hp hm
  refine .killed ?_ hafter ?_
  · rw [evalTimes_snoc, hev, he]
    exact List.append_nil _
  · rw [terminateTimes_after, hcalled, hc]
    rfl

theorem scheduled_step (h : FailsFrom cfg env t₀ T) (hs : Scheduled cfg t₀ T ls s)
    (hst : (timed cfg cmd env t₀).step s en s') : Scheduled cfg t₀ T (ls ++ [en]) s' := by
  cases hs with
  | watching k hk he hl =>
    obtain ⟨rfl, rfl⟩ := (h.watch_step hk _).mp hst
    rw [show t₀ + k * cfg.poll + cfg.poll = t₀ + (k + 1) * cfg.poll by ring]
    refine .evaluating k hk ?_ (by simp [hl])
    rw [evalTimes_snoc, he]
    exact List.append_nil _
  | evaluating k hk he hl =>
    obtain ⟨rfl, rfl⟩ := (eval_step rfl).mp hst
    have hticks : ∀ p, evalTimes (ls ++ [⟨t₀ + (k + 1) * cfg.poll,
        .evaluated (env.verdict (t₀ + (k + 1) * cfg.poll)), p⟩]) = ticks cfg t₀ (k + 1) := by
      intro p
      rw [evalTimes_snoc, he, ticks_succ]
      rfl
    simp only [evalNext_eq h hk]
    by_cases hk' : k + 1 < killEval cfg T
    · simp only [if_pos hk']
      rw [after_quiet rfl rfl rfl]
      exact .watching (k + 1) hk' (hticks _) (by simp [hl]; omega)
    · have hkill : k + 1 = killEval cfg T := by omega
      simp only [if_neg hk']
      refine .killed ?_ (Or.inl rfl) ?_
      · rw [hticks, hkill]
      · rw [killAfter_eq, ← hkill]
        rfl
  | killed he hp hc => exact scheduled_killed he hp hc hst

theorem scheduled_run (h : FailsFrom cfg env t₀ T) (hr : (timed cfg cmd env t₀).Run ls s) :
    Scheduled cfg t₀ T ls s := by
  induction hr with
  | nil hi =>
    obtain rfl := hi
    have hpos := firstFail_pos h.poll_pos h.onset_pos
    have hkill : 0 < killEval cfg T := by
      unfold killEval
      omega
    have h0 : Scheduled cfg t₀ T []
        ⟨.watching (failStarted cfg t₀ T 0), t₀ + 0 * cfg.poll, 0, []⟩ :=
      .watching 0 hkill rfl rfl
    rw [failStarted_of_lt hpos, Nat.zero_mul, Nat.add_zero] at h0
    rw [spawnedAt, if_pos h.watches]
    exact h0
  | snoc _ hst ih => exact scheduled_step h ih hst

theorem scheduled_goesOn (h : FailsFrom cfg env t₀ T) (hs : Scheduled cfg t₀ T ls s) :
    terminateTimes s.acts = [t₀ + killAfter cfg T] ∨
      ∃ en s', (timed cfg cmd env t₀).step s en s' := by
  cases hs with
  | watching k hk he hl => exact Or.inr ⟨_, _, (h.watch_step hk _).mpr ⟨rfl, rfl⟩⟩
  | evaluating k hk he hl => exact Or.inr ⟨_, _, (eval_step rfl).mpr ⟨rfl, rfl⟩⟩
  | killed he hp hc => exact Or.inl hc

/-- Every run calls `terminate` once, and at the instant that the formula gives. -/
theorem leads_to_kill (h : FailsFrom cfg env t₀ T) :
    (timed cfg cmd env t₀).Leads fun s => terminateTimes s.acts = [t₀ + killAfter cfg T] := by
  refine ⟨⟨2 * killEval cfg T, fun ls s hr hlen => ?_⟩, fun ls s hr => ?_⟩
  · have hs := scheduled_run h hr
    cases hs with
    | watching k hk he hl => omega
    | evaluating k hk he hl => omega
    | killed he hp hc => exact hc
  · exact scheduled_goesOn h (scheduled_run h hr)

/-! What the formula bounds. -/

/-- An evaluation at `u` failed, and so did every later one. -/
structure FailedSince (ls : List Entry) (u : ℕ) : Prop where
  observed : u ∈ evalTimes ls
  since : ∀ en ∈ ls, u ≤ en.time → en.event ≠ .evaluated .pass

theorem run_verdict (hr : (timed cfg cmd env t₀).Run ls s) {en : Entry} (hen : en ∈ ls)
    {res : PredicateResult} (he : en.event = .evaluated res) : res = env.verdict en.time := by
  induction hr with
  | nil => cases hen
  | snoc _ hst ih =>
    rcases List.mem_append.1 hen with hen | hen
    · exact ih hen
    · obtain rfl := List.mem_singleton.1 hen
      have hc := hst.2.1
      rw [he] at hc
      obtain ⟨ht, hv⟩ := Prod.mk.inj (Option.some.inj hc)
      rw [← ht]
      exact (Event.evaluated.inj hv).symm

theorem failing_at_kill (h : FailsFrom cfg env t₀ T) (hr : (timed cfg cmd env t₀).Run ls s)
    (he : evalTimes ls = ticks cfg t₀ (killEval cfg T)) :
    FailedSince ls (t₀ + cfg.poll * (T ⌈/⌉ cfg.poll)) := by
  have hpos := firstFail_pos h.poll_pos h.onset_pos
  have honset : T ≤ cfg.poll * (T ⌈/⌉ cfg.poll) :=
    (ceilDiv_le_iff_le_mul h.poll_pos).mp le_rfl
  refine ⟨?_, fun en hen hle hev => ?_⟩
  · rw [he]
    refine List.mem_map.mpr ⟨firstFail cfg T - 1, ?_, ?_⟩
    · rw [List.mem_range]
      unfold killEval
      omega
    · rw [Nat.sub_add_cancel hpos, Nat.mul_comm]
      rfl
  · exact h.fails en.time (by omega) (run_verdict hr hen hev).symm

theorem ceilDiv_mul_lt {P : ℕ} (hP : 0 < P) (T : ℕ) : P * (T ⌈/⌉ P) < T + P := by
  have h := Nat.mul_div_le (T + P - 1) P
  rw [← Nat.ceilDiv_eq_add_pred_div] at h
  omega

theorem killAfter_bounds (hp : 0 < cfg.poll) (T : ℕ) :
    cfg.poll * (T ⌈/⌉ cfg.poll) + cfg.debounce ≤ killAfter cfg T ∧
    killAfter cfg T < T + cfg.debounce + 2 * cfg.poll := by
  have hT := ceilDiv_mul_lt hp T
  have hD := ceilDiv_mul_lt hp cfg.debounce
  have hle : cfg.debounce ≤ cfg.poll * (cfg.debounce ⌈/⌉ cfg.poll) :=
    (ceilDiv_le_iff_le_mul hp).mp le_rfl
  unfold killAfter
  omega

theorem getElem_ticks {n t : ℕ} (h : (ticks cfg t₀ n)[k]? = some t) :
    t = t₀ + (k + 1) * cfg.poll := by
  unfold ticks at h
  rw [List.getElem?_map, Option.map_eq_some_iff] at h
  obtain ⟨i, hi, rfl⟩ := h
  obtain ⟨-, rfl⟩ := List.getElem?_eq_some_iff.mp hi
  rw [List.getElem_range]

theorem Scheduled.exists_ticks (h : Scheduled cfg t₀ T ls s) :
    ∃ n, evalTimes ls = ticks cfg t₀ n := by
  cases h with
  | watching k hk he hl => exact ⟨_, he⟩
  | evaluating k hk he hl => exact ⟨_, he⟩
  | killed he hp hc => exact ⟨_, he⟩

theorem Scheduled.of_terminate (h : Scheduled cfg t₀ T ls s) {t : ℕ}
    (ht : t ∈ terminateTimes s.acts) :
    t = t₀ + killAfter cfg T ∧ evalTimes ls = ticks cfg t₀ (killEval cfg T) := by
  cases h with
  | watching k hk he hl => cases ht
  | evaluating k hk he hl => cases ht
  | killed he hp hc =>
    rw [hc] at ht
    exact ⟨List.mem_singleton.1 ht, he⟩

/-- Evaluations happen at the multiples of the poll interval, and `terminate` is called at
`killAfter`, when evaluations have failed for the debounce time. -/
theorem kill_time (h : FailsFrom cfg env t₀ T) :
    (∀ ls s, (timed cfg cmd env t₀).Run ls s →
      (∀ k t, (evalTimes ls)[k]? = some t → t = t₀ + (k + 1) * cfg.poll) ∧
      ∀ t ∈ terminateTimes s.acts, t = t₀ + killAfter cfg T ∧
        ∃ u, FailedSince ls u ∧ u + cfg.debounce ≤ t) ∧
    ((timed cfg cmd env t₀).Leads fun s => terminateTimes s.acts = [t₀ + killAfter cfg T]) ∧
    killAfter cfg T < T + cfg.debounce + 2 * cfg.poll := by
  have hbounds := killAfter_bounds h.poll_pos T
  refine ⟨fun ls s hr => ⟨fun k t hk => ?_, fun t ht => ?_⟩, leads_to_kill h, hbounds.2⟩
  · obtain ⟨n, hn⟩ := (scheduled_run h hr).exists_ticks
    rw [hn] at hk
    exact getElem_ticks hk
  · obtain ⟨rfl, he⟩ := (scheduled_run h hr).of_terminate ht
    exact ⟨rfl, _, failing_at_kill h hr he, by omega⟩

theorem expensive_isPass (b : Bool) :
    ((PredicateSet.and [rejectExpensive]).evaluate (.still ⟨b, false⟩)).isPass = !b := by
  cases b <;> rfl

/-- Polls every 2, with a debounce of 3, while the network is expensive from 3 on: the evaluations
at 4 and 6 wait and the one at 8 kills. -/
theorem kill_time_metered :
    (timed ⟨false, true, 1, 2, 3⟩ ⟨"sleep", []⟩
      ⟨.and [rejectExpensive], fun t => ⟨decide (3 ≤ t), false⟩, fun _ => none, fun _ _ => none,
        fun _ _ => none⟩ 0).Leads fun s => terminateTimes s.acts = [8] := by
  refine (kill_time (T := 3) ⟨rfl, by decide, by decide, ?_, ?_, rfl, ?_⟩).2.1
  · intro t _ ht
    rw [← PredicateResult.isPass_iff]
    refine (expensive_isPass _).trans ?_
    simpa using ht
  · intro t ht
    rw [Ne, ← PredicateResult.isPass_iff, Bool.not_eq_true]
    refine (expensive_isPass _).trans ?_
    simpa using ht
  · intro c e _ h
    cases h

end Condrun
