import Condrun.Lib.Block
import Condrun.Proofs.Account

/-! The debounce timer over whole runs: `fail_started_at` is the instant of the first failure of the
unbroken block that ends at the latest evaluation, and the child is killed at the first evaluation
that is at least `debounce` into its block. -/

namespace Condrun

variable {cfg : SupervisorConfig} {cmd : CommandSpec} {tr : List Entry} {s : State} {en : Entry}
  {evals : List Entry} {fs : Option ℕ} {t : ℕ} {D : ℕ} {j k : ℕ}

def Entry.Failed (en : Entry) : Prop := ∃ reason, en.event = .evaluated (.fail reason)

/-- The latest evaluation failed, and the block of failures it ends began at `t`. -/
def FailingSince (evals : List Entry) (t : ℕ) : Prop :=
  ∃ j k a, k + 1 = evals.length ∧ Block Entry.Failed evals j k ∧ evals[j]? = some a ∧ a.time = t

/-- Evaluation `k` failed, at least `D` after the first failure of its block. -/
def KillDue (D : ℕ) (evals : List Entry) (k : ℕ) : Prop :=
  ∃ j a b, Block Entry.Failed evals j k ∧ evals[j]? = some a ∧ evals[k]? = some b ∧
    a.time + D ≤ b.time

/-- The watcher calls `child.terminate` right after its evaluation `k`. -/
def KilledAfter (tr : List Entry) (k : ℕ) : Prop :=
  ∃ en, (watchEvals tr)[k]? = some en ∧ en.next = .killing

theorem spawned_cons : Spawned (en :: tr) ↔ en.event.spawn? = some (.ok ()) ∨ Spawned tr := by
  simp [Spawned, spawnResults, List.mem_filterMap]

theorem sinceSpawn_snoc (h : Spawned tr) : sinceSpawn (tr ++ [en]) = sinceSpawn tr ++ [en] := by
  induction tr with
  | nil => simp [Spawned, spawnResults] at h
  | cons x tr ih =>
    rw [List.cons_append, sinceSpawn, sinceSpawn]
    by_cases hx : x.event.spawn? = some (.ok ())
    · rw [if_pos hx, if_pos hx]
    · rw [if_neg hx, if_neg hx]
      exact ih ((spawned_cons.mp h).resolve_left hx)

/-- What comes before the spawn is left out. -/
theorem sinceSpawn_append (h : ¬ Spawned tr) (tr' : List Entry) :
    sinceSpawn (tr ++ tr') = sinceSpawn tr' := by
  induction tr with
  | nil => rfl
  | cons x tr ih =>
    rw [spawned_cons, not_or] at h
    rw [List.cons_append, sinceSpawn, if_neg h.1]
    exact ih h.2

theorem sinceSpawn_of_not_spawned (h : ¬ Spawned tr) : sinceSpawn tr = [] := by
  have := sinceSpawn_append h []
  rw [List.append_nil] at this
  exact this

theorem sinceSpawn_snoc_of_not_spawned (h : ¬ Spawned tr) : sinceSpawn (tr ++ [en]) = [] := by
  rw [sinceSpawn_append h]
  simp [sinceSpawn]

theorem watchEvals_snoc (h : Spawned tr) (hv : en.event.verdict?.isSome) :
    watchEvals (tr ++ [en]) = watchEvals tr ++ [en] := by
  simp [watchEvals, sinceSpawn_snoc h, hv]

theorem watchEvals_snoc_other (hv : en.event.verdict? = none) :
    watchEvals (tr ++ [en]) = watchEvals tr := by
  by_cases h : Spawned tr
  · simp [watchEvals, sinceSpawn_snoc h, hv]
  · simp [watchEvals, sinceSpawn_snoc_of_not_spawned h, sinceSpawn_of_not_spawned h]

theorem watchEvals_snoc_of_not_spawned (h : ¬ Spawned tr) : watchEvals (tr ++ [en]) = [] := by
  simp [watchEvals, sinceSpawn_snoc_of_not_spawned h]

/-! The timer and the evaluations made so far. -/

/-- What the local `fail_started_at` knows of the evaluations. -/
def Timer (evals : List Entry) (now : ℕ) : Option ℕ → Prop
  | none => ∀ en, evals.getLast? = some en → ¬ en.Failed
  | some t => t ≤ now ∧ FailingSince evals t

theorem FailingSince.last (h : FailingSince evals t) :
    ∃ en, evals.getLast? = some en ∧ en.Failed := by
  obtain ⟨j, k, a, hk, hb, -⟩ := h
  obtain ⟨en, hen, hf⟩ := hb.last
  refine ⟨en, ?_, hf⟩
  rw [List.getLast?_eq_getElem?, ← hen]
  congr 1
  omega

theorem KillDue.failed (h : KillDue D evals k) : ∃ en, evals[k]? = some en ∧ en.Failed := by
  obtain ⟨j, a, b, hb, -⟩ := h
  exact hb.last

/-- Later evaluations do not change what was due. -/
theorem killDue_append (hk : k < evals.length) :
    KillDue D (evals ++ [en]) k ↔ KillDue D evals k := by
  have hget : ∀ i, i ≤ k → (evals ++ [en])[i]? = evals[i]? := fun i hi =>
    List.getElem?_append_left (lt_of_le_of_lt hi hk)
  refine ⟨?_, ?_⟩
  · rintro ⟨j, a, b, hb, ha, hb', hle⟩
    refine ⟨j, a, b, (Block.append_iff hk).mp hb, ?_, ?_, hle⟩
    · rw [← hget j hb.le]; exact ha
    · rw [← hget k le_rfl]; exact hb'
  · rintro ⟨j, a, b, hb, ha, hb', hle⟩
    refine ⟨j, a, b, (Block.append_iff hk).mpr hb, ?_, ?_, hle⟩
    · rw [hget j hb.le]; exact ha
    · rw [hget k le_rfl]; exact hb'

/-- The block that a new failure ends starts at the timer, or at the failure if the timer is off. -/
theorem block_last (ht : Timer evals t fs) (hf : en.Failed) :
    ∃ j a, Block Entry.Failed (evals ++ [en]) j evals.length ∧
      (evals ++ [en])[j]? = some a ∧ a.time = fs.getD en.time := by
  cases fs with
  | none => exact ⟨evals.length, en, Block.fresh ht hf, by simp, rfl⟩
  | some s =>
    obtain ⟨-, j, k, a, hk, hb, ha, rfl⟩ := ht
    refine ⟨j, a, hk ▸ hb.extend hk hf, ?_, rfl⟩
    rw [List.getElem?_append_left (by have := hb.le; omega)]
    exact ha

theorem failingSince_last (ht : Timer evals t fs) (hf : en.Failed) :
    FailingSince (evals ++ [en]) (fs.getD en.time) := by
  obtain ⟨j, a, hb, ha, hat⟩ := block_last ht hf
  exact ⟨j, evals.length, a, by simp, hb, ha, hat⟩

/-- The comparison the code makes is the one the block asks for. -/
theorem killDue_last (ht : Timer evals t fs) (hle : t ≤ en.time) (hf : en.Failed) :
    KillDue D (evals ++ [en]) evals.length ↔ D ≤ en.time - fs.getD en.time := by
  obtain ⟨j, a, hb, ha, hat⟩ := block_last ht hf
  have hs : fs.getD en.time ≤ en.time := by
    cases fs with
    | none => exact le_rfl
    | some s => exact ht.1.trans hle
  refine ⟨?_, ?_⟩
  · rintro ⟨j', a', b, hb', ha', hbt, hD⟩
    obtain rfl := hb'.start_unique hb
    obtain rfl : a' = a := Option.some.inj (ha'.symm.trans ha)
    obtain rfl : b = en := by simpa using hbt.symm
    omega
  · intro hD
    exact ⟨j, a, en, hb, ha, by simp, by omega⟩

/-- Nothing is due when nothing was and the new evaluation is not. -/
theorem not_killDue_snoc (hnone : ∀ k, ¬ KillDue D evals k)
    (hlast : ¬ KillDue D (evals ++ [en]) evals.length) : ∀ k, ¬ KillDue D (evals ++ [en]) k := by
  intro k hk
  rcases Nat.lt_trichotomy k evals.length with hlt | rfl | hlt
  · exact hnone k ((killDue_append hlt).mp hk)
  · exact hlast hk
  · obtain ⟨x, hx, -⟩ := hk.failed
    rw [List.getElem?_eq_none (by simp; omega)] at hx
    cases hx

theorem not_killDue_nil : ¬ KillDue D [] k := by
  intro h
  obtain ⟨en, hen, -⟩ := h.failed
  simp at hen

/-! The invariant of the watcher loop. -/

def KillsExact (D : ℕ) (tr : List Entry) : Prop :=
  ∀ k, KilledAfter tr k ↔
    KillDue D (watchEvals tr) k ∧ ∀ i < k, ¬ KillDue D (watchEvals tr) i

structure WatchInv (cfg : SupervisorConfig) (tr : List Entry) (s : State) : Prop where
  killsExact : KillsExact cfg.debounce tr
  killing : ∀ en ∈ tr, en.next = .killing → ∃ k : ℕ, (watchEvals tr)[k]? = some en
  timer : ∀ fs, s.phase = .watching fs ∨ s.phase = .evaluating fs →
    Timer (watchEvals tr) s.now fs ∧ ∀ k, ¬ KillDue cfg.debounce (watchEvals tr) k

theorem killsExact_of_nil (h : watchEvals tr = []) : KillsExact D tr := by
  intro k
  simp [KilledAfter, h, not_killDue_nil]

/-- One more evaluation, with nothing due before it, kills exactly when it is due itself. -/
theorem killsExact_snoc (hs : Spawned tr) (hv : en.event.verdict?.isSome)
    (hnone : ∀ k, ¬ KillDue D (watchEvals tr) k) (hex : KillsExact D tr)
    (hkill : en.next = .killing ↔
      KillDue D (watchEvals tr ++ [en]) (watchEvals tr).length) : KillsExact D (tr ++ [en]) := by
  intro k
  rw [KilledAfter, watchEvals_snoc hs hv]
  rcases Nat.lt_trichotomy k (watchEvals tr).length with hk | rfl | hk
  · have hno : ¬ KilledAfter tr k := fun h => hnone k ((hex k).mp h).1
    rw [List.getElem?_append_left hk, killDue_append hk]
    exact iff_of_false hno fun h => hnone k h.1
  · rw [← hkill]
    simp only [List.getElem?_concat_length, Option.some.injEq, exists_eq_left']
    exact (and_iff_left fun i hi => by rw [killDue_append hi]; exact hnone i).symm
  · have hno : (watchEvals tr ++ [en])[k]? = none := List.getElem?_eq_none (by simp; omega)
    refine iff_of_false (by simp [hno]) fun h => ?_
    obtain ⟨x, hx, -⟩ := h.1.failed
    rw [hno] at hx
    cases hx

theorem killing_snoc (hev : watchEvals (tr ++ [en]) = watchEvals tr ++ [en])
    (h : ∀ x ∈ tr, x.next = .killing → ∃ k : ℕ, (watchEvals tr)[k]? = some x) :
    ∀ x ∈ tr ++ [en], x.next = .killing → ∃ k : ℕ, (watchEvals (tr ++ [en]))[k]? = some x := by
  intro x hx hxk
  rw [hev]
  rcases List.mem_append.1 hx with hx | hx
  · obtain ⟨k, hk⟩ := h x hx hxk
    refine ⟨k, ?_⟩
    rw [List.getElem?_append_left (List.getElem?_eq_some_iff.mp hk).1]
    exact hk
  · obtain rfl := List.mem_singleton.1 hx
    exact ⟨(watchEvals tr).length, by simp⟩

/-- A step that evaluates nothing leaves the watch as it was, but for the clock. -/
theorem WatchInv.other (h : WatchInv cfg tr s) (hv : en.event.verdict? = none)
    (hk : en.next ≠ .killing) (hle : s.now ≤ en.time)
    (hp : ∀ fs, en.next = .watching fs ∨ en.next = .evaluating fs →
      s.phase = .watching fs ∨ s.phase = .evaluating fs ∨ (watchEvals tr = [] ∧ fs = none)) :
    WatchInv cfg (tr ++ [en]) ⟨en.next, en.time⟩ := by
  have he : watchEvals (tr ++ [en]) = watchEvals tr := watchEvals_snoc_other hv
  refine ⟨?_, ?_, ?_⟩
  · intro k
    rw [KilledAfter, he]
    exact h.killsExact k
  · intro x hx hxk
    rw [he]
    rcases List.mem_append.1 hx with hx | hx
    · exact h.killing x hx hxk
    · exact absurd (List.mem_singleton.1 hx ▸ hxk) hk
  · intro fs hfs
    rw [he]
    have hold : Timer (watchEvals tr) s.now fs ∧ ∀ k, ¬ KillDue cfg.debounce (watchEvals tr) k := by
      rcases hp fs hfs with hw | hw | ⟨hnil, rfl⟩
      · exact h.timer fs (Or.inl hw)
      · exact h.timer fs (Or.inr hw)
      · rw [hnil]
        exact ⟨by simp [Timer], fun k => not_killDue_nil⟩
    refine ⟨?_, hold.2⟩
    cases fs with
    | none => exact hold.1
    | some t => exact ⟨hold.1.1.trans hle, hold.1.2⟩

/-- Nothing is watched before the spawn. -/
theorem WatchInv.gate (h : WatchInv cfg tr s) (hs : ¬ Spawned tr) (hk : en.next ≠ .killing)
    (hw : ∀ fs, en.next ≠ .watching fs) (he : ∀ fs, en.next ≠ .evaluating fs) :
    WatchInv cfg (tr ++ [en]) ⟨en.next, en.time⟩ := by
  have hnil : watchEvals tr = [] := by simp [watchEvals, sinceSpawn_of_not_spawned hs]
  have hnil' : watchEvals (tr ++ [en]) = [] := watchEvals_snoc_of_not_spawned hs
  refine ⟨killsExact_of_nil hnil', ?_, ?_⟩
  · intro x hx hxk
    rcases List.mem_append.1 hx with hx | hx
    · obtain ⟨k, hk⟩ := h.killing x hx hxk
      simp [hnil] at hk
    · exact absurd (List.mem_singleton.1 hx ▸ hxk) hk
  · intro fs hfs
    rcases hfs with hfs | hfs
    · exact absurd hfs (hw fs)
    · exact absurd hfs (he fs)

/-- An evaluation in the loop: the timer `fs` becomes what the loop goes on with, and the kill is
decided by the block that ends here. -/
theorem WatchInv.eval (h : WatchInv cfg tr s) (hs : Spawned tr)
    (hp : s.phase = .evaluating fs) (hle : s.now ≤ en.time)
    (hm : Move cfg cmd en.time s.phase en.event en.next) :
    WatchInv cfg (tr ++ [en]) ⟨en.next, en.time⟩ := by
  obtain ⟨htimer, hnone⟩ := h.timer fs (Or.inr hp)
  obtain ⟨t, ev, p'⟩ := en
  rw [hp] at hm
  simp only at hm hle
  have hv : ev.verdict?.isSome := by cases hm <;> rfl
  have hev : watchEvals (tr ++ [⟨t, ev, p'⟩]) = watchEvals tr ++ [⟨t, ev, p'⟩] :=
    watchEvals_snoc hs hv
  have hkilling := killing_snoc hev h.killing
  cases hm with
  | evalPass =>
    have hfail : ¬ Entry.Failed ⟨t, .evaluated .pass, .watching none⟩ := by simp [Entry.Failed]
    have hlast : ¬ KillDue cfg.debounce (watchEvals tr ++ [⟨t, .evaluated .pass, .watching none⟩])
        (watchEvals tr).length := by
      intro hk
      obtain ⟨x, hx, hxf⟩ := hk.failed
      simp only [List.getElem?_concat_length, Option.some.injEq] at hx
      exact hfail (hx ▸ hxf)
    refine ⟨killsExact_snoc hs hv hnone h.killsExact (iff_of_false (by simp) hlast), hkilling, ?_⟩
    intro fs' hfs'
    obtain rfl : fs' = none := by simpa [eq_comm] using hfs'
    rw [hev]
    refine ⟨?_, not_killDue_snoc hnone hlast⟩
    intro x hx
    rw [List.getLast?_concat, Option.some.injEq] at hx
    exact hx ▸ hfail
  | evalWait _ reason hd =>
    have hfail : Entry.Failed ⟨t, .evaluated (.fail reason), .watching (some (fs.getD t))⟩ :=
      ⟨reason, rfl⟩
    have hlast := (killDue_last (D := cfg.debounce) htimer hle hfail).not.mpr (Nat.not_le.2 hd)
    refine ⟨killsExact_snoc hs hv hnone h.killsExact (iff_of_false (by simp) hlast), hkilling, ?_⟩
    intro fs' hfs'
    obtain rfl : fs' = some (fs.getD t) := by simpa [eq_comm] using hfs'
    rw [hev]
    refine ⟨⟨?_, failingSince_last htimer hfail⟩, not_killDue_snoc hnone hlast⟩
    cases fs with
    | none => exact le_rfl
    | some u => exact htimer.1.trans hle
  | evalKill _ reason hd =>
    have hfail : Entry.Failed ⟨t, .evaluated (.fail reason), .killing⟩ := ⟨reason, rfl⟩
    have hlast := (killDue_last (D := cfg.debounce) htimer hle hfail).mpr hd
    refine ⟨killsExact_snoc hs hv hnone h.killsExact (iff_of_true rfl hlast), hkilling, ?_⟩
    intro fs' hfs'
    simp at hfs'

theorem spawned_iff_of_account {p : Phase} (h : Account cfg cmd p (ledger cfg cmd tr)) :
    (p = .preflight ∨ p = .spawning → ¬ Spawned tr) ∧ (∀ fs, p = .evaluating fs → Spawned tr) := by
  generalize hL : ledger cfg cmd tr = L at h
  obtain ⟨-, hsp, -⟩ := shows_of_ledger hL
  unfold Spawned
  rw [hsp]
  refine ⟨?_, ?_⟩
  · rintro (rfl | rfl) <;> cases h <;> simp
  · rintro fs rfl
    cases h
    simp

theorem watchInv_step (hr : (supervisor cfg cmd).Run tr s) (h : WatchInv cfg tr s) {s' : State}
    (hst : Step cfg cmd s en s') : WatchInv cfg (tr ++ [en]) s' := by
  have hacc := spawned_iff_of_account (run_account hr)
  have hm := hst.move
  have hle := hst.mono
  rw [hst.target]
  obtain ⟨p, now⟩ := s
  obtain ⟨t, ev, p'⟩ := en
  simp only at hm hle hacc
  cases hm with
  | gatePass | gateFail | gateSignal =>
    exact h.gate (hacc.1 (Or.inl rfl)) (by simp) (by simp) (by simp)
  | evalPass fs | evalWait fs | evalKill fs =>
    exact h.eval (hacc.2 fs rfl) rfl hle hst.move
  | spawnWatch =>
    have hnil : watchEvals tr = [] := by
      simp [watchEvals, sinceSpawn_of_not_spawned (hacc.1 (Or.inr rfl))]
    exact h.other rfl (by simp) hle (by simp [hnil])
  | _ => exact h.other rfl (by simp) hle (by simp)

theorem run_watchInv (h : (supervisor cfg cmd).Run tr s) : WatchInv cfg tr s := by
  induction h with
  | nil hi =>
    refine ⟨killsExact_of_nil rfl, by simp, ?_⟩
    intro fs hfs
    rw [show _ = Phase.preflight from hi] at hfs
    simp at hfs
  | snoc hr hst ih => exact watchInv_step hr ih hst

theorem watchEvals_sublist : (watchEvals tr).Sublist tr := by
  have hs : ∀ l : List Entry, (sinceSpawn l).Sublist l := by
    intro l
    induction l with
    | nil => exact .refl []
    | cons x l ih =>
      rw [sinceSpawn]
      split_ifs
      · exact List.sublist_cons_self x l
      · exact ih.cons x
  exact (List.filter_sublist).trans (hs tr)

/-- With no debounce every failure is due at once. -/
theorem killDue_zero (h : tr.Pairwise fun a b => a.time ≤ b.time) :
    KillDue 0 (watchEvals tr) k ↔ ∃ en, (watchEvals tr)[k]? = some en ∧ en.Failed := by
  refine ⟨KillDue.failed, fun hf => ?_⟩
  obtain ⟨j, hb⟩ := Block.exists_start hf
  obtain ⟨a, ha, -⟩ := hb.first
  obtain ⟨b, hb', -⟩ := hb.last
  refine ⟨j, a, b, hb, ha, hb', ?_⟩
  rcases Nat.lt_or_eq_of_le hb.le with hlt | rfl
  · obtain ⟨hj, rfl⟩ := List.getElem?_eq_some_iff.mp ha
    obtain ⟨hk, rfl⟩ := List.getElem?_eq_some_iff.mp hb'
    exact (List.pairwise_iff_getElem.mp (h.sublist watchEvals_sublist)) j k hj hk hlt
  · obtain rfl := Option.some.inj (ha.symm.trans hb')
    exact le_rfl

theorem timer_iff {t : ℕ} {fs : Option ℕ} (h : Timer evals t fs) (u : ℕ) :
    fs = some u ↔ FailingSince evals u := by
  cases fs with
  | none =>
    refine iff_of_false (by simp) fun hf => ?_
    obtain ⟨en, hen, hfail⟩ := hf.last
    exact h en hen hfail
  | some v =>
    rw [Option.some.injEq]
    refine ⟨fun he => he ▸ h.2, ?_⟩
    obtain ⟨-, j, k, a, hk, hb, ha, rfl⟩ := h
    rintro ⟨j', k', a', hk', hb', ha', rfl⟩
    obtain rfl : k = k' := by omega
    obtain rfl := hb.start_unique hb'
    obtain rfl := Option.some.inj (ha.symm.trans ha')
    rfl

theorem failing_iff (u : ℕ) (h : Timer evals u fs) :
    fs.isSome ↔ ∃ en, evals.getLast? = some en ∧ en.Failed := by
  cases fs with
  | none => exact iff_of_false (by simp) fun ⟨en, hen, hf⟩ => h en hen hf
  | some t => exact iff_of_true rfl h.2.last

/-- The child is killed for its predicates exactly at the first evaluation that is `debounce` into
its block of failures, and `fail_started_at` is the start of the block that is still open. -/
theorem debounce_exact (h : (supervisor cfg cmd).Run tr s) :
    (∀ k, KilledAfter tr k ↔ KillDue cfg.debounce (watchEvals tr) k ∧
      ∀ i < k, ¬ KillDue cfg.debounce (watchEvals tr) i) ∧
    (∀ en ∈ tr, en.next = .killing → ∃ k : ℕ, (watchEvals tr)[k]? = some en) ∧
    (∀ fs, s.phase = .watching fs ∨ s.phase = .evaluating fs →
      (fs.isSome ↔ ∃ en, (watchEvals tr).getLast? = some en ∧ en.Failed) ∧
      ∀ t, fs = some t ↔ FailingSince (watchEvals tr) t) ∧
    (cfg.debounce = 0 → ∀ k, KilledAfter tr k ↔
      (∃ en, (watchEvals tr)[k]? = some en ∧ en.Failed) ∧
      ∀ i < k, ¬ ∃ en, (watchEvals tr)[i]? = some en ∧ en.Failed) := by
  have hw := run_watchInv h
  refine ⟨hw.killsExact, hw.killing, ?_, ?_⟩
  · intro fs hfs
    obtain ⟨ht, -⟩ := hw.timer fs hfs
    exact ⟨failing_iff _ ht, timer_iff ht⟩
  · intro hD k
    have hk := hw.killsExact k
    simp only [hD, killDue_zero (run_times h).1] at hk
    exact hk

/-- With poll 2 and debounce 3: a failure, a recovery, and three failures in a row. -/
def retrips : List (ℕ × Event) :=
  [(0, .evaluated .pass), (0, .spawned ⟨"echo", ["hello"]⟩ (.ok ())),
    (2, .elapsed 2), (2, .evaluated (.fail "metered")), (4, .elapsed 2), (4, .evaluated .pass),
    (6, .elapsed 2), (6, .evaluated (.fail "metered")),
    (8, .elapsed 2), (8, .evaluated (.fail "metered")),
    (10, .elapsed 2), (10, .evaluated (.fail "metered"))]

theorem debounce_exact_retrips :
    KillDue 3 (watchEvals (traceOf ⟨false, true, 1, 2, 3⟩ ⟨"echo", ["hello"]⟩ retrips)) 4 ∧
    ∀ i < 4, ¬ KillDue 3
      (watchEvals (traceOf ⟨false, true, 1, 2, 3⟩ ⟨"echo", ["hello"]⟩ retrips)) i :=
  have hrun : (supervisor ⟨false, true, 1, 2, 3⟩ ⟨"echo", ["hello"]⟩).Run
      (traceOf ⟨false, true, 1, 2, 3⟩ ⟨"echo", ["hello"]⟩ retrips) ⟨.killing, 10⟩ :=
    replay_run retrips rfl
  ((debounce_exact hrun).1 4).mp ⟨_, rfl, rfl⟩

end Condrun
