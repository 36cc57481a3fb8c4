import Condrun.Proofs.PollRate

/-! By when the watcher has acted on a network that its predicates fail on, when evaluations take
`slack` at most and timers are late by no more. -/

namespace Condrun

variable {cfg : SupervisorConfig} {cmd : CommandSpec} {tr : List Entry} {ls : List Happening}
  {s s' : System Queue} {h : Happening} {en : Entry} {fs : Option ℕ} {slack T now l t : ℕ}

/-! The clock. -/

/-- The clock is not past what is due by more than `slack`. -/
def Punctual (slack : ℕ) (cfg : SupervisorConfig) (cmd : CommandSpec) (s : System Queue) : Prop :=
  ∀ f ∈ (s.sup.phase.awaits cfg cmd).branches, ∀ t ∈ s.due f, s.now ≤ t + slack

/-- Nothing is late when the supervisor has just stepped. -/
theorem punctual_of_now (hn : s.sup.now = s.now) : Punctual slack cfg cmd s := by
  intro f _ t ht
  cases f with
  | evaluate =>
    obtain rfl := Option.some.inj ht
    omega
  | sleep d =>
    obtain rfl := Option.some.inj ht
    omega
  | _ => cases ht

theorem run_punctual (hr : (boundedSystem slack cfg cmd).Run ls s) : Punctual slack cfg cmd s := by
  refine Lts.Run.invariant (P := Punctual slack cfg cmd) ?_ ?_ hr
  · intro s hi
    exact punctual_of_now hi.clock
  · rintro s h s' hp ⟨hst, hw⟩
    cases happens_of_step hst with
    | elapse d => exact hw
    | arrive | exit => exact hp
    | resume en hr => exact punctual_of_now hr.time

theorem Punctual.tick (h : Punctual slack cfg cmd s) (hp : s.sup.phase = .watching fs) :
    s.now ≤ s.sup.now + cfg.poll + slack := by
  refine h (.sleep cfg.poll) ?_ _ rfl
  rw [hp]
  simp [Phase.awaits]

theorem Punctual.evaluation (h : Punctual slack cfg cmd s) (hp : s.sup.phase = .evaluating fs) :
    s.now ≤ s.sup.now + slack := by
  refine h .evaluate ?_ _ rfl
  rw [hp]
  simp [Phase.awaits]

/-! The timer. -/

/-- How long it can take from one look to the next. -/
def roundTime (cfg : SupervisorConfig) (slack : ℕ) : ℕ := cfg.poll + 2 * slack

/-- By when the watcher acts, if the predicates fail from `T` on. -/
def deadline (cfg : SupervisorConfig) (slack T : ℕ) : ℕ :=
  T + cfg.debounce + 2 * roundTime cfg slack

/-- The debounce timer at a look at `l`, if the predicates fail from `T` on. -/
structure Counting (cfg : SupervisorConfig) (slack T l : ℕ) (fs : Option ℕ) : Prop where
  past : ∀ f ∈ fs, f ≤ l
  runs : l ≤ T ∨ ∃ f, fs = some f ∧ f ≤ T + roundTime cfg slack ∧ l < f + cfg.debounce

theorem Counting.none (h : l ≤ T) : Counting cfg slack T l none := ⟨by simp, Or.inl h⟩

/-- A failure a round later starts the timer or leaves it. -/
theorem Counting.fail (h : Counting cfg slack T l fs) (hl : l ≤ t)
    (ht : t ≤ l + roundTime cfg slack) (hd : t - fs.getD t < cfg.debounce) :
    Counting cfg slack T t (some (fs.getD t)) := by
  refine ⟨?_, Or.inr ⟨_, rfl, ?_, by omega⟩⟩
  · intro f hf
    obtain rfl := Option.some.inj hf
    cases fs with
    | none => exact Nat.le_refl t
    | some f => exact (h.past f rfl).trans hl
  · rcases h.runs with hle | ⟨f, rfl, hf, -⟩
    · cases fs with
      | none => exact ht.trans (Nat.add_le_add_right hle _)
      | some f => exact ((h.past f rfl).trans hle).trans (Nat.le_add_right _ _)
    · exact hf

theorem Counting.le_deadline (h : Counting cfg slack T l fs) (ht : t ≤ l + roundTime cfg slack) :
    t ≤ deadline cfg slack T := by
  unfold deadline
  rcases h.runs with hle | ⟨f, -, hf, hl⟩ <;> omega

/-! The watcher loop. -/

/-- From `T` on, at the spawn or after it, every evaluation of the watcher fails. -/
structure FailsSince (T : ℕ) (tr : List Entry) : Prop where
  spawned : ∀ t ∈ spawnTimes tr, t ≤ T
  fails : ∀ en ∈ watchEvals tr, T ≤ en.time → en.Failed

theorem FailsSince.of_snoc (h : FailsSince T (tr ++ [en])) : FailsSince T tr := by
  refine ⟨fun t ht => h.spawned t ?_, fun x hx => h.fails x ?_⟩
  · rw [spawnTimes_snoc]
    exact List.mem_append_left _ ht
  · by_cases hs : Spawned tr
    · simp only [watchEvals, sinceSpawn_snoc hs, List.filter_append] at hx ⊢
      exact List.mem_append_left _ hx
    · simp [watchEvals, sinceSpawn_of_not_spawned hs] at hx

/-- What the loop knows at the supervisor's last step, at `now`. -/
def Brisk (cfg : SupervisorConfig) (slack T now : ℕ) : Phase → Prop
  | .watching fs => Counting cfg slack T now fs
  | .evaluating fs => ∃ l ≤ now, now ≤ l + cfg.poll + slack ∧ Counting cfg slack T l fs
  | _ => True

theorem Counting.eval {res : PredicateResult} {p' : Phase} (h : Counting cfg slack T l fs)
    (hl : l ≤ t) (ht : t ≤ l + roundTime cfg slack)
    (hf : T ≤ t → Entry.Failed ⟨t, .evaluated res, p'⟩)
    (hm : Move cfg cmd t (.evaluating fs) (.evaluated res) p') :
    Brisk cfg slack T t p' ∧ (p' = .killing → t ≤ deadline cfg slack T) := by
  cases hm with
  | evalPass =>
    have hlt : ¬ T ≤ t := fun hle => by
      obtain ⟨reason, he⟩ := hf hle
      cases he
    exact ⟨Counting.none (Nat.le_of_not_le hlt), by simp⟩
  | evalWait _ reason hd => exact ⟨h.fail hl ht hd, by simp⟩
  | evalKill => exact ⟨trivial, fun _ => h.le_deadline ht⟩

theorem brisk_resume (hr : (system cfg cmd).Run ls s) (hp : Punctual slack cfg cmd s)
    (hf : FailsSince T (entries ls ++ [en])) (h : Brisk cfg slack T s.sup.now s.sup.phase)
    (hres : s.Resumes cfg cmd en) : Brisk cfg slack T en.time en.next ∧
      (en.next = .killing → en.time ≤ deadline cfg slack T) := by
  have hspawned := (spawned_iff_of_account (run_account (run_entries hr))).2
  have htick : ∀ fs, s.sup.phase = .watching fs → en.time ≤ s.sup.now + cfg.poll + slack :=
    fun fs hfs => hres.time ▸ hp.tick hfs
  have heval : ∀ fs, s.sup.phase = .evaluating fs → en.time ≤ s.sup.now + slack :=
    fun fs hfs => hres.time ▸ hp.evaluation hfs
  have hle := hres.mono
  have hm := hres.move
  obtain ⟨t, ev, p'⟩ := en
  simp only at hm hle htick heval ⊢
  generalize s.sup.phase = p at hm h hspawned htick heval
  generalize s.sup.now = now at h hle htick heval
  have hmove := hm
  cases hm with
  | spawnWatch =>
    refine ⟨Counting.none (hf.spawned t ?_), by simp⟩
    rw [spawnTimes_snoc]
    exact List.mem_append_right _ (List.mem_singleton_self t)
  | watchTick fs => exact ⟨⟨now, hle, htick fs rfl, h⟩, by simp⟩
  | evalPass fs | evalWait fs | evalKill fs =>
    obtain ⟨l, hl, hnow, hc⟩ := h
    have ht := heval fs rfl
    have hround : t ≤ l + roundTime cfg slack := by
      unfold roundTime
      omega
    refine hc.eval (hl.trans hle) hround (fun hT => hf.fails _ ?_ hT) hmove
    rw [watchEvals_snoc (hspawned fs rfl) rfl]
    exact List.mem_append_right _ (List.mem_singleton_self _)
  | _ => exact ⟨trivial, by simp⟩

theorem run_brisk (hr : (boundedSystem slack cfg cmd).Run ls s) (hf : FailsSince T (entries ls)) :
    Brisk cfg slack T s.sup.now s.sup.phase ∧
    ∀ en ∈ entries ls, en.next = .killing → en.time ≤ deadline cfg slack T := by
  induction hr with
  | nil hi =>
    rw [hi.phase]
    exact ⟨trivial, by simp [entries]⟩
  | @snoc ls s s' h hr hst ih =>
    cases happens_of_step hst.1 with
    | resume en hres =>
      rw [entries_snoc_resume] at hf ⊢
      obtain ⟨hb, hkills⟩ := ih hf.of_snoc
      obtain ⟨hb', hkill⟩ := brisk_resume hr.of_restrict (run_punctual hr) hf hb hres
      refine ⟨hb', ?_⟩
      intro x hx
      rcases List.mem_append.1 hx with hx | hx
      · exact hkills x hx
      · obtain rfl := List.mem_singleton.1 hx
        exact hkill
    | _ =>
      rw [entries_snoc_other rfl] at hf ⊢
      exact ih hf

/-- A watcher that has left its loop was ended by an exit, by a signal or by itself. -/
theorem loop_left {s : State} (hk : cfg.killOnChange = true) (hr : (supervisor cfg cmd).Run tr s)
    (hs : Spawned tr) (hw : ∀ fs, s.phase ≠ .watching fs) (he : ∀ fs, s.phase ≠ .evaluating fs) :
    watcherKills tr = 1 ∨ dequeued tr ≠ [] ∨ statuses tr ≠ [] := by
  have ha := run_account hr
  generalize hL : ledger cfg cmd tr = L at ha
  obtain ⟨-, hsp, hdeq, -, hkills, -, -, hst⟩ := shows_of_ledger hL
  rw [Spawned, hsp] at hs
  rw [hdeq, hkills, hst]
  generalize s.phase = p at ha hw he
  cases ha with
  | preflight | spawning => simp at hs
  | watching _ fs => exact absurd rfl (hw fs)
  | evaluating _ fs => exact absurd rfl (he fs)
  | plain hoff => simp [hk] at hoff
  | returned hend =>
    cases hend with
    | signalled | skipped | spawnFailed => simp at hs
    | _ => simp
  | _ => simp

/-- With evaluations that take `slack` at most and timers late by no more: where the predicates fail
from `T` on, the watcher kills by the deadline or not at all, and after it the loop is over. -/
theorem acts_by_deadline (hk : cfg.killOnChange = true)
    (hr : (boundedSystem slack cfg cmd).Run ls s) (hf : FailsSince T (entries ls)) :
    (∀ en ∈ entries ls, en.next = .killing → en.time ≤ deadline cfg slack T) ∧
    (Spawned (entries ls) → deadline cfg slack T < s.now → watcherKills (entries ls) = 1 ∨
      dequeued (entries ls) ≠ [] ∨ statuses (entries ls) ≠ []) := by
  obtain ⟨hb, hkills⟩ := run_brisk hr hf
  have hp := run_punctual hr
  refine ⟨hkills, fun hs hlate => ?_⟩
  refine loop_left hk (run_entries hr.of_restrict) hs ?_ ?_
  · intro fs hfs
    have hnow := hp.tick hfs
    rw [hfs] at hb
    have hc : Counting cfg slack T s.sup.now fs := hb
    have := hc.le_deadline (t := s.now) (by unfold roundTime; omega)
    omega
  · intro fs hfs
    have hnow := hp.evaluation hfs
    rw [hfs] at hb
    obtain ⟨l, -, hl, hc⟩ := hb
    have := hc.le_deadline (t := s.now) (by unfold roundTime; omega)
    omega

/-- With poll 2, debounce 3 and a slack of 1: both ticks and both evaluations are late. -/
def slackLooks : List Happening :=
  [.resume ⟨0, .evaluated .pass, .spawning⟩,
    .resume ⟨0, .spawned ⟨"echo", ["hello"]⟩ (.ok ()), .watching none⟩, .elapse 3,
    .resume ⟨3, .elapsed 2, .evaluating none⟩, .elapse 1,
    .resume ⟨4, .evaluated (.fail "metered"), .watching (some 4)⟩, .elapse 3,
    .resume ⟨7, .elapsed 2, .evaluating (some 4)⟩, .elapse 1,
    .resume ⟨8, .evaluated (.fail "metered"), .killing⟩, .elapse 9]

/-- Runs of the bounded system can be replayed. -/
theorem boundedSystem_run (hs : List Happening)
    (h : hs.foldlM (fun s h => if s.Within slack cfg cmd h then s.step cfg cmd h else none)
      ⟨⟨.preflight, 0⟩, 0, .absent, []⟩ = some s) : (boundedSystem slack cfg cmd).Run hs s := by
  refine Lts.Run.foldlM (m := boundedSystem slack cfg cmd) ?_ (.nil ⟨rfl, rfl, rfl, rfl⟩) h
  intro s h s' hst
  obtain ⟨hw, hst⟩ := Option.ite_none_right_eq_some.mp hst
  exact ⟨hst, hw⟩

theorem acts_by_deadline_slack : watcherKills (entries slackLooks) = 1 ∨
    dequeued (entries slackLooks) ≠ [] ∨ statuses (entries slackLooks) ≠ [] := by
  have hrun : (boundedSystem 1 ⟨false, true, 1, 2, 3⟩ ⟨"echo", ["hello"]⟩).Run slackLooks
      ⟨⟨.killing, 8⟩, 17, .running, []⟩ := boundedSystem_run slackLooks (by decide)
  have hf : FailsSince 3 (entries slackLooks) := by
    refine ⟨by decide, ?_⟩
    intro en hen _
    have hmem : en ∈ [Entry.mk 4 (.evaluated (.fail "metered")) (.watching (some 4)),
        ⟨8, .evaluated (.fail "metered"), .killing⟩] := hen
    rcases List.mem_pair.mp hmem with rfl | rfl
    · exact ⟨"metered", rfl⟩
    · exact ⟨"metered", rfl⟩
  have hs : Spawned (entries slackLooks) := List.mem_singleton_self _
  exact (acts_by_deadline rfl hrun hf).2 hs (by decide)

end Condrun
