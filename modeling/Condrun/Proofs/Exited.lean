import Condrun.Proofs.System

/-! When a child that finished by itself is not terminated, and what is returned for it. -/

namespace Condrun

variable {cfg : SupervisorConfig} {cmd : CommandSpec} {ls : List Happening} {s s' : System Queue}
  {h : Happening} {en : Entry} {st : ExitStatus}

/-- `terminate` is called only on a child that has not exited. -/
def KillsRunning (cfg : SupervisorConfig) (cmd : CommandSpec) (s : System Queue) (h : Happening)
    (_ : System Queue) : Prop :=
  ∀ en, h = .resume en → CallsTerminate cfg cmd en → s.child.status? = none

/-- The child does not exit between the tick and a failure that is `debounce` into its block, and is
not ready to be waited for when a second signal is taken. -/
def Prompt (cfg : SupervisorConfig) (s : System Queue) (h : Happening) (_ : System Queue) : Prop :=
  ∀ en, h = .resume en →
    (∀ fs reason, s.sup.phase = .evaluating fs → en.event = .evaluated (.fail reason) →
      cfg.debounce ≤ en.time - fs.getD en.time →
      ∀ st t, s.child = .exited st t → t < s.sup.now) ∧
    (∀ sig, s.sup.phase = .escalating .racing → en.event = .signalled sig →
      ¬ s.Ready (.child .wait))

/-- While an evaluation is under way, an exited child exited after the tick. -/
theorem run_evaluating (hr : (system cfg cmd).Run ls s) {fs : Option ℕ} {t : ℕ}
    (hp : s.sup.phase = .evaluating fs) (hc : s.child = .exited st t) : s.sup.now ≤ t := by
  induction hr with
  | nil hi =>
    rw [hi.phase] at hp
    cases hp
  | @snoc ls s s' h hr hst ih =>
    have hh := happens_of_step hst
    cases hh with
    | elapse | arrive => exact ih hp hc
    | exit st' hrun =>
      obtain ⟨-, rfl⟩ := Child.exited.inj hc
      exact (run_clock hr : s.sup.now ≤ s.now)
    | resume en hres =>
      have hm := hres.move
      have hchild := after_child hres
      obtain ⟨t', ev, p'⟩ := en
      simp only [System.after] at hp hm hc hchild
      subst hp
      generalize hph : s.sup.phase = p at hm hchild
      cases hm with
      | watchTick =>
        have hnone := (tick_wins hres hph rfl).1
        simp only [hc] at hnone
        cases hnone

/-- Before `terminate` is called the supervisor has no child, watches over it, or returned the code
of its status. -/
def Unhurt (c : Child) : Phase → Prop
  | .preflight | .spawning => c = .absent
  | .watching _ | .evaluating _ | .plain | .forwarding _ | .escalating .racing => True
  | .killing | .draining | .escalating .terminating | .escalating .draining => False
  | .returned r => c = .absent ∨ ∃ st t, c = .exited st t ∧ r = .ok (exitCode st)

theorem Unhurt.exit {p : Phase} {t : ℕ} (hu : Unhurt .running p) : Unhurt (.exited st t) p := by
  cases p with
  | preflight | spawning => cases hu
  | returned r =>
    rcases hu with hu | ⟨st, t, hu, -⟩
    · cases hu
    · cases hu
  | escalating e => cases e <;> exact hu
  | _ => exact hu

theorem exited_of_status (hs : s.child.status? = some st) : ∃ t, s.child = .exited st t := by
  cases hc : s.child with
  | exited st' t =>
    rw [hc] at hs
    obtain rfl := Option.some.inj hs
    exact ⟨t, rfl⟩
  | absent | running =>
    rw [hc] at hs
    cases hs

theorem Unhurt.resume (hu : Unhurt s.child s.sup.phase) (hr : s.Resumes cfg cmd en)
    (hc : ¬ CallsTerminate cfg cmd en) : Unhurt (s.after en).child en.next := by
  have hm := hr.move
  have hy := hr.yields
  obtain ⟨t, ev, p'⟩ := en
  rw [callsTerminate_iff] at hc
  simp only at hm hy hc
  generalize s.sup.phase = p at hm hu
  cases hm with
  | gatePass => exact hu
  | gateFail | gateSignal => exact Or.inl hu
  | spawnFail => exact Or.inl hu
  | watchExit fs st | plainExit st | escExit st =>
    obtain ⟨t, ht⟩ := exited_of_status hy
    exact Or.inr ⟨st, t, ht, rfl⟩
  | evalKill | escSignal => simp at hc
  | killOk | killFail | drained | escTerminated | escDrained => exact hu.elim
  | _ => exact trivial

/-- A run that never called `terminate` leaves the child unhurt. -/
theorem run_unhurt (hr : (system cfg cmd).Run ls s)
    (hn : ∀ en ∈ entries ls, ¬ CallsTerminate cfg cmd en) : Unhurt s.child s.sup.phase := by
  induction hr with
  | nil hi =>
    rw [hi.phase]
    exact hi.child
  | @snoc ls s s' h hr hst ih =>
    cases happens_of_step hst with
    | elapse | arrive =>
      rw [entries_snoc_other rfl] at hn
      exact ih hn
    | exit st hc =>
      rw [entries_snoc_other rfl] at hn
      have hu := ih hn
      rw [hc] at hu
      exact hu.exit
    | resume en hres =>
      rw [entries_snoc_resume, List.forall_mem_append] at hn
      exact (ih hn.1).resume hres (hn.2 en (List.mem_singleton_self en))

/-- When every `terminate` meets a running child, an exit that comes first is the last word: the
child is never terminated, and what is returned is the code of its own status. -/
def OwnStatus (cfg : SupervisorConfig) (cmd : CommandSpec) (ls : List Happening)
    (s : System Queue) : Prop :=
  ∀ pre st post, ls = pre ++ .exit st :: post →
    (∀ en ∈ entries pre, ¬ CallsTerminate cfg cmd en) →
    (∀ en ∈ entries ls, ¬ CallsTerminate cfg cmd en) ∧
      ∀ r, s.sup.phase = .returned r → r = .ok (exitCode st)

theorem run_ownStatus (hr : (system cfg cmd).Run ls s)
    (ha : (system cfg cmd).Always (KillsRunning cfg cmd) ls) : OwnStatus cfg cmd ls s := by
  intro pre st post he hpre
  have hn : ∀ en ∈ entries ls, ¬ CallsTerminate cfg cmd en := by
    intro en hen hc
    rw [mem_entries, he] at hen
    rcases List.mem_append.1 hen with hm | hm
    · exact hpre en (mem_entries.mpr hm) hc
    · obtain ⟨a, b, hab⟩ := List.append_of_mem ((List.mem_cons.1 hm).resolve_left (by simp))
      have hls : ls = (pre ++ .exit st :: a) ++ .resume en :: b := by simp [he, hab]
      obtain ⟨x, y, hx, hxy, -⟩ := Lts.Run.split (hls ▸ hr)
      have hnone := ha _ _ _ hls x y hx hxy en rfl hc
      obtain ⟨t, ht⟩ := run_exited hx (show Happening.exit st ∈ _ by simp)
      rw [ht] at hnone
      cases hnone
  refine ⟨hn, fun r hret => ?_⟩
  have hu := run_unhurt hr hn
  obtain ⟨t, ht⟩ := run_exited hr (show Happening.exit st ∈ _ by simp [he])
  rw [hret, ht] at hu
  rcases hu with hu | ⟨st', t', hu, hres⟩
  · cases hu
  · obtain ⟨rfl, -⟩ := Child.exited.inj hu
    exact hres

theorem killsRunning_iff_prompt (hr : (system cfg cmd).Run ls s)
    (hst : (system cfg cmd).step s h s') : KillsRunning cfg cmd s h s' ↔ Prompt cfg s h s' := by
  cases happens_of_step hst with
  | elapse | arrive | exit => exact iff_of_true (fun _ he => by cases he) (fun _ he => by cases he)
  | resume en hres =>
    refine ⟨?_, ?_⟩
    · rintro hk _ ⟨⟩
      refine ⟨fun fs reason hp he hd st t hc => ?_, fun sig hp he hready => ?_⟩
      · have hm := hres.resumes
        have hkill : Move cfg cmd en.time (.evaluating fs) (.evaluated (.fail reason)) .killing :=
          .evalKill fs reason hd
        rw [hp, he, hkill.resumes] at hm
        have hnone := hk en rfl (callsTerminate_iff.mpr (Or.inl (Option.some.inj hm).symm))
        rw [hc] at hnone
        cases hnone
      · have hm := hres.resumes
        rw [hp, he] at hm
        have hnone := hk en rfl (callsTerminate_iff.mpr (Or.inr (Option.some.inj hm).symm))
        rw [System.Ready, hnone] at hready
        cases hready
    · rintro hk _ ⟨⟩ hc
      obtain ⟨hkill, hesc⟩ := hk en rfl
      rcases callsTerminate_cases hres.move hc with
        ⟨-, fs, reason, hp, he, hd⟩ | ⟨-, hp, sig, he⟩
      · cases hch : s.child with
        | exited st t =>
          have hlt := hkill fs reason hp he hd st t hch
          have hle := run_evaluating hr hp hch
          omega
        | absent | running => rfl
      · have hnr := hesc sig hp he
        simpa [System.Ready] using hnr

/-- A child that finished by itself is never terminated exactly in the runs that are prompt, and in
these it is reported with its own status. -/
theorem exited_child_spared (hr : (system cfg cmd).Run ls s) :
    ((system cfg cmd).Always (KillsRunning cfg cmd) ls ↔ (system cfg cmd).Always (Prompt cfg) ls) ∧
    ((system cfg cmd).Always (Prompt cfg) ls → OwnStatus cfg cmd ls s) := by
  have hiff := Lts.always_congr (m := system cfg cmd)
    (fun _ _ _ _ hr hst => killsRunning_iff_prompt hr hst) ls
  exact ⟨hiff, fun hp => run_ownStatus hr (hiff.mpr hp)⟩

/-- The child succeeds while an evaluation that will pass is under way. -/
def exitsBeforePass : List Happening :=
  [.resume ⟨0, .evaluated .pass, .spawning⟩,
    .resume ⟨0, .spawned ⟨"echo", ["hello"]⟩ (.ok ()), .watching none⟩, .elapse 1,
    .resume ⟨1, .elapsed 1, .evaluating none⟩, .elapse 1, .exit ⟨0⟩,
    .resume ⟨2, .evaluated .pass, .watching none⟩,
    .resume ⟨2, .exited ⟨0⟩, .returned (.ok 0)⟩]

theorem exited_child_spared_passes :
    OwnStatus ⟨false, true, 1, 1, 0⟩ ⟨"echo", ["hello"]⟩ exitsBeforePass
      ⟨⟨.returned (.ok 0), 2⟩, 2, .exited ⟨0⟩ 2, []⟩ := by
  have hrun : (system ⟨false, true, 1, 1, 0⟩ ⟨"echo", ["hello"]⟩).Run exitsBeforePass
      ⟨⟨.returned (.ok 0), 2⟩, 2, .exited ⟨0⟩ 2, []⟩ := system_run _ (by decide)
  have hnone : ∀ en ∈ entries exitsBeforePass,
      ¬ CallsTerminate ⟨false, true, 1, 1, 0⟩ ⟨"echo", ["hello"]⟩ en := by decide
  obtain ⟨hiff, hown⟩ := exited_child_spared hrun
  refine hown (hiff.mp fun pre h post he a b _ _ en hen hc => ?_)
  exact absurd hc (hnone en (mem_entries.mpr (by rw [he, hen]; simp)))

/-- The child succeeds while an evaluation that will fail is under way. -/
def exitsBeforeFail : List Happening :=
  [.resume ⟨0, .evaluated .pass, .spawning⟩,
    .resume ⟨0, .spawned ⟨"echo", ["hello"]⟩ (.ok ()), .watching none⟩, .elapse 1,
    .resume ⟨1, .elapsed 1, .evaluating none⟩, .elapse 1, .exit ⟨0⟩,
    .resume ⟨2, .evaluated (.fail "metered"), .killing⟩,
    .resume ⟨2, .terminated 1 (.ok ()), .draining⟩,
    .resume ⟨2, .exited ⟨0⟩, .returned (.ok 3)⟩]

/-- The backup that succeeded is terminated and reported as killed. -/
theorem exited_child_killed : ¬ ∀ ls s,
    (system ⟨false, true, 1, 1, 0⟩ ⟨"echo", ["hello"]⟩).Run ls s →
    (system ⟨false, true, 1, 1, 0⟩ ⟨"echo", ["hello"]⟩).Always
      (KillsRunning ⟨false, true, 1, 1, 0⟩ ⟨"echo", ["hello"]⟩) ls ∧
    OwnStatus ⟨false, true, 1, 1, 0⟩ ⟨"echo", ["hello"]⟩ ls s := by
  intro hall
  have hrun : (system ⟨false, true, 1, 1, 0⟩ ⟨"echo", ["hello"]⟩).Run exitsBeforeFail
      ⟨⟨.returned (.ok 3), 2⟩, 2, .exited ⟨0⟩ 2, []⟩ := system_run _ (by decide)
  obtain ⟨-, hown⟩ := hall _ _ hrun
  obtain ⟨-, hcode⟩ := hown (exitsBeforeFail.take 5) ⟨0⟩ (exitsBeforeFail.drop 6) rfl (by decide)
  have h3 := hcode (.ok 3) rfl
  revert h3
  decide

end Condrun
