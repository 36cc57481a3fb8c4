import Condrun.Proofs.Moves
import Condrun.Spec.System

/-! What one happening of the system does, and what every run of it keeps. -/

namespace Condrun

variable {Q : Type} [Source Q] {cfg : SupervisorConfig} {cmd : CommandSpec}
  {ls : List Happening} {s s' : System Q} {h : Happening} {en : Entry}

/-! The queue. -/

@[simp] theorem Queue.arrive_eq (q : Queue) (sig : SignalKind) :
    Source.arrive q sig = q ++ [sig] := rfl

@[simp] theorem Queue.take_eq (q : Queue) (sig : SignalKind) : Source.take q sig = q.tail := rfl

theorem Queue.offers_eq_nil {q : Queue} : Source.offers q = [] ↔ q = [] := by
  cases q <;> simp [Source.offers]

theorem Queue.mem_offers {q : Queue} {sig : SignalKind} :
    sig ∈ Source.offers q ↔ q.head? = some sig := Option.mem_toList

/-- What one happening does, said once. -/
inductive Happens (cfg : SupervisorConfig) (cmd : CommandSpec) (s : System Q) :
    Happening → System Q → Prop
  | elapse (d : ℕ) : Happens cfg cmd s (.elapse d) { s with now := s.now + d }
  | arrive (sig : SignalKind) :
      Happens cfg cmd s (.arrive sig) { s with pending := Source.arrive s.pending sig }
  | exit (st : ExitStatus) (hc : s.child = .running) :
      Happens cfg cmd s (.exit st) { s with child := .exited st s.now }
  | resume (en : Entry) (hr : s.Resumes cfg cmd en) : Happens cfg cmd s (.resume en) (s.after en)

theorem happens_of_step (hst : (systemOver Q cfg cmd).step s h s') : Happens cfg cmd s h s' := by
  have hst : s.step cfg cmd h = some s' := hst
  cases h with
  | elapse d =>
    obtain rfl := Option.some.inj hst
    exact .elapse d
  | arrive sig =>
    obtain rfl := Option.some.inj hst
    exact .arrive sig
  | exit st =>
    rw [System.step] at hst
    split_ifs at hst with hc
    obtain rfl := Option.some.inj hst
    exact .exit st hc
  | resume en =>
    rw [System.step] at hst
    split_ifs at hst with hr
    obtain rfl := Option.some.inj hst
    exact .resume en hr

/-- Runs can be replayed from what happens. -/
theorem system_run {s : System Queue} (hs : List Happening)
    (h : hs.foldlM (System.step cfg cmd) ⟨⟨.preflight, 0⟩, 0, .absent, []⟩ = some s) :
    (system cfg cmd).Run hs s :=
  Lts.Run.foldlM (m := system cfg cmd) (fun _ _ _ h => h) (.nil ⟨rfl, rfl, rfl, rfl⟩) h

theorem System.Resumes.step (hr : s.Resumes cfg cmd en) :
    Step cfg cmd s.sup en ⟨en.next, en.time⟩ := ⟨hr.mono, hr.wins.mem, hr.resumes, rfl⟩

theorem System.Resumes.move (hr : s.Resumes cfg cmd en) :
    Move cfg cmd en.time s.sup.phase en.event en.next := hr.step.move

/-- The supervisor's part of a run of the system is a run of the supervisor. -/
theorem run_entries (hr : (systemOver Q cfg cmd).Run ls s) :
    (supervisor cfg cmd).Run (entries ls) s.sup := by
  refine Lts.Run.map (f := Happening.entry?) (g := System.sup) ?_ ?_ hr
  · intro s hi
    exact hi.phase
  · intro s h s' hst
    cases happens_of_step hst with
    | resume en hr => exact hr.step
    | _ => rfl

theorem entries_snoc_resume : entries (ls ++ [.resume en]) = entries ls ++ [en] := by
  simp [entries, Happening.entry?]

/-- What happens beside the supervisor is no step of it. -/
theorem entries_snoc_other (hn : h.entry? = none) : entries (ls ++ [h]) = entries ls := by
  simp [entries, hn]

theorem mem_entries : en ∈ entries ls ↔ .resume en ∈ ls := by
  simp only [entries, List.mem_filterMap]
  refine ⟨?_, ?_⟩
  · rintro ⟨h, hm, he⟩
    cases h with
    | resume en' => exact Option.some.inj he ▸ hm
    | elapse | arrive | exit => cases he
  · intro hm
    exact ⟨.resume en, hm, rfl⟩

/-- The child is spawned by the step that leaves `spawning`, and by no other. -/
theorem after_child (hr : s.Resumes cfg cmd en) :
    (s.after en).child = s.child ∨ (s.sup.phase = .spawning ∧ (s.after en).child = .running) := by
  have hm := hr.move
  obtain ⟨t, ev, p'⟩ := en
  simp only at hm
  generalize s.sup.phase = p at hm
  cases hm with
  | spawnWatch | spawnPlain => exact Or.inr ⟨rfl, rfl⟩
  | _ => exact Or.inl rfl

/-- The biased `select!` of the watcher loop: exit before signal before tick. -/
theorem tick_wins {fs : Option ℕ} {d : ℕ} (hr : s.Resumes cfg cmd en)
    (hp : s.sup.phase = .watching fs) (he : en.event = .elapsed d) :
    s.child.status? = none ∧ Source.offers s.pending = [] ∧ d = cfg.poll ∧
      s.sup.now + cfg.poll ≤ s.now := by
  have hw := hr.wins
  rw [hp, he] at hw
  simp only [Phase.awaits, Event.fut, Select.wins_biased_cons, reduceCtorEq, false_and, false_or,
    Fut.sleep.injEq, System.Ready, not_not, Option.not_isSome_iff_eq_none] at hw
  obtain ⟨hexit, hsig, ⟨hd, hle⟩ | ⟨-, hnil⟩⟩ := hw
  · exact ⟨hexit, hsig, hd, hle⟩
  · exact absurd hnil Select.wins_biased_nil

/-- The supervisor's last step is not after the present. -/
theorem run_clock (hr : (systemOver Q cfg cmd).Run ls s) : s.sup.now ≤ s.now := by
  refine Lts.Run.invariant (P := fun s => s.sup.now ≤ s.now) ?_ ?_ hr
  · intro s hi
    exact hi.clock.le
  · intro s h s' hle hst
    cases happens_of_step hst with
    | elapse d => exact hle.trans (Nat.le_add_right _ d)
    | arrive | exit => exact hle
    | resume en hr => exact hr.time.le

/-- There is no child before the spawn. -/
theorem run_gate (hr : (systemOver Q cfg cmd).Run ls s) :
    s.sup.phase = .preflight ∨ s.sup.phase = .spawning → s.child = .absent := by
  refine Lts.Run.invariant
    (P := fun s => s.sup.phase = .preflight ∨ s.sup.phase = .spawning → s.child = .absent) ?_ ?_ hr
  · intro s hi _
    exact hi.child
  · intro s h s' hgate hst hp
    cases happens_of_step hst with
    | elapse | arrive => exact hgate hp
    | exit st hc =>
      rw [hgate hp] at hc
      cases hc
    | resume en hr =>
      have hm := hr.move
      obtain ⟨t, ev, p'⟩ := en
      simp only at hm
      generalize hph : s.sup.phase = p at hm
      cases hm with
      | gatePass => exact hgate (Or.inl hph)
      | _ => simp [System.after] at hp

/-- A child that exited stays exited. -/
theorem exited_step {st : ExitStatus} {t : ℕ} (hr : (systemOver Q cfg cmd).Run ls s)
    (hc : s.child = .exited st t) (hh : Happens cfg cmd s h s') : s'.child = .exited st t := by
  cases hh with
  | elapse | arrive => exact hc
  | exit st' hrun =>
    rw [hrun] at hc
    cases hc
  | resume en hres =>
    rcases after_child hres with he | ⟨hp, -⟩
    · exact he.trans hc
    · rw [run_gate hr (Or.inr hp)] at hc
      cases hc

theorem run_exited {st : ExitStatus} (hr : (systemOver Q cfg cmd).Run ls s) (hm : .exit st ∈ ls) :
    ∃ t, s.child = .exited st t := by
  induction hr with
  | nil => cases hm
  | snoc hr hst ih =>
    have hh := happens_of_step hst
    rcases List.mem_append.1 hm with hm | hm
    · obtain ⟨t, ht⟩ := ih hm
      exact ⟨t, exited_step hr ht hh⟩
    · obtain rfl := List.mem_singleton.1 hm
      cases hh with
      | exit _ hc => exact ⟨_, rfl⟩

end Condrun
