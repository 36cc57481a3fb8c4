import Condrun.Proofs.Account
import Condrun.Proofs.Exited

/-! How long the watch over a running child lasts. -/

namespace Condrun

variable {cfg : SupervisorConfig} {cmd : CommandSpec} {tr : List Entry} {ls : List Happening}
  {s s' : System Queue} {h : Happening} {en : Entry}

/-- The instant of a step that spawned the child or made an evaluation. -/
def Entry.look? (en : Entry) : Option ℕ :=
  if en.event.verdict?.isSome ∨ en.event.spawn? = some (.ok ()) then some en.time else none

/-- The later of the spawn and the last evaluation. -/
def lastLook (tr : List Entry) : Option ℕ := (tr.filterMap Entry.look?).getLast?

/-- At most `poll` has passed since the child was last looked after. -/
def Watched (cfg : SupervisorConfig) (ls : List Happening) (s : System Queue) : Prop :=
  ∃ t, lastLook (entries ls) = some t ∧ s.now ≤ t + cfg.poll

theorem lastLook_snoc : lastLook (tr ++ [en]) = en.look?.or (lastLook tr) := by
  unfold lastLook
  rw [List.filterMap_snoc, List.getLast?_append]
  cases en.look? <;> rfl

/-- The watcher loop came to its top at the last look, or ticked no later than `poll` after it. -/
def WatchedIn (cfg : SupervisorConfig) (tr : List Entry) (since now : ℕ) : Phase → Prop
  | .watching _ => lastLook tr = some since ∧ now ≤ since + cfg.poll
  | .evaluating _ => now = since ∧ ∃ t, lastLook tr = some t ∧ now ≤ t + cfg.poll
  | _ => True

theorem watchedIn_elapse {d : ℕ} (hw : WatchedIn cfg tr s.sup.now s.now s.sup.phase)
    (hx : s.Exact cfg cmd (.elapse d)) :
    WatchedIn cfg tr s.sup.now (s.now + d) s.sup.phase := by
  cases hp : s.sup.phase with
  | watching fs =>
    rw [hp] at hw
    refine ⟨hw.1, hx (.sleep cfg.poll) ?_ _ rfl⟩
    simp [hp, Phase.awaits]
  | evaluating fs =>
    rw [hp] at hw
    obtain ⟨hnow, t, ht, hle⟩ := hw
    have hd : s.now + d ≤ s.sup.now := hx .evaluate (by simp [hp, Phase.awaits]) _ rfl
    obtain rfl : d = 0 := by omega
    exact ⟨hnow, t, ht, hle⟩
  | _ => exact trivial

theorem watchedIn_resume (hw : WatchedIn cfg tr s.sup.now s.now s.sup.phase)
    (hr : s.Resumes cfg cmd en) : WatchedIn cfg (tr ++ [en]) en.time s.now en.next := by
  have hm := hr.move
  have ht := hr.time
  obtain ⟨t, ev, p'⟩ := en
  simp only at hm ht
  subst ht
  generalize s.sup.phase = p at hm hw
  cases hm with
  | spawnWatch | evalPass | evalWait =>
    refine ⟨?_, Nat.le_add_right _ _⟩
    rw [lastLook_snoc]
    rfl
  | watchTick =>
    refine ⟨rfl, s.sup.now, ?_, hw.2⟩
    rw [lastLook_snoc]
    exact hw.1
  | _ => exact trivial

theorem run_watchedIn (hr : (exactSystem cfg cmd).Run ls s) :
    WatchedIn cfg (entries ls) s.sup.now s.now s.sup.phase := by
  induction hr with
  | nil hi =>
    rw [show _ = Phase.preflight from hi.phase]
    exact trivial
  | @snoc ls s s' h hr hst ih =>
    obtain ⟨hst, hx⟩ := hst
    cases happens_of_step hst with
    | elapse d =>
      rw [entries_snoc_other rfl]
      exact watchedIn_elapse ih hx
    | arrive sig | exit st =>
      rw [entries_snoc_other rfl]
      exact ih
    | resume en hres =>
      rw [entries_snoc_resume]
      show WatchedIn cfg (entries ls ++ [en]) en.time s.now en.next
      exact watchedIn_resume ih hres

/-- Until a signal is dequeued or `terminate` is called, a running child is in the watcher loop. -/
theorem phase_of_running (hr : (system cfg cmd).Run ls s) (hk : cfg.killOnChange = true)
    (hc : s.child = .running) (hn : ∀ en ∈ entries ls, ¬ CallsTerminate cfg cmd en)
    (hd : dequeued (entries ls) = []) :
    ∃ fs, s.sup.phase = .watching fs ∨ s.sup.phase = .evaluating fs := by
  have hu := run_unhurt hr hn
  have ha := run_account (run_entries hr)
  rw [hc] at hu
  generalize hL : ledger cfg cmd (entries ls) = L at ha
  obtain ⟨-, -, hd', -⟩ := shows_of_ledger hL
  rw [hd'] at hd
  generalize s.sup.phase = p at ha hu
  cases ha with
  | preflight | spawning => cases hu
  | watching _ fs => exact ⟨fs, Or.inl rfl⟩
  | evaluating _ fs => exact ⟨fs, Or.inr rfl⟩
  | killing | draining | terminating | escDraining => exact hu.elim
  | plain hk' =>
    rw [hk] at hk'
    cases hk'
  | forwarding | racing => cases hd
  | returned =>
    rcases hu with hu | ⟨_, _, hu, _⟩
    · cases hu
    · cases hu

/-- After a signal was dequeued nothing is evaluated. -/
theorem no_look_after_signal {s : State} (hr : (supervisor cfg cmd).Run tr s)
    {pre post : List Entry} {sig : SignalKind} (he : tr = pre ++ en :: post)
    (hev : en.event = .signalled sig) :
    ∀ en' ∈ post, en'.event.verdict? = none := by
  intro en' hen'
  obtain ⟨mid, rest, rfl⟩ := List.append_of_mem hen'
  have hsplit : tr = (pre ++ en :: mid) ++ en' :: rest := by simp [he]
  obtain ⟨a, b, ha, hab, -⟩ := Lts.Run.split (hsplit ▸ hr)
  have hacc := run_account ha
  have hd : sig ∈ dequeued (pre ++ en :: mid) := by simp [dequeued, hev, Event.sig?]
  have hm := hab.move
  generalize hL : ledger cfg cmd (pre ++ en :: mid) = L at hacc
  obtain ⟨-, -, hd', -⟩ := shows_of_ledger hL
  rw [hd'] at hd
  obtain ⟨t, ev, p'⟩ := en'
  simp only at hm ⊢
  generalize a.phase = p at hacc hm
  cases hm with
  | gatePass | gateFail | evalPass | evalWait | evalKill =>
    cases hacc
    cases hd
  | _ => rfl

/-- With instantaneous evaluations and exact timers the watch over a running child never lapses for
longer than `poll`, up to the first signal; then it is over. -/
theorem watch_until_signal (hr : (exactSystem cfg cmd).Run ls s) (hk : cfg.killOnChange = true) :
    (s.child = .running → (∀ en ∈ entries ls, ¬ CallsTerminate cfg cmd en) →
      dequeued (entries ls) = [] → Watched cfg ls s) ∧
    (∀ pre en post sig, entries ls = pre ++ en :: post → en.event = .signalled sig →
      ∀ en' ∈ post, en'.event.verdict? = none) := by
  have hsys : (system cfg cmd).Run ls s := hr.of_restrict
  refine ⟨fun hc hn hd => ?_, fun pre en post sig he hev => ?_⟩
  · have hw := run_watchedIn hr
    obtain ⟨fs, hp | hp⟩ := phase_of_running hsys hk hc hn hd
    · rw [hp] at hw
      exact ⟨s.sup.now, hw.1, hw.2⟩
    · rw [hp] at hw
      exact hw.2
  · exact no_look_after_signal (run_entries hsys) he hev

theorem exactSystem_run (hs : List Happening)
    (h : hs.foldlM (fun s h => if s.Exact cfg cmd h then s.step cfg cmd h else none)
      ⟨⟨.preflight, 0⟩, 0, .absent, []⟩ = some s) : (exactSystem cfg cmd).Run hs s := by
  refine Lts.Run.foldlM (m := exactSystem cfg cmd) ?_ (.nil ⟨rfl, rfl, rfl, rfl⟩) h
  intro s h s' hst
  split_ifs at hst with hx
  exact ⟨hst, hx⟩

/-- A tick and an evaluation that fails for the first time. -/
def failsOnce : List Happening :=
  [.resume ⟨0, .evaluated .pass, .spawning⟩,
    .resume ⟨0, .spawned ⟨"echo", ["hello"]⟩ (.ok ()), .watching none⟩, .elapse 2,
    .resume ⟨2, .elapsed 2, .evaluating none⟩,
    .resume ⟨2, .evaluated (.fail "metered"), .watching (some 2)⟩, .elapse 1]

theorem watch_until_signal_fails_once : Watched ⟨false, true, 1, 2, 5⟩ failsOnce
    ⟨⟨.watching (some 2), 2⟩, 3, .running, []⟩ := by
  have hrun : (exactSystem ⟨false, true, 1, 2, 5⟩ ⟨"echo", ["hello"]⟩).Run failsOnce
      ⟨⟨.watching (some 2), 2⟩, 3, .running, []⟩ := exactSystem_run _ (by decide)
  exact (watch_until_signal hrun rfl).1 rfl (by decide) (by decide)

/-- A child that survives the `SIGHUP` forwarded to it. -/
def survivesHup : List Happening :=
  [.resume ⟨0, .evaluated .pass, .spawning⟩,
    .resume ⟨0, .spawned ⟨"echo", ["hello"]⟩ (.ok ()), .watching none⟩, .arrive .hup,
    .resume ⟨0, .signalled .hup, .forwarding .hup⟩,
    .resume ⟨0, .signalSent .hup (.ok ()), .escalating .racing⟩, .elapse 100]

/-- The child is still running, and was not looked after for a hundred times `poll`. -/
theorem watch_ends_at_hup : ¬ ∀ ls s,
    (exactSystem ⟨false, true, 1, 1, 0⟩ ⟨"echo", ["hello"]⟩).Run ls s → s.child = .running →
    (∀ en ∈ entries ls, ¬ CallsTerminate ⟨false, true, 1, 1, 0⟩ ⟨"echo", ["hello"]⟩ en) →
    Watched ⟨false, true, 1, 1, 0⟩ ls s := by
  intro hall
  have hrun : (exactSystem ⟨false, true, 1, 1, 0⟩ ⟨"echo", ["hello"]⟩).Run survivesHup
      ⟨⟨.escalating .racing, 0⟩, 100, .running, []⟩ := exactSystem_run _ (by decide)
  obtain ⟨t, ht, hle⟩ := hall _ _ hrun rfl (by decide)
  obtain rfl : 0 = t := Option.some.inj ht
  revert hle
  decide

end Condrun
