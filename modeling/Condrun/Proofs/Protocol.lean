import Condrun.Proofs.Account
import Condrun.Proofs.System

/-! The account of signals: what arrives is dequeued in order, what is dequeued has one effect, and
the operations on the child follow from it. -/

namespace Condrun

variable {cfg : SupervisorConfig} {cmd : CommandSpec} {tr : List Entry} {s s' : State} {en : Entry}
  {ls : List Happening}

/-- The operations completed on a child whose run returned `Ok`, by the signals dequeued. -/
inductive OpSequence (grace : ℕ) : List SignalKind → List ChildOp → Prop
  | exits : OpSequence grace [] [.wait]
  | forwards (k1 : SignalKind) : OpSequence grace [k1] [.signal k1, .wait]
  | escalates (k1 k2 : SignalKind) :
      OpSequence grace [k1, k2] [.signal k1, .terminate grace, .wait]
  | kills : OpSequence grace [] [.terminate grace, .wait]

/-- The `signal` and `terminate` calls made so far on a child, by the signals dequeued. -/
inductive CallSequence (grace : ℕ) : List SignalKind → List Fut → Prop
  | nothing : CallSequence grace [] []
  | forwards (k1 : SignalKind) : CallSequence grace [k1] [.child (.signal k1)]
  | escalates (k1 k2 : SignalKind) :
      CallSequence grace [k1, k2] [.child (.signal k1), .child (.terminate grace)]
  | kills : CallSequence grace [] [.child (.terminate grace)]

/-- The steps that dequeue a signal. -/
def dequeues (tr : List Entry) : List Entry := tr.filter fun en => en.event.sig?.isSome

/-- The effects of the signals dequeued: at the pre-flight the run ends with 0 and calls nothing;
after the spawn the first is forwarded and the second terminates the child. -/
inductive Effects (cfg : SupervisorConfig) (cmd : CommandSpec) (tr : List Entry) : Prop
  | nothing (h : dequeues tr = [])
  | gate (t : ℕ) (k : SignalKind) (h : tr = [⟨t, .signalled k, .returned (.ok 0)⟩])
      (hc : calls cfg cmd tr = [])
  | first (t : ℕ) (k : SignalKind) (h : dequeues tr = [⟨t, .signalled k, .forwarding k⟩])
  | second (t t' : ℕ) (k k' : SignalKind) (h : dequeues tr =
      [⟨t, .signalled k, .forwarding k⟩, ⟨t', .signalled k', .escalating .terminating⟩])

theorem dequeues_snoc : dequeues (tr ++ [en]) =
    dequeues tr ++ if en.event.sig?.isSome then [en] else [] := by
  unfold dequeues
  rw [List.filter_append]
  by_cases h : en.event.sig?.isSome <;> simp [h]

/-- What the dequeues of a run look like in each phase. -/
def EffectsIn (cfg : SupervisorConfig) (cmd : CommandSpec) (tr : List Entry) : Phase → Prop
  | .preflight => tr = []
  | .spawning | .watching _ | .evaluating _ | .killing | .draining | .plain => dequeues tr = []
  | .forwarding k => ∃ t, dequeues tr = [⟨t, .signalled k, .forwarding k⟩]
  | .escalating .racing => ∃ t k, dequeues tr = [⟨t, .signalled k, .forwarding k⟩]
  | .escalating _ => ∃ t t' k k', dequeues tr =
      [⟨t, .signalled k, .forwarding k⟩, ⟨t', .signalled k', .escalating .terminating⟩]
  | .returned _ => Effects cfg cmd tr

theorem effects_move {p : Phase} (h : EffectsIn cfg cmd tr p)
    (hm : Move cfg cmd en.time p en.event en.next) : EffectsIn cfg cmd (tr ++ [en]) en.next := by
  obtain ⟨t, ev, p'⟩ := en
  simp only at hm
  cases hm with
  | gatePass =>
    obtain rfl : tr = [] := h
    rfl
  | gateFail reason =>
    obtain rfl : tr = [] := h
    exact .nothing rfl
  | gateSignal sig =>
    obtain rfl : tr = [] := h
    exact .gate t sig rfl rfl
  | watchSignal fs sig | plainSignal sig =>
    obtain h : dequeues tr = [] := h
    refine ⟨t, ?_⟩
    rw [dequeues_snoc, h]
    rfl
  | escSignal sig2 =>
    obtain ⟨t0, sig, h⟩ := h
    refine ⟨t0, t, sig, sig2, ?_⟩
    rw [dequeues_snoc, h]
    rfl
  | forwarded sig res =>
    obtain ⟨t0, h⟩ := h
    refine ⟨t0, sig, ?_⟩
    rw [dequeues_snoc, h]
    rfl
  | escExit st =>
    obtain ⟨t0, sig, h⟩ := h
    refine .first t0 sig ?_
    rw [dequeues_snoc, h]
    rfl
  | escTerminated res =>
    obtain ⟨t0, t1, sig, sig2, h⟩ := h
    refine ⟨t0, t1, sig, sig2, ?_⟩
    rw [dequeues_snoc, h]
    rfl
  | escDrained st =>
    obtain ⟨t0, t1, sig, sig2, h⟩ := h
    refine .second t0 t1 sig sig2 ?_
    rw [dequeues_snoc, h]
    rfl
  | spawnFail | watchExit | killFail | drained | plainExit =>
    obtain h : dequeues tr = [] := h
    refine .nothing ?_
    rw [dequeues_snoc, h]
    rfl
  | spawnWatch | spawnPlain | watchTick | evalPass | evalWait | evalKill | killOk =>
    obtain h : dequeues tr = [] := h
    show dequeues _ = []
    rw [dequeues_snoc, h]
    rfl

theorem run_effects (h : (supervisor cfg cmd).Run tr s) : EffectsIn cfg cmd tr s.phase := by
  induction h with
  | nil hi =>
    rw [show _ = Phase.preflight from hi]
    rfl
  | snoc _ hst ih =>
    rw [hst.target]
    exact effects_move ih hst.move

theorem EffectsIn.effects {p : Phase} (h : EffectsIn cfg cmd tr p) : Effects cfg cmd tr := by
  cases p with
  | preflight =>
    obtain rfl : tr = [] := h
    exact .nothing rfl
  | spawning | watching | evaluating | killing | draining | plain => exact .nothing h
  | forwarding k =>
    obtain ⟨t, h⟩ := h
    exact .first t k h
  | escalating e =>
    cases e with
    | racing =>
      obtain ⟨t, k, h⟩ := h
      exact .first t k h
    | terminating | draining =>
      obtain ⟨t, t', k, k', h⟩ := h
      exact .second t t' k k' h
  | returned r => exact h

theorem opSequence_of_ending {c : ℤ} (h : Ending cfg cmd (.ok c) (ledger cfg cmd tr))
    (hs : Spawned tr) : OpSequence cfg.grace (dequeued tr) (completed tr) := by
  generalize hL : ledger cfg cmd tr = L at h
  obtain ⟨-, hsp, hd, -, -, hc, -⟩ := shows_of_ledger hL
  unfold Spawned at hs
  rw [hsp] at hs
  rw [hd, hc]
  cases h with
  | signalled | skipped => simp at hs
  | exited st => exact .exits
  | forwarded sig st => exact .forwards sig
  | escalated sig sig2 res st => exact .escalates sig sig2
  | killed hk st => exact .kills

def Fut.isChild : Fut → Bool
  | .child _ => true
  | _ => false

theorem callSequence_of_account {p : Phase} (h : Account cfg cmd p (ledger cfg cmd tr))
    (hs : Spawned tr) :
    CallSequence cfg.grace (dequeued tr) ((calls cfg cmd tr).filter Fut.isChild) := by
  generalize hL : ledger cfg cmd tr = L at h
  obtain ⟨-, hsp, hd, hc, -⟩ := shows_of_ledger hL
  unfold Spawned at hs
  rw [hsp] at hs
  rw [hd, hc]
  cases h with
  | preflight | spawning => simp at hs
  | watching | evaluating | plain => exact .nothing
  | killing | draining => exact .kills
  | forwarding sig | racing sig => exact .forwards sig
  | terminating sig sig2 | escDraining sig sig2 => exact .escalates sig sig2
  | returned he =>
    cases he with
    | signalled | skipped | spawnFailed => simp at hs
    | exited => exact .nothing
    | forwarded sig => exact .forwards sig
    | escalated sig sig2 => exact .escalates sig sig2
    | killed | killFailed => exact .kills

/-- In the escalation a signal was forwarded. -/
theorem racing_forwarded (h : (supervisor cfg cmd).Run tr s)
    (hp : s.phase = .escalating .racing) : ∃ k, .child (.signal k) ∈ calls cfg cmd tr := by
  have ha := run_account h
  rw [hp] at ha
  generalize hL : ledger cfg cmd tr = L at ha
  obtain ⟨-, -, -, hc, -⟩ := shows_of_ledger hL
  rw [hc]
  cases ha with
  | racing sig => exact ⟨sig, by simp⟩

/-- A `terminate` with no signal forwarded before it comes from the watcher loop, after a verdict
that failed. -/
theorem unprompted_terminate (h : (supervisor cfg cmd).Run tr s) {pre post : List Entry}
    (he : tr = pre ++ en :: post) (hc : CallsTerminate cfg cmd en)
    (hn : ∀ k, .child (.signal k) ∉ calls cfg cmd pre) : cfg.killOnChange = true ∧
      en.next = .killing ∧ ∃ reason, en.event = .evaluated (.fail reason) := by
  subst he
  obtain ⟨a, b, ha, hab, hb⟩ := h.split
  rcases callsTerminate_cases hab.move hc with ⟨hnext, fs, reason, -, hev, -⟩ | ⟨-, hp, -⟩
  · refine ⟨?_, hnext, reason, hev⟩
    have hacc := run_account hb
    rw [hab.target, hnext] at hacc
    generalize ledger cfg cmd _ = L at hacc
    cases hacc with
    | killing hk => exact hk
  · obtain ⟨k, hk⟩ := racing_forwarded ha hp
    exact absurd hk (hn k)

theorem arrivals_snoc {h : Happening} : arrivals (ls ++ [h]) = arrivals ls ++ h.arrival?.toList :=
  List.filterMap_snoc _ _ _

theorem dequeued_snoc : dequeued (tr ++ [en]) = dequeued tr ++ en.event.sig?.toList :=
  List.filterMap_snoc _ _ _

/-- Every signal that arrived was dequeued, in order, or is pending. -/
theorem run_arrivals {s : System Queue} (h : (system cfg cmd).Run ls s) :
    arrivals ls = dequeued (entries ls) ++ s.pending := by
  induction h with
  | nil hi =>
    rw [hi.pending]
    rfl
  | @snoc ls s s' h hr hst ih =>
    rw [arrivals_snoc, ih]
    cases happens_of_step hst with
    | elapse | exit | arrive =>
      rw [entries_snoc_other rfl]
      simp [Happening.arrival?]
    | resume en hres =>
      have hy := hres.yields
      rw [entries_snoc_resume]
      simp only [Happening.arrival?, Option.toList_none, List.append_nil, dequeued_snoc,
        System.after]
      cases hev : en.event with
      | signalled sig =>
        rw [hev] at hy
        obtain ⟨rest, hrest⟩ := List.head?_eq_some_iff.mp (Queue.mem_offers.mp hy)
        simp [hrest, Event.sig?]
      | _ => simp [Event.sig?]

structure SignalProtocol (cfg : SupervisorConfig) (cmd : CommandSpec) (ls : List Happening)
    (s : System Queue) : Prop where
  arrived : arrivals ls = dequeued (entries ls) ++ s.pending
  effects : Effects cfg cmd (entries ls)
  completed : ∀ c, s.sup.phase = .returned (.ok c) → Spawned (entries ls) →
    OpSequence cfg.grace (dequeued (entries ls)) (completed (entries ls))
  called : Spawned (entries ls) → CallSequence cfg.grace (dequeued (entries ls))
    ((calls cfg cmd (entries ls)).filter Fut.isChild)
  unprompted : ∀ pre en post, entries ls = pre ++ en :: post → CallsTerminate cfg cmd en →
    (∀ k, .child (.signal k) ∉ calls cfg cmd pre) →
    cfg.killOnChange = true ∧ en.next = .killing ∧ ∃ reason, en.event = .evaluated (.fail reason)

/-- The protocol between signals, supervisor and child holds in every run. -/
theorem signal_protocol {s : System Queue} (h : (system cfg cmd).Run ls s) :
    SignalProtocol cfg cmd ls s := by
  have hsup := run_entries h
  refine ⟨run_arrivals h, (run_effects hsup).effects, fun c hc => ?_, ?_, fun pre en post he => ?_⟩
  · exact opSequence_of_ending (run_ending hsup hc)
  · exact callSequence_of_account (run_account hsup)
  · exact unprompted_terminate hsup he

/-- Three signals arrive, and the third is never dequeued. -/
def threeSignals : List Happening :=
  [.resume ⟨0, .evaluated .pass, .spawning⟩,
    .resume ⟨0, .spawned ⟨"echo", ["hello"]⟩ (.ok ()), .watching none⟩,
    .arrive .hup, .arrive .interrupt, .resume ⟨0, .signalled .hup, .forwarding .hup⟩,
    .resume ⟨0, .signalSent .hup (.ok ()), .escalating .racing⟩,
    .resume ⟨0, .signalled .interrupt, .escalating .terminating⟩, .arrive .quit, .exit ⟨15⟩,
    .resume ⟨0, .terminated 1 (.ok ()), .escalating .draining⟩,
    .resume ⟨0, .exited ⟨15⟩, .returned (.ok 3)⟩]

theorem signal_protocol_three : SignalProtocol ⟨false, true, 1, 1, 0⟩ ⟨"echo", ["hello"]⟩
    threeSignals ⟨⟨.returned (.ok 3), 0⟩, 0, .exited ⟨15⟩ 0, [.quit]⟩ :=
  have hrun : (system ⟨false, true, 1, 1, 0⟩ ⟨"echo", ["hello"]⟩).Run threeSignals
      ⟨⟨.returned (.ok 3), 0⟩, 0, .exited ⟨15⟩ 0, [.quit]⟩ := system_run _ (by decide)
  signal_protocol hrun

end Condrun
