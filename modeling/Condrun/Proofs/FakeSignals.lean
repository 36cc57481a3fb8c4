import Condrun.Spec.FakeSignals

/-! Injected signals are delivered in order, and no wake-up is lost, in every interleaving. -/

namespace Condrun

variable {ls : List SignalStep} {s s' : FakeSignals} {l : SignalStep}

/-- The consumer sleeps although a signal is there and nobody is about to notify it. -/
def LostWakeup (s : FakeSignals) : Prop :=
  s.queue ≠ [] ∧ s.injecting = 0 ∧ s.stage = .suspended ∧
    s.notify.permit = false ∧ s.notify.picked = []

/-- What one step does, said once. -/
inductive SignalMove (s : FakeSignals) : SignalStep → FakeSignals → Prop
  | push (kind : SignalKind) : SignalMove s (.push kind) (s.push kind)
  | notifyOne (h : 0 < s.injecting) : SignalMove s .notifyOne s.notifyOne
  | call (h : s.stage = .idle) : SignalMove s .call { s with stage := .notified }
  | take (h : s.stage = .notified) (kind : SignalKind) (rest : List SignalKind)
      (hq : s.queue = kind :: rest) :
      SignalMove s (.pop (some kind)) { s with queue := rest, stage := .idle }
  | none (h : s.stage = .notified) (hq : s.queue = []) :
      SignalMove s (.pop none) { s with queue := [], stage := .empty }
  | poll (h : s.stage = .empty ∨ s.stage = .suspended) : SignalMove s .poll s.poll
  | drop (h : s.stage = .suspended) : SignalMove s .drop s.drop

theorem signalMove_of_step (hst : fakeSignals.step s l s') : SignalMove s l s' := by
  change s.step l = some s' at hst
  cases l with
  | push kind =>
    obtain rfl := Option.some.inj hst
    exact .push kind
  | pop res =>
    obtain ⟨⟨h, rfl⟩, he⟩ := Option.ite_none_right_eq_some.mp hst
    obtain rfl := Option.some.inj he
    rcases hq : s.queue with _ | ⟨kind, rest⟩
    · rw [FakeSignals.pop, hq]
      exact .none h hq
    · rw [FakeSignals.pop, hq]
      exact .take h kind rest hq
  | notifyOne =>
    obtain ⟨h, he⟩ := Option.ite_none_right_eq_some.mp hst
    exact Option.some.inj he ▸ .notifyOne h
  | call =>
    obtain ⟨h, he⟩ := Option.ite_none_right_eq_some.mp hst
    exact Option.some.inj he ▸ .call h
  | poll =>
    obtain ⟨h, he⟩ := Option.ite_none_right_eq_some.mp hst
    exact Option.some.inj he ▸ .poll h
  | drop =>
    obtain ⟨h, he⟩ := Option.ite_none_right_eq_some.mp hst
    exact Option.some.inj he ▸ .drop h

/-- What the notification cell knows in each stage. A signal that is there when the consumer is
about to await was pushed after the queue was found empty. -/
def Woken (s : FakeSignals) : Stage → Prop
  | .idle | .notified => s.notify.Away
  | .empty => s.notify.Away ∧ (s.queue ≠ [] → s.notify.permit = true ∨ 0 < s.injecting)
  | .suspended =>
    (s.notify.Waits () ∧ (s.queue ≠ [] → 0 < s.injecting)) ∨ s.notify.IsPicked ()

theorem woken_push (kind : SignalKind) (h : Woken s s.stage) :
    Woken (s.push kind) s.stage := by
  have hpos : 0 < (s.push kind).injecting := Nat.succ_pos _
  cases hs : s.stage with
  | idle | notified =>
    rw [hs] at h
    exact h
  | empty =>
    rw [hs] at h
    exact ⟨h.1, fun _ => Or.inr hpos⟩
  | suspended =>
    rw [hs] at h
    exact h.imp_left fun hw => ⟨hw.1, fun _ => hpos⟩

theorem woken_notifyOne (h : Woken s s.stage) : Woken s.notifyOne s.stage := by
  cases hs : s.stage with
  | idle | notified =>
    rw [hs] at h
    exact h.notifyOne.2
  | empty =>
    rw [hs] at h
    exact ⟨h.1.notifyOne.2, fun _ => Or.inl h.1.notifyOne.1⟩
  | suspended =>
    rw [hs] at h
    rcases h with ⟨hw, -⟩ | hp
    · exact Or.inr hw.notifyOne
    · exact Or.inr hp.notifyOne

theorem woken_poll (hst : s.stage = .empty ∨ s.stage = .suspended) (h : Woken s s.stage) :
    Woken s.poll s.poll.stage := by
  have hcases : (s.notify.Away ∧ (s.queue ≠ [] → s.notify.permit = true ∨ 0 < s.injecting)) ∨
      (s.notify.Waits () ∧ (s.queue ≠ [] → 0 < s.injecting)) ∨ s.notify.IsPicked () := by
    rcases hst with hs | hs
    · rw [hs] at h
      exact Or.inl h
    · rw [hs] at h
      exact Or.inr h
  rcases hcases with ⟨ha, hq⟩ | ⟨hw, hq⟩ | hp
  · rcases ha.poll () with ⟨-, hr, haway⟩ | ⟨hperm, hr, hwaits⟩
    · rw [show s.poll.stage = .notified by simp [FakeSignals.poll, hr]]
      exact haway
    · rw [show s.poll.stage = .suspended by simp [FakeSignals.poll, hr]]
      refine Or.inl ⟨hwaits, fun hne => (hq hne).resolve_left ?_⟩
      rw [hperm]
      exact Bool.false_ne_true
  · have hpoll := hw.poll
    rw [show s.poll.stage = .suspended by simp [FakeSignals.poll, hpoll]]
    refine Or.inl ⟨?_, hq⟩
    show (s.notify.poll ()).2.Waits ()
    rw [hpoll]
    exact hw
  · rw [show s.poll.stage = .notified by simp [FakeSignals.poll, hp.poll.1]]
    exact hp.poll.2

theorem woken_drop (hs : s.stage = .suspended) (h : Woken s s.stage) : s.drop.notify.Away := by
  rw [hs] at h
  rcases h with ⟨hw, -⟩ | hp
  · exact hw.drop
  · exact hp.drop.2

theorem woken_step (h : Woken s s.stage) (hm : SignalMove s l s') : Woken s' s'.stage := by
  cases hm with
  | push kind => exact woken_push kind h
  | notifyOne => exact woken_notifyOne h
  | call hs =>
    rw [hs] at h
    exact h
  | take hs =>
    rw [hs] at h
    exact h
  | none hs hq =>
    rw [hs] at h
    exact ⟨h, fun hne => absurd rfl hne⟩
  | poll hs => exact woken_poll hs h
  | drop hs => exact woken_drop hs h

theorem run_woken (h : fakeSignals.Run ls s) : Woken s s.stage := by
  refine Lts.Run.invariant (P := fun s => Woken s s.stage) ?_ ?_ h
  · rintro _ rfl
    exact Notify.away_new
  · intro s l s' hw hst
    exact woken_step hw (signalMove_of_step hst)

/-- What was injected was delivered, in order, or is in the queue. -/
theorem run_injected (h : fakeSignals.Run ls s) : injected ls = delivered ls ++ s.queue := by
  induction h with
  | nil hi =>
    rw [show _ = FakeSignals.new from hi]
    rfl
  | @snoc ls s s' l _ hst ih =>
    unfold injected delivered at ih ⊢
    rw [List.filterMap_snoc, List.filterMap_snoc, ih]
    cases signalMove_of_step hst with
    | push kind => simp [SignalStep.pushed?, SignalStep.popped?, FakeSignals.push]
    | take _ kind rest hq => simp [SignalStep.pushed?, SignalStep.popped?, hq]
    | none _ hq => simp [SignalStep.pushed?, SignalStep.popped?, hq]
    | notifyOne | call | poll | drop => simp [SignalStep.pushed?, SignalStep.popped?]

/-- Every signal is delivered once and in order, and the consumer never sleeps on one. -/
theorem signals_delivered (h : fakeSignals.Run ls s) :
    delivered ls <+: injected ls ∧ ¬ LostWakeup s := by
  refine ⟨⟨s.queue, (run_injected h).symm⟩, ?_⟩
  rintro ⟨hq, hinj, hs, hperm, hpicked⟩
  have hw := run_woken h
  rw [hs] at hw
  rcases hw with ⟨-, hpos⟩ | ⟨-, hp⟩
  · have := hpos hq
    omega
  · rw [hp] at hpicked
    cases hpicked

/-- Two signals notified as one, and a `next` that is dropped after it was picked. -/
def dropsPicked : List SignalStep :=
  [.call, .pop none, .poll, .push .hup, .push .quit, .notifyOne, .notifyOne, .drop,
    .call, .pop (some .hup)]

theorem signals_delivered_drop :
    [SignalKind.hup] <+: [.hup, .quit] ∧ ¬ LostWakeup ⟨[.quit], ⟨true, [], []⟩, 0, .idle⟩ := by
  have hrun : fakeSignals.Run dropsPicked ⟨[.quit], ⟨true, [], []⟩, 0, .idle⟩ :=
    Lts.Run.foldlM (m := fakeSignals) (fun _ _ _ h => h) (.nil rfl) (by decide)
  exact signals_delivered hrun

/-! A signal that is there comes out, once the calls of `inject` under way are let run. -/

/-- The steps of a pending `next` and of the calls of `inject` that have pushed. A poll that changes
nothing is not one. -/
def FakeSignals.Drains (s : FakeSignals) : SignalStep → Prop
  | .notifyOne | .pop _ => True
  | .poll => s.poll ≠ s
  | .push _ | .call | .drop => False

/-- How far `next` is from returning the head of the queue. -/
def Stage.rank : Stage → ℕ
  | .idle => 0
  | .notified => 1
  | .suspended => 2
  | .empty => 3

theorem Stage.rank_le (st : Stage) : st.rank ≤ 3 := by cases st <;> decide

/-- A poll that changes anything brings `next` on. -/
theorem poll_advances (hst : s.stage = .empty ∨ s.stage = .suspended) (h : Woken s s.stage) :
    s.poll = s ∨ s.poll.stage ≠ .idle ∧ s.poll.stage.rank < s.stage.rank := by
  rcases hst with hs | hs <;> rw [hs] at h ⊢
  · refine Or.inr ?_
    cases hr : (s.notify.poll ()).1 <;> simp [FakeSignals.poll, hr, Stage.rank]
  · rcases h with ⟨hw, -⟩ | hp
    · refine Or.inl ?_
      rw [FakeSignals.poll, hw.poll]
      obtain ⟨queue, notify, injecting, stage⟩ := s
      obtain rfl := hs
      rfl
    · refine Or.inr ?_
      simp [FakeSignals.poll, hp.poll.1, Stage.rank]

/-- The `next` that finds `kind` at the head has not returned yet, or it took `kind`. -/
def Takes (kind : SignalKind) (rest : List SignalKind) (s : FakeSignals) : Prop :=
  (s.stage ≠ .idle ∧ s.queue = kind :: rest) ∨ (s.stage = .idle ∧ s.queue = rest)

theorem takes_step {kind : SignalKind} {rest : List SignalKind} (h : Takes kind rest s)
    (hw : Woken s s.stage) (hm : SignalMove s l s') (hd : s.Drains l) :
    Takes kind rest s' ∧ s'.injecting + s'.stage.rank < s.injecting + s.stage.rank := by
  cases hm with
  | push | call | drop => exact hd.elim
  | notifyOne hpos =>
    refine ⟨h, ?_⟩
    show s.injecting - 1 + s.stage.rank < _
    omega
  | take hs k r hq =>
    rcases h with ⟨-, hq'⟩ | ⟨hs', -⟩
    · obtain ⟨-, rfl⟩ := List.cons.inj (hq.symm.trans hq')
      refine ⟨Or.inr ⟨rfl, rfl⟩, ?_⟩
      rw [hs]
      exact Nat.lt_succ_self s.injecting
    · rw [hs] at hs'
      cases hs'
  | none hs hq =>
    rcases h with ⟨-, hq'⟩ | ⟨hs', -⟩
    · rw [hq] at hq'
      cases hq'
    · rw [hs] at hs'
      cases hs'
  | poll hs =>
    obtain ⟨hidle, hrank⟩ := (poll_advances hs hw).resolve_left hd
    rcases h with ⟨-, hq⟩ | ⟨hs', -⟩
    · exact ⟨Or.inl ⟨hidle, hq⟩, Nat.add_lt_add_left hrank s.injecting⟩
    · rw [hs'] at hs
      rcases hs with hs | hs <;> cases hs

/-- Until `next` has returned, it or a call of `inject` can go on. -/
theorem takes_goesOn {kind : SignalKind} {rest : List SignalKind} (h : Takes kind rest s)
    (hw : Woken s s.stage) : (s.stage = .idle ∧ s.queue = rest) ∨
      ∃ l s', fakeSignals.step s l s' ∧ s.Drains l := by
  rcases h with ⟨hs, hq⟩ | h
  · refine Or.inr ?_
    cases hst : s.stage with
    | idle => exact absurd hst hs
    | notified => exact ⟨.pop s.queue.head?, s.pop, if_pos ⟨hst, rfl⟩, trivial⟩
    | empty =>
      refine ⟨.poll, s.poll, if_pos (Or.inl hst), ?_⟩
      intro he
      have hstage : s.poll.stage = .empty := by rw [he, hst]
      cases hr : (s.notify.poll ()).1 <;> simp [FakeSignals.poll, hr] at hstage
    | suspended =>
      rw [hst] at hw
      rcases hw with ⟨-, hpos⟩ | hp
      · exact ⟨.notifyOne, s.notifyOne, if_pos (hpos (by simp [hq])), trivial⟩
      · refine ⟨.poll, s.poll, if_pos (Or.inr hst), ?_⟩
        intro he
        have hstage : s.poll.stage = .suspended := by rw [he, hst]
        simp [FakeSignals.poll, hp.poll.1] at hstage
  · exact Or.inl h

/-- However calls of `inject` and of `next` have interleaved: a pending `next` with a signal in the
queue returns the one at the head. -/
theorem next_returns {kind : SignalKind} {rest : List SignalKind} (h : fakeSignals.Run ls s)
    (hq : s.queue = kind :: rest) (hs : s.stage ≠ .idle) :
    ((fakeSignals.restrict FakeSignals.Drains).startAt s).Leads fun s' =>
      s'.stage = .idle ∧ s'.queue = rest := by
  refine Lts.leads_of_rank (fun s' => Takes kind rest s' ∧ Woken s' s'.stage)
    (fun s' => s'.injecting + s'.stage.rank) (s.injecting + 3) ?_ ?_ ?_ ?_
  · rintro a rfl
    exact ⟨⟨Or.inl ⟨hs, hq⟩, run_woken h⟩, Nat.add_le_add_left a.stage.rank_le a.injecting⟩
  · rintro a l b ⟨ht, hw⟩ ⟨hst, hd⟩
    have hm := signalMove_of_step hst
    obtain ⟨ht', hlt⟩ := takes_step ht hw hm hd
    exact ⟨⟨ht', woken_step hw hm⟩, by omega⟩
  · rintro a ⟨ht, -⟩ hz
    refine ht.resolve_left ?_
    rintro ⟨hs, -⟩
    have hzero : a.stage.rank = 0 := by omega
    cases hst : a.stage with
    | idle => exact hs hst
    | _ => simp [hst, Stage.rank] at hzero
  · rintro a ⟨ht, hw⟩
    exact takes_goesOn ht hw

theorem next_returns_hup :
    ((fakeSignals.restrict FakeSignals.Drains).startAt
      ⟨[.hup, .quit], ⟨false, [()], []⟩, 2, .suspended⟩).Leads fun s' =>
        s'.stage = .idle ∧ s'.queue = [.quit] := by
  have hrun : fakeSignals.Run [.call, .pop none, .poll, .push .hup, .push .quit]
      ⟨[.hup, .quit], ⟨false, [()], []⟩, 2, .suspended⟩ :=
    Lts.Run.foldlM (m := fakeSignals) (fun _ _ _ h => h) (.nil rfl) (by decide)
  exact next_returns hrun rfl (by decide)

end Condrun
