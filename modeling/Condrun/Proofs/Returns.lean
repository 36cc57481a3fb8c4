import Condrun.Proofs.FakeTerminate
import Condrun.Proofs.KillTime
import Condrun.Proofs.Race

/-! When a run over a real child returns: at the instant the child ends, and by a bound that the
options give. -/

namespace Condrun

variable {cfg : SupervisorConfig} {cmd : CommandSpec} {env : Env} {c : RealChild} {acts : Acts}
  {t₀ t x : ℕ} {s s' : Timed} {ls : List Entry} {en : Entry} {ev : Event} {p : Phase}
  {status : ExitStatus}

/-! The handle after a step. -/

theorem after_step (c : RealChild) (s : Timed) (t : ℕ) (ev : Event) (p : Phase) :
    c.after (s.after cfg cmd t ev p).acts =
      ((p.called cfg cmd).map fun op => (t, Act.call op)).foldl c.act (c.after s.acts) := by
  have hdones : ∀ a ∈ ev.op?.toList.map fun _ => (t, Act.done ev), ∃ ev', a.2 = .done ev' := by
    intro a ha
    obtain ⟨-, -, rfl⟩ := List.mem_map.1 ha
    exact ⟨ev, rfl⟩
  rw [← c.after_dones s.acts hdones]
  simp only [Timed.after, RealChild.after, List.foldl_append]

/-- Completed operations do nothing to the child. -/
theorem fate_quiet (hc : p.called cfg cmd = []) (s : Timed) (t : ℕ) (ev : Event) :
    c.fate (s.after cfg cmd t ev p).acts = c.fate s.acts := by
  rw [RealChild.fate, after_step, hc]
  rfl

theorem terminateTimes_quiet (hc : p.called cfg cmd = []) (s : Timed) (t : ℕ) (ev : Event) :
    terminateTimes (s.after cfg cmd t ev p).acts = terminateTimes s.acts := by
  rw [terminateTimes_after, hc]
  exact List.append_nil _

/-! What every run keeps. -/

/-- The code that a run returns over a child that ended with `status`. -/
def codeOf (acts : Acts) (status : ExitStatus) : ℤ :=
  if terminateTimes acts = [] then exitCode status else 3

/-- The child has not ended and `terminate` has not been called. -/
structure Free (c : RealChild) (s : Timed) : Prop where
  alive : c.AliveTill (c.after s.acts).sent s.now
  free : terminateTimes s.acts = []

/-- `terminate` has been called, and comes back at the end of the child. -/
structure Closing (c : RealChild) (s : Timed) : Prop where
  returned : (c.after s.acts).await = none
  later : s.now ≤ (c.after s.acts).now
  ends : ∃ status, c.fate s.acts = some ((c.after s.acts).now, status)
  called : terminateTimes s.acts ≠ []

/-- The clock does not pass the end of the child, and is at it once a wait has resolved. -/
def OnTime (c : RealChild) (s : Timed) : Prop :=
  match s.phase with
  | .preflight | .spawning => False
  | .watching _ | .evaluating _ | .plain | .escalating .racing => Free c s
  | .forwarding _ => Free c s ∧ (c.after s.acts).await = none ∧ (c.after s.acts).now = s.now
  | .killing | .escalating .terminating => Closing c s
  | .draining | .escalating .draining =>
    (∃ status, c.fate s.acts = some (s.now, status)) ∧ terminateTimes s.acts ≠ []
  | .returned r => ∃ status, c.fate s.acts = some (s.now, status) ∧ r = .ok (codeOf s.acts status)

theorem onTime_start (h0 : c.AliveTill [] t₀) : OnTime c (spawnedAt cfg t₀) := by
  have hfree : Free c ⟨if cfg.killOnChange then .watching none else .plain, t₀, 0, []⟩ :=
    ⟨h0, rfl⟩
  unfold spawnedAt
  split_ifs at hfree ⊢ <;> exact hfree

/-- A wait that resolves does so when the child ends. -/
theorem wait_resolves (ha : c.AliveTill (c.after s.acts).sent s.now)
    (hc : (c.env env).completes s (.child .wait) = some (t, ev)) :
    ∃ status, c.fate s.acts = some (t, status) ∧ ev = .exited status := by
  obtain ⟨⟨x, status⟩, hx, he⟩ := Option.map_eq_some_iff.mp hc
  obtain ⟨rfl, rfl⟩ := Prod.mk.inj he
  have hx : c.fate s.acts = some (x, status) := hx
  rw [Nat.max_eq_right (ha x status hx)]
  exact ⟨status, hx, rfl⟩

theorem Closing.resolves {grace : ℕ} (h : Closing c s)
    (hc : (c.env env).completes s (.child (.terminate grace)) = some (t, ev)) :
    t = (c.after s.acts).now ∧ ev = .terminated grace (.ok ()) := by
  obtain ⟨⟨x, res⟩, hx, he⟩ := Option.map_eq_some_iff.mp hc
  obtain ⟨rfl, rfl⟩ := Prod.mk.inj he
  rw [c.reply_returned env _ h.returned] at hx
  obtain ⟨rfl, rfl⟩ := Prod.mk.inj (Option.some.inj hx)
  exact ⟨Nat.max_eq_right h.later, rfl⟩

/-- A `select!` with a wait in it does not fire after the child ended. -/
theorem fires_alive (ha : c.AliveTill (c.after s.acts).sent s.now) {f : Fut}
    (hf : (s.phase.awaits cfg cmd).FiresAt ((c.env env).readyAt s) f t)
    (hw : .child .wait ∈ (s.phase.awaits cfg cmd).branches) :
    c.AliveTill (c.after s.acts).sent t := by
  intro x status hx
  have hready : (c.env env).readyAt s (.child .wait) = some (max s.now x) := by
    simp [Env.readyAt, Env.completes, RealChild.env, RealChild.fate, hx]
  have hle := hf.le hw hready
  rwa [Nat.max_eq_right (ha x status hx)] at hle

/-- Nothing is called on the way into the next phase. -/
theorem free_quiet (ha : c.AliveTill (c.after s.acts).sent t) (hn : terminateTimes s.acts = [])
    (hc : p.called cfg cmd = []) (ev : Event) : Free c (s.after cfg cmd t ev p) := by
  refine ⟨?_, (terminateTimes_quiet hc s t ev).trans hn⟩
  rw [after_step, hc]
  exact ha

/-- A signal is forwarded to a child that is alive. -/
theorem free_forward (ha : c.AliveTill (c.after s.acts).sent t) (hn : terminateTimes s.acts = [])
    (ev : Event) (sig : SignalKind) : OnTime c (s.after cfg cmd t ev (.forwarding sig)) := by
  have hafter : c.after (s.after cfg cmd t ev (.forwarding sig)).acts =
      c.act (c.after s.acts) (t, .call (.signal sig)) := after_step c s t ev (.forwarding sig)
  obtain ⟨sig', hsent⟩ := c.act_signal (c.after s.acts) t sig
  rw [hsent] at hafter
  refine ⟨⟨?_, ?_⟩, ?_, ?_⟩
  · rw [hafter]
    exact ha.snoc sig'
  · rw [terminateTimes_after, hn]
    rfl
  · rw [hafter]
  · rw [hafter]
    rfl

/-- `terminate` is called on a child that is alive. -/
theorem closing_of_call (ha : c.AliveTill (c.after s.acts).sent t)
    (hc : p.called cfg cmd = [.terminate cfg.grace]) (ev : Event) :
    Closing c (s.after cfg cmd t ev p) := by
  have hafter : c.after (s.after cfg cmd t ev p).acts =
      c.act (c.after s.acts) (t, .call (.terminate cfg.grace)) := by
    rw [after_step, hc]
    rfl
  obtain ⟨hterm, hret⟩ := c.act_terminate (c.after s.acts) t cfg.grace
  obtain ⟨hends, hle, -⟩ := c.returned_at_end ha hterm hret
  refine ⟨?_, ?_, ?_, ?_⟩
  · rw [hafter, hret]
  · rw [hafter]
    exact hle
  · rw [RealChild.fate, hafter]
    exact hends
  · rw [terminateTimes_after, hc]
    exact List.append_ne_nil_of_right_ne_nil _ (List.cons_ne_nil _ _)

theorem onTime_step (h : OnTime c s) (hst : (timed cfg cmd (c.env env) t₀).step s en s') :
    OnTime c s' := by
  obtain ⟨hf, hc, hm, rfl⟩ := timed_step_iff.mp hst
  obtain ⟨p, now, taken, acts⟩ := s
  obtain ⟨t, ev, p'⟩ := en
  simp only at hf hc hm ⊢
  cases hm with
  | gatePass | gateFail | gateSignal | spawnFail | spawnWatch | spawnPlain => exact h.elim
  | watchExit fs st | plainExit st | escExit st =>
    obtain ⟨status, hx, he⟩ := wait_resolves h.alive hc
    obtain rfl := Event.exited.inj he
    have hn := h.free
    refine ⟨st, (fate_quiet rfl _ t _).trans hx, ?_⟩
    rw [codeOf, if_pos ((terminateTimes_quiet rfl _ t _).trans hn)]
  | watchSignal fs sig | plainSignal sig =>
    exact free_forward (fires_alive h.alive hf (by simp [Phase.awaits])) h.free _ sig
  | watchTick fs =>
    exact free_quiet (fires_alive h.alive hf (by simp [Phase.awaits])) h.free rfl _
  | evalPass fs | evalWait fs reason hd =>
    obtain ⟨rfl, -⟩ := Prod.mk.inj (Option.some.inj hc)
    exact free_quiet h.alive h.free rfl _
  | evalKill fs reason hd =>
    obtain ⟨rfl, -⟩ := Prod.mk.inj (Option.some.inj hc)
    exact closing_of_call h.alive rfl _
  | killOk =>
    obtain ⟨rfl, -⟩ := h.resolves hc
    obtain ⟨status, he⟩ := h.ends
    refine ⟨⟨status, (fate_quiet rfl _ _ _).trans he⟩, ?_⟩
    rw [terminateTimes_quiet rfl]
    exact h.called
  | killFail err =>
    obtain ⟨-, he⟩ := h.resolves hc
    cases he
  | drained st | escDrained st =>
    obtain ⟨⟨status, hx⟩, hn⟩ := h
    have halive : c.AliveTill (c.after acts).sent now := by
      intro x status' hx'
      exact (Prod.mk.inj (Option.some.inj (hx.symm.trans hx'))).1.le
    obtain ⟨status', hx', -⟩ := wait_resolves halive hc
    refine ⟨status', (fate_quiet rfl _ t _).trans hx', ?_⟩
    rw [codeOf, terminateTimes_quiet rfl, if_neg hn]
  | forwarded sig res =>
    obtain ⟨hfree, hret, hnow⟩ := h
    have ht : t = now := by
      obtain ⟨⟨x, r⟩, hx, he⟩ := Option.map_eq_some_iff.mp hc
      rw [c.reply_returned env _ hret] at hx
      obtain ⟨rfl, -⟩ := Prod.mk.inj (Option.some.inj hx)
      obtain ⟨rfl, -⟩ := Prod.mk.inj he
      exact max_eq_left hnow.le
    subst ht
    exact free_quiet hfree.alive hfree.free rfl _
  | escSignal sig =>
    exact closing_of_call (fires_alive h.alive hf (by simp [Phase.awaits, Escalation.awaits])) rfl _
  | escTerminated res =>
    obtain ⟨rfl, -⟩ := h.resolves hc
    obtain ⟨status, he⟩ := h.ends
    refine ⟨⟨status, (fate_quiet rfl _ _ _).trans he⟩, ?_⟩
    rw [terminateTimes_quiet rfl]
    exact h.called

theorem run_onTime (h0 : c.AliveTill [] t₀) (hr : (timed cfg cmd (c.env env) t₀).Run ls s) :
    OnTime c s := by
  refine Lts.Run.invariant ?_ (fun _ _ _ h hst => onTime_step h hst) hr
  rintro _ rfl
  exact onTime_start h0

/-- The clock has not passed the end of the child. -/
theorem OnTime.le (h : OnTime c s) (hx : c.fate s.acts = some (x, status)) : s.now ≤ x := by
  have hdone : (∃ status, c.fate s.acts = some (s.now, status)) → s.now ≤ x := by
    rintro ⟨status', he⟩
    exact (Prod.mk.inj (Option.some.inj (he.symm.trans hx))).1.le
  unfold OnTime at h
  split at h
  · exact h.elim
  · exact h.elim
  · exact h.alive x status hx
  · exact h.alive x status hx
  · exact h.alive x status hx
  · exact h.alive x status hx
  · exact h.1.alive x status hx
  · obtain ⟨status', he⟩ := h.ends
    exact h.later.trans (Prod.mk.inj (Option.some.inj (he.symm.trans hx))).1.le
  · obtain ⟨status', he⟩ := h.ends
    exact h.later.trans (Prod.mk.inj (Option.some.inj (he.symm.trans hx))).1.le
  · exact hdone h.1
  · exact hdone h.1
  · obtain ⟨status', he, -⟩ := h
    exact hdone ⟨status', he⟩

/-! That it returns at all, over a child that ends whatever is sent to it. -/

/-- What is awaited can be resumed with. -/
theorem resume_of_awaited (t : ℕ) (h : ev.fut ∈ (p.awaits cfg cmd).branches) :
    ∃ p', resume cfg t p ev = some p' := by
  cases p with
  | escalating e =>
    cases e <;> cases ev <;> simp [Phase.awaits, Escalation.awaits, Event.fut] at h <;>
      exact ⟨_, rfl⟩
  | spawning =>
    cases ev <;> simp [Phase.awaits, Event.fut] at h
    case spawned c res => cases res <;> exact ⟨_, rfl⟩
  | killing =>
    cases ev <;> simp [Phase.awaits, Event.fut] at h
    case terminated grace res => cases res <;> exact ⟨_, rfl⟩
  | preflight =>
    cases ev <;> simp [Phase.awaits, Event.fut] at h
    case evaluated res => cases res <;> exact ⟨_, rfl⟩
    case signalled sig => exact ⟨_, rfl⟩
  | evaluating fs =>
    cases ev <;> simp [Phase.awaits, Event.fut] at h
    case evaluated res =>
      cases res with
      | pass => exact ⟨_, rfl⟩
      | fail reason =>
        simp only [resume]
        split_ifs <;> exact ⟨_, rfl⟩
  | watching | draining | plain | forwarding | returned =>
    cases ev <;> simp [Phase.awaits, Event.fut] at h <;> exact ⟨_, rfl⟩

/-- A `select!` with a future that completes takes a step. -/
theorem step_of_completes {f : Fut} (hf : f ∈ (s.phase.awaits cfg cmd).branches)
    (hc : env.completes s f = some (t, ev)) : ∃ en s', (timed cfg cmd env t₀).step s en s' := by
  obtain ⟨g, u, hfires⟩ := Select.exists_fires hf (readyAt_of_completes hc)
  obtain ⟨⟨v, ev'⟩, hc', rfl⟩ := Option.map_eq_some_iff.mp hfires.ready_eq
  obtain ⟨rfl, -⟩ := completes_fut hc'
  obtain ⟨p', hp'⟩ := resume_of_awaited v hfires.mem
  exact ⟨⟨v, ev', p'⟩, _, hfires, hc', hp', rfl⟩

/-- Unless it has returned, a run over a child that will end goes on. -/
theorem onTime_goesOn (h : OnTime c s) (hx : c.fate s.acts = some (x, status)) :
    (∃ r, s.phase = .returned r) ∨ ∃ en s', (timed cfg cmd (c.env env) t₀).step s en s' := by
  have hwait : (c.env env).completes s (.child .wait) = some (max s.now x, .exited status) := by
    simp only [Env.completes, RealChild.env, hx]
    rfl
  have hterm : (c.after s.acts).await = none →
      (c.env env).completes s (.child (.terminate cfg.grace)) =
        some (max s.now (c.after s.acts).now, .terminated cfg.grace (.ok ())) := by
    intro hret
    rw [Env.completes, c.reply_returned env _ hret]
    rfl
  have hsignal : ∀ sig, (c.after s.acts).await = none →
      (c.env env).completes s (.child (.signal sig)) =
        some (max s.now (c.after s.acts).now, .signalSent sig (.ok ())) := by
    intro sig hret
    rw [Env.completes, c.reply_returned env _ hret]
    rfl
  cases hp : s.phase with
  | preflight | spawning =>
    rw [OnTime, hp] at h
    exact h.elim
  | returned r => exact Or.inl ⟨r, rfl⟩
  | watching | plain | draining =>
    exact Or.inr (step_of_completes (by simp [hp, Phase.awaits]) hwait)
  | evaluating fs =>
    exact Or.inr (step_of_completes (f := .evaluate) (by simp [hp, Phase.awaits]) rfl)
  | killing =>
    rw [OnTime, hp] at h
    exact Or.inr (step_of_completes (by simp [hp, Phase.awaits]) (hterm h.returned))
  | forwarding sig =>
    rw [OnTime, hp] at h
    exact Or.inr (step_of_completes (by simp [hp, Phase.awaits]) (hsignal sig h.2.1))
  | escalating e =>
    cases e with
    | racing | draining =>
      exact Or.inr (step_of_completes (by simp [hp, Phase.awaits, Escalation.awaits]) hwait)
    | terminating =>
      rw [OnTime, hp] at h
      exact Or.inr (step_of_completes (by simp [hp, Phase.awaits, Escalation.awaits])
        (hterm h.returned))

/-- The loop is entered only if it is wanted. -/
def Wanted (cfg : SupervisorConfig) (s : Timed) : Prop :=
  match s.phase with
  | .watching _ | .evaluating _ => cfg.killOnChange = true
  | _ => True

/-- In the loop, twice the time to `X` and which half of a round is next; after it, how many awaits
are left. -/
def returnRank (X : ℕ) (s : Timed) : ℕ :=
  match s.phase with
  | .evaluating _ => 2 * (X - s.now) + 8
  | .watching _ => 2 * (X - s.now) + 7
  | .plain => 6
  | .forwarding _ => 5
  | .escalating .racing => 4
  | .killing | .escalating .terminating => 3
  | .draining | .escalating .draining => 2
  | .preflight | .spawning => 1
  | .returned _ => 0

theorem returnRank_step {X : ℕ} (hp : cfg.killOnChange = true → 0 < cfg.poll)
    (hw : Wanted cfg s) (hX : s'.now ≤ X) (hst : (timed cfg cmd env t₀).step s en s')
    (hn : s.phase ≠ .preflight ∧ s.phase ≠ .spawning) :
    Wanted cfg s' ∧ returnRank X s' < returnRank X s := by
  obtain ⟨-, hc, hm, rfl⟩ := timed_step_iff.mp hst
  obtain ⟨p, now, taken, acts⟩ := s
  obtain ⟨t, ev, p'⟩ := en
  have hle := (completes_fut hc).2
  simp only [Timed.after] at hc hm hn hX hle ⊢
  cases hm with
  | gatePass | gateFail | gateSignal => exact absurd rfl hn.1
  | spawnFail | spawnWatch | spawnPlain => exact absurd rfl hn.2
  | watchTick fs =>
    obtain ⟨rfl, -⟩ := Prod.mk.inj (Option.some.inj hc)
    have := hp hw
    refine ⟨hw, ?_⟩
    simp only [returnRank] at hX ⊢
    omega
  | evalPass | evalWait =>
    refine ⟨hw, ?_⟩
    simp only [returnRank]
    omega
  | _ =>
    refine ⟨trivial, ?_⟩
    simp only [returnRank]
    omega

/-- Over a child that ends by `X` whatever it is sent, every run returns by then. -/
theorem leads_to_return_by {X : ℕ} (h0 : c.AliveTill [] t₀)
    (hX : ∀ sent, ∃ e, c.ends sent = some e ∧ e.1 ≤ X)
    (hp : cfg.killOnChange = true → 0 < cfg.poll) :
    (timed cfg cmd (c.env env) t₀).Leads fun s => (∃ r, s.phase = .returned r) ∧ s.now ≤ X := by
  have hbound : ∀ s, OnTime c s → s.now ≤ X := by
    intro s h
    obtain ⟨⟨x, status⟩, hx, hle⟩ := hX (c.after s.acts).sent
    exact (h.le hx).trans hle
  apply Lts.leads_of_rank (fun s => OnTime c s ∧ Wanted cfg s) (returnRank X)
    (returnRank X (spawnedAt cfg t₀))
  · rintro _ rfl
    refine ⟨⟨onTime_start h0, ?_⟩, le_rfl⟩
    unfold spawnedAt
    split_ifs with hk
    · exact hk
    · exact trivial
  · rintro s en s' ⟨h, hw⟩ hst
    have h' := onTime_step h hst
    have hn : s.phase ≠ .preflight ∧ s.phase ≠ .spawning := by
      refine ⟨fun hp => ?_, fun hp => ?_⟩ <;> rw [OnTime, hp] at h <;> exact h.elim
    obtain ⟨hw', hlt⟩ := returnRank_step hp hw (hbound s' h') hst hn
    exact ⟨⟨h', hw'⟩, by omega⟩
  · rintro s ⟨h, -⟩ hz
    refine ⟨?_, hbound s h⟩
    unfold returnRank at hz
    split at hz
    all_goals first | omega | exact ⟨_, ‹_›⟩
  · rintro s ⟨h, -⟩
    obtain ⟨⟨x, status⟩, hx, -⟩ := hX (c.after s.acts).sent
    exact (onTime_goesOn h hx).imp_left fun hret => ⟨hret, hbound s h⟩

/-- A run over a real child returns at the very instant the child ends, never before it and never
after it, without an error; and over a child that ends by `X` whatever is sent every run does return
by then. A call of `terminate` is one of the handle, however the races in it go. -/
theorem returns_at_death (c : RealChild) (h0 : c.AliveTill [] t₀) :
    (∀ ls s, (timed cfg cmd (c.env env) t₀).Run ls s →
      (∀ r, s.phase = .returned r → ∃ status, c.fate s.acts = some (s.now, status) ∧
        r = .ok (codeOf s.acts status)) ∧
      ∀ x status, c.fate s.acts = some (x, status) → s.now ≤ x) ∧
    (∀ X, (∀ sent, ∃ e, c.ends sent = some e ∧ e.1 ≤ X) → (cfg.killOnChange = true → 0 < cfg.poll) →
      (timed cfg cmd (c.env env) t₀).Leads fun s =>
        (∃ r, s.phase = .returned r) ∧ s.now ≤ X) ∧
    ∀ acts t grace ls u, (terminateAfter c.dies (c.after acts).sent grace t).Run ls u →
      u.await = none →
      (c.env env).reply (acts ++ [(t, .call (.terminate grace))]) (.terminate grace) =
        some (u.now, .ok ()) ∧
      c.fate (acts ++ [(t, .call (.terminate grace))]) = c.ends u.sent := by
  refine ⟨fun ls s hr => ?_, fun X hX hp => leads_to_return_by h0 hX hp,
    fun acts t grace ls u hr hret => c.reply_of_return env acts hr hret⟩
  have h := run_onTime h0 hr
  refine ⟨fun r hret => ?_, fun x status hx => h.le hx⟩
  rw [OnTime, hret] at h
  exact h

/-- Before its end, if it has one, a script is over whatever is sent. -/
theorem Script.ends_le {s : Script} {X : ℕ} (h : s.exit = some (X, status))
    (sent : List (ℕ × Sig)) : ∃ e, s.child.ends sent = some e ∧ e.1 ≤ X := by
  induction sent using List.reverseRecOn with
  | nil => exact ⟨_, h, le_rfl⟩
  | append_singleton sent l ih =>
    obtain ⟨e, he, hle⟩ := ih
    have hsnoc : s.child.ends (sent ++ [l]) = sooner (some e) (s.reaction l) :=
      (s.ends_snoc sent l).trans (congrArg (sooner · _) he)
    rw [hsnoc]
    cases s.reaction l with
    | none => exact ⟨e, rfl, hle⟩
    | some e' =>
      refine ⟨_, rfl, ?_⟩
      split_ifs with hlt
      · exact hlt.le.trans hle
      · exact hle

/-- A shell that sleeps until 9, with a trap that exits 130 on `SIGINT`. -/
def sleeper : Script where
  exit := some (9, ⟨0⟩)
  on
    | .int => some (0, ⟨130 <<< 8⟩)
    | .term => some (1, ⟨15⟩)
    | _ => none

example : sleeper.child.ends [(4, .int)] = some (4, ⟨130 <<< 8⟩) := rfl

/-- In a loop that would kill it from 7 on. -/
theorem returns_at_death_nine : (timed ⟨false, true, 1, 1, 2⟩ ⟨"sleep", ["9"]⟩
    (sleeper.child.env flickers) 0).Leads fun s => (∃ r, s.phase = .returned r) ∧ s.now ≤ 9 :=
  (returns_at_death sleeper.child fun _ _ _ => Nat.zero_le _).2.1 9 (Script.ends_le rfl)
    fun _ => by decide

/-! That it returns in time when the predicates fail for good, over any child. -/

/-- The loop runs, and the predicates fail from `T` on, whatever they did before. -/
structure FailsForGood (cfg : SupervisorConfig) (env : Env) (t₀ T : ℕ) : Prop where
  on : cfg.killOnChange = true
  poll_pos : 0 < cfg.poll
  fails : ∀ t, t₀ + T ≤ t → (env.verdict t).isPass = false

variable {T : ℕ}

theorem child_watches (hon : cfg.killOnChange = true) (hp : 0 < cfg.poll)
    (h0 : c.AliveTill [] t₀) : Watches cfg (c.env env) t₀ (c.ends []) :=
  ⟨hon, hp, fun _ _ => rfl, h0⟩

/-- Some tick kills within two poll intervals of onset and debounce. -/
theorem FailsForGood.exists_killTick (h : FailsForGood cfg env t₀ T) :
    ∃ k, KillTick cfg (c.env env) t₀ k ∧ k * cfg.poll ≤ T + cfg.debounce + 2 * cfg.poll := by
  have hp := h.poll_pos
  have hdue : Due cfg (c.env env) t₀ (T / cfg.poll + 1 + cfg.debounce ⌈/⌉ cfg.poll) := by
    refine ⟨T / cfg.poll + 1, Nat.le_add_right _ _, Nat.succ_pos _, ?_, fun i _ hi => ?_⟩
    · rw [Nat.add_sub_cancel_left, Nat.mul_comm, ← ceilDiv_le_iff_le_mul hp]
    · refine h.fails _ (Nat.add_le_add_left ?_ _)
      have hlt := Nat.lt_mul_of_div_lt (Nat.lt_of_lt_of_le (Nat.lt_succ_self _) hi) hp
      exact hlt.le
  obtain ⟨k, hle, hk⟩ := Condrun.exists_killTick hdue
  refine ⟨k, hk, (Nat.mul_le_mul_right _ hle).trans ?_⟩
  have hT := Nat.mul_div_le T cfg.poll
  have hD := ceilDiv_mul_lt hp cfg.debounce
  rw [Nat.mul_comm, Nat.mul_add, Nat.mul_add, Nat.mul_one]
  omega

/-- After the kill the child is left to its fate. -/
theorem run_afterKill {x : Timed} (hx : AfterKill x.phase)
    (hr : ((timed cfg cmd env t₀).startAt x).Run ls s) :
    AfterKill s.phase ∧ c.fate s.acts = c.fate x.acts := by
  refine Lts.Run.invariant (P := fun s => AfterKill s.phase ∧ c.fate s.acts = c.fate x.acts)
    ?_ ?_ hr
  · rintro _ rfl
    exact ⟨hx, rfl⟩
  · rintro a en b ⟨hp, hfate⟩ hst
    obtain ⟨-, -, hm, rfl⟩ := Timed.step_iff.mp hst
    obtain ⟨hafter, -, hcalled⟩ := afterKill_move hp hm
    exact ⟨hafter, (fate_quiet hcalled a en.time en.event).trans hfate⟩

/-- Signals that were taken stay taken. -/
theorem run_taken {x : Timed} (hx : 0 < x.taken)
    (hr : ((timed cfg cmd env t₀).startAt x).Run ls s) : 0 < s.taken := by
  refine Lts.Run.invariant (P := fun s => 0 < s.taken) ?_ ?_ hr
  · rintro _ rfl
    exact hx
  · rintro a en b ha ⟨-, -, -, rfl⟩
    exact Nat.lt_of_lt_of_le ha (Nat.le_add_right _ _)

/-- The run has returned by `t`, with the child ended and the code of that end. -/
def ReturnedBy (c : RealChild) (t : ℕ) (s : Timed) : Prop :=
  ∃ status, s.phase = .returned (.ok (codeOf s.acts status)) ∧
    c.fate s.acts = some (s.now, status) ∧ s.now ≤ t

/-- A signal that came by `t` was taken. -/
def TookBy (env : Env) (t₀ t : ℕ) (s : Timed) : Prop :=
  0 < s.taken ∧ ∃ a sig, env.arrivals 0 = some (a, sig) ∧ max t₀ a ≤ t

theorem returned_onTime (h0 : c.AliveTill [] t₀) {r : Except Error ℤ}
    (hr : (timed cfg cmd (c.env env) t₀).Run ls s) (hret : s.phase = .returned r) (ht : s.now ≤ t) :
    ReturnedBy c t s := by
  have hon := run_onTime h0 hr
  rw [OnTime, hret] at hon
  obtain ⟨status, hx, rfl⟩ := hon
  exact ⟨status, hret, hx, ht⟩

/-- A loop that ends by a kill returns within the grace. -/
theorem leads_of_kill (h0 : c.AliveTill [] t₀) (hw : Watches cfg (c.env env) t₀ (c.ends []))
    (he : Ends cfg (c.env env) t₀ (c.ends []) (.kill t)) :
    (timed cfg cmd (c.env env) t₀).Leads (ReturnedBy c (t + cfg.grace)) := by
  have hend : c.AliveTill [] t := by
    intro x status hx
    cases he with
    | kill _ hexit => exact (hexit x status hx).le
  have hdying : Dying cfg ((WatchEnd.kill t).state cfg) := .calling (Or.inl rfl) ⟨[], t, rfl⟩
  have hleads : (timed cfg cmd (c.env env) t₀).Leads fun s => s.phase = .returned (.ok 3) ∧
      CameThrough cfg cmd (c.env env) t₀ ((WatchEnd.kill t).state cfg) s :=
    (leads_to_end hw he).trans
      ((dying_leads (child_settles c env) hdying).strengthen fun ls s hr hp => ⟨hp, ls, hr⟩)
  refine hleads.strengthen ?_
  rintro ls s hr ⟨hret, js, hjs⟩
  refine returned_onTime h0 hr hret ?_
  -- the child ends within the grace of the call, and the run with it
  obtain ⟨-, hfate⟩ := run_afterKill (c := c) (Or.inl rfl) hjs
  obtain ⟨hterm, hret'⟩ := c.act_terminate ⟨none, 0, []⟩ t cfg.grace
  obtain ⟨⟨status, hends⟩, -, hle⟩ := c.returned_at_end hend hterm hret'
  exact ((run_onTime h0 hr).le (hfate.trans hends)).trans hle

theorem FailsForGood.returns (c : RealChild) (h0 : c.AliveTill [] t₀)
    (h : FailsForGood cfg env t₀ T) :
    (timed cfg cmd (c.env env) t₀).Leads fun s =>
      ReturnedBy c (t₀ + T + cfg.debounce + 2 * cfg.poll + cfg.grace) s ∨
      TookBy env t₀ (t₀ + T + cfg.debounce + 2 * cfg.poll) s := by
  have hw : Watches cfg (c.env env) t₀ (c.ends []) := child_watches h.on h.poll_pos h0
  obtain ⟨k, hk, hbound⟩ := h.exists_killTick (c := c)
  obtain ⟨e, he⟩ : ∃ e, Ends cfg (c.env env) t₀ (c.ends []) e :=
    exists_ends (Or.inr (Or.inr ⟨k, hk.due⟩))
  cases he with
  | @exit x status hx hs hticks =>
    have hle := hticks k hk
    refine (leads_to_return hw (.exit hx hs hticks) rfl).strengthen ?_
    rintro ls s hr rfl
    exact Or.inl (returned_onTime h0 hr rfl (by simp only [WatchEnd.state]; omega))
  | @signal a sig hs hx hticks =>
    have hle := hticks k hk
    refine (leads_to_end hw (.signal hs hx hticks)).strengthen ?_
    rintro ls s hr ⟨js, hjs⟩
    exact Or.inr ⟨run_taken Nat.one_pos hjs, a, sig, hs, by omega⟩
  | @kill j hj hx hs =>
    obtain rfl := hj.unique hk
    refine (leads_of_kill h0 hw (.kill hj hx hs)).strengthen ?_
    rintro ls s - ⟨status, hret, hfate, hle⟩
    exact Or.inl ⟨status, hret, hfate, by omega⟩

/-- Once the predicates fail for good, every run of the watcher returns within the debounce, two
poll intervals and the grace, with the child ended, whatever child it is; unless a signal comes by
the kill, and is taken. -/
theorem returns_in_time (c : RealChild) (h0 : c.AliveTill [] t₀) (h : FailsForGood cfg env t₀ T) :
    ((timed cfg cmd (c.env env) t₀).Leads fun s =>
      ReturnedBy c (t₀ + T + cfg.debounce + 2 * cfg.poll + cfg.grace) s ∨
      TookBy env t₀ (t₀ + T + cfg.debounce + 2 * cfg.poll) s) ∧
    ((∀ a sig, env.arrivals 0 = some (a, sig) →
        t₀ + T + cfg.debounce + 2 * cfg.poll < max t₀ a) →
      (timed cfg cmd (c.env env) t₀).Leads
        (ReturnedBy c (t₀ + T + cfg.debounce + 2 * cfg.poll + cfg.grace))) := by
  refine ⟨h.returns c h0, fun hlate => (h.returns c h0).strengthen ?_⟩
  rintro ls s - (hret | ⟨-, a, sig, ha, hle⟩)
  · exact hret
  · exact absurd hle (Nat.not_le.mpr (hlate a sig ha))

theorem flickers_fails : FailsForGood ⟨false, true, 3, 1, 2⟩ flickers 0 5 := by
  refine ⟨rfl, by decide, fun t ht => ?_⟩
  refine (expensive_isPass _).trans ?_
  simp only [Bool.not_eq_false', Bool.or_eq_true, decide_eq_true_eq]
  omega

/-- A child that ignores all it can and would never end. -/
def resistant : Script := ⟨none, fun _ => none⟩

theorem returns_in_time_resistant : (timed ⟨false, true, 3, 1, 2⟩ ⟨"sleep", ["inf"]⟩
    (resistant.child.env flickers) 0).Leads (ReturnedBy resistant.child (0 + 5 + 2 + 2 * 1 + 3)) :=
  (returns_in_time resistant.child (fun _ _ _ => Nat.zero_le _) flickers_fails).2
    fun _ _ ha => by cases ha

example : resistant.child.fate [(7, .call (.terminate 3))] = some (10, ⟨9⟩) := by decide

end Condrun
