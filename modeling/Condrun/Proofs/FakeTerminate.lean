import Condrun.Proofs.Group
import Condrun.Proofs.RealChild
import Condrun.Proofs.Timed

/-! `terminate` over a child of one process, behind the real handle and behind the fake. -/

namespace Condrun

open TokioChildHandle

variable {m : Member} {sent : List (ℕ × Sig)} {grace t x : ℕ} {u : Under}
  {ls : List (OsFut × ℕ)} {δ : Option ℕ}

def Member.alone (m : Member) : Group := ⟨m, []⟩

/-- How long `terminate` takes. -/
def span (δ : Option ℕ) (grace : ℕ) : ℕ := min (δ.getD grace) grace

/-- What a call of the real `terminate` at `t` has done when it returns. -/
structure Terminated (δ : Option ℕ) (grace t : ℕ) (u : Under) : Prop where
  time : u.now = t + span δ grace
  termFirst : u.sent.head? = some (t, .term)
  termOnce : (u.sent.map Prod.snd).count .term = 1
  killOnce : (u.sent.map Prod.snd).count .kill ≤ 1
  killLate : ∀ x, (x, .kill) ∈ u.sent → t + grace ≤ x
  spares : (∃ d, δ = some d ∧ d < grace) → .kill ∉ u.sent.map Prod.snd
  kills : (∀ d, δ = some d → grace < d) → .kill ∈ u.sent.map Prod.snd
  dead : (Member.mk δ).DeadBy u.sent u.now

theorem terminated_of_return (h : (terminateOn (Member.mk δ).alone grace t).Run ls u)
    (hret : u.await = none) : Terminated δ grace t u := by
  cases terminating_run (Member.mk δ).mortal h with
  | racing => cases hret
  | reaping hk => cases hret
  | exited hd hle =>
    rw [List.nil_append, diesAt_term, Option.map_eq_some_iff] at hd
    obtain ⟨d, rfl, rfl⟩ := hd
    have hmax : max t (t + d) = t + d := Nat.max_eq_right (Nat.le_add_right t d)
    rw [hmax] at hle ⊢
    refine ⟨?_, rfl, rfl, Nat.zero_le _, by simp, fun _ => by simp, fun hk => ?_, ?_⟩
    · simp only [span, Option.getD_some]
      omega
    · have := hk d rfl
      omega
    · exact deadBy_term_iff.mpr ⟨d, rfl, le_rfl⟩
  | killed hk =>
    have hlate : ∀ d, δ = some d → grace ≤ d := by
      rintro d rfl
      have := hk (t + d) (by rw [List.nil_append, diesAt_term]; rfl)
      omega
    refine ⟨?_, rfl, rfl, le_rfl, by simp, ?_, fun _ => by simp, ?_⟩
    · rcases δ with _ | d
      · simp [span]
      · have := hlate d rfl
        simp only [span, Option.getD_some]
        omega
    · rintro ⟨d, rfl, hlt⟩
      exact absurd (hlate d rfl) (Nat.not_le.mpr hlt)
    · exact deadBy_kill

/-- A wait made once the child is dead resolves at once. -/
theorem wait_of_dead (h : m.DeadBy sent x) {w : ℕ} (hw : x ≤ w) :
    Under.readyAt m.diesAt ⟨some .waiting, w, sent⟩ .wait = some w := by
  obtain ⟨v, hv, hle⟩ := h
  rw [ready_of_dies hv, Option.some.injEq]
  omega

/-! The fake. -/

/-- The fake is scripted to take the `SIGTERM` as a child with `δ` does. -/
def Plays (h : FakeChildHandle) (δ : Option ℕ) (grace : ℕ) : Prop :=
  match δ with
  | some d => h.terminateDelay = d
  | none => grace < h.terminateDelay

/-- What a call of the fake's `terminate` has done when it returns. -/
structure FakeTerminated (h : FakeChildHandle) (δ : Option ℕ) (grace : ℕ) : Prop where
  time : ∀ t, (h.terminate grace).resolvesAt t = t + span δ grace
  ok : (h.terminate grace).output = .ok ()
  terminated : (h.terminate grace).suspended.terminated = true ∧
    (h.terminate grace).returned.terminated = true
  spared : (h.terminate grace).suspended.killed = false
  killed_iff : (h.terminate grace).returned.killed = true ↔ ∀ d, δ = some d → grace < d
  waits : ∀ w, (h.onReturn (.terminate grace)).wait.resolvesAt w = w

variable {h : FakeChildHandle}

/-! What its `terminate` does, in either branch. -/

theorem terminate_output (h : FakeChildHandle) (grace : ℕ) :
    (h.terminate grace).output = .ok () := by
  unfold FakeChildHandle.terminate
  split_ifs <;> rfl

theorem terminate_resolvesAt (h : FakeChildHandle) (grace t : ℕ) :
    (h.terminate grace).resolvesAt t = t + min h.terminateDelay grace := by
  unfold FakeChildHandle.terminate
  split_ifs with hle
  · rw [Nat.min_eq_left hle]
    rfl
  · rw [Nat.min_eq_right (Nat.not_le.mp hle).le]
    rfl

theorem terminate_suspended (h : FakeChildHandle) (grace : ℕ) :
    (h.terminate grace).suspended = { h.state with terminated := true } := by
  unfold FakeChildHandle.terminate
  split_ifs <;> rfl

theorem terminate_returned (h : FakeChildHandle) (grace : ℕ) :
    (h.terminate grace).returned = { h.state with
      terminated := true, exited := true,
      killed := h.state.killed || decide (grace < h.terminateDelay) } := by
  unfold FakeChildHandle.terminate
  split_ifs with hle
  · simp [FakeChildHandle.markExited, hle]
  · simp [FakeChildHandle.markExited, Nat.not_le.mp hle]

theorem wait_of_exited (hex : h.state.exited = true) (w : ℕ) : h.wait.resolvesAt w = w := by
  simp [FakeChildHandle.wait, hex, Called.resolvesAt]

theorem Plays.min_eq (hp : Plays h δ grace) : min h.terminateDelay grace = span δ grace := by
  rcases δ with _ | d
  · have hlt : grace < h.terminateDelay := hp
    simp [span, hlt.le]
  · obtain rfl := hp
    rfl

theorem Plays.resists_iff (hp : Plays h δ grace) :
    grace < h.terminateDelay ↔ ∀ d, δ = some d → grace < d := by
  rcases δ with _ | d
  · refine iff_of_true hp ?_
    intro d hd
    cases hd
  · obtain rfl := hp
    simp

theorem fakeTerminated (hp : Plays h δ grace) (hk : h.state.killed = false) :
    FakeTerminated h δ grace := by
  refine ⟨fun t => ?_, terminate_output h grace, ⟨?_, ?_⟩, ?_, ?_, fun w => ?_⟩
  · rw [terminate_resolvesAt, hp.min_eq]
  · rw [terminate_suspended]
  · rw [terminate_returned]
  · rw [terminate_suspended]
    exact hk
  · rw [terminate_returned]
    simp only [hk, Bool.false_or, decide_eq_true_eq]
    exact hp.resists_iff
  · apply wait_of_exited
    simp only [FakeChildHandle.onReturn, terminate_returned]

/-- Some run of the real `terminate` does what the fake does. -/
theorem fake_realised (hf : FakeTerminated h δ grace) (t : ℕ) :
    ∃ ls u, (terminateOn (Member.mk δ).alone grace t).Run ls u ∧ u.await = none ∧
      u.now = (h.terminate grace).resolvesAt t ∧
      (.kill ∈ u.sent.map Prod.snd ↔ (h.terminate grace).returned.killed = true) := by
  by_cases hlate : ∀ d, δ = some d → grace < d
  · obtain ⟨ls, u, hr, hret⟩ := (terminate_returns (Member.mk δ).mortal [] grace t).reached rfl
    have hspec := terminated_of_return hr hret
    refine ⟨ls, u, hr, hret, ?_, iff_of_true (hspec.kills hlate) (hf.killed_iff.mpr hlate)⟩
    rw [hspec.time, hf.time]
  · have hkilled : ¬ (h.terminate grace).returned.killed = true := mt hf.killed_iff.mp hlate
    push Not at hlate
    obtain ⟨d, rfl, hle⟩ := hlate
    have hr : (terminateOn (Member.mk (some d)).alone grace t).Run [(.wait, t + d)]
        ⟨none, t + d, [(t, .term)]⟩ := exited_reachable rfl hle
    refine ⟨_, _, hr, rfl, ?_, iff_of_false (by simp) hkilled⟩
    rw [hf.time, ← (terminated_of_return hr rfl).time]

/-! The supervisor over either handle. -/

variable {cfg : SupervisorConfig} {cmd : CommandSpec} {t₀ : ℕ} {s s' : Timed} {en : Entry}
  {tr : List Entry}

/-- `terminate` was called, and nothing was since. -/
def CalledLast (cfg : SupervisorConfig) (acts : Acts) : Prop :=
  ∃ before t dones, acts = before ++ [(t, .call (.terminate cfg.grace))] ++ dones ∧
    ∀ a ∈ dones, ∃ ev, a.2 = .done ev

/-- A call of `terminate` succeeds, and a wait made since resolves. -/
structure Settles (env : Env) : Prop where
  reply : ∀ acts t grace, ∃ u, env.reply (acts ++ [(t, .call (.terminate grace))])
    (.terminate grace) = some (u, .ok ())
  wait : ∀ cfg acts c, CalledLast cfg acts → ∃ e, env.wait acts c = some e

theorem fake_settles (h : FakeChildHandle) (env : Env) : Settles (h.env env) := by
  refine ⟨fun acts t grace => ?_, fun _ acts c _ => ⟨_, rfl⟩⟩
  exact ⟨_, by simp only [FakeChildHandle.env, terminate_output]; rfl⟩

/-- Every call over a real child returns, and the child has ended then. -/
theorem child_settles (c : RealChild) (env : Env) : Settles (c.env env) := by
  have hreached : ∀ acts t grace, ∃ ls u,
      (terminateAfter c.dies (c.after acts).sent grace t).Run ls u ∧ u.await = none :=
    fun acts t grace => (terminate_returns c.mortal _ grace t).reached rfl
  refine ⟨fun acts t grace => ?_, ?_⟩
  · obtain ⟨ls, u, hr, hret⟩ := hreached acts t grace
    exact ⟨u.now, (c.reply_of_return env acts hr hret).1⟩
  · rintro cfg _ created ⟨before, t, dones, rfl, hdones⟩
    obtain ⟨ls, u, hr, hret⟩ := hreached before t cfg.grace
    obtain ⟨e, he⟩ := c.returned_ended (terminating_run c.mortal hr) hret
    refine ⟨e, ?_⟩
    rw [← he, ← (c.reply_of_return env before hr hret).2]
    simp only [RealChild.env, RealChild.fate, c.after_dones _ hdones]

/-- The states of a run that has called `terminate`. -/
inductive Dying (cfg : SupervisorConfig) : Timed → Prop
  | calling {s : Timed} (hp : s.phase = .killing ∨ s.phase = .escalating .terminating)
      (ha : ∃ acts t, s.acts = acts ++ [(t, .call (.terminate cfg.grace))]) : Dying cfg s
  | draining {s : Timed} (hp : s.phase = .draining ∨ s.phase = .escalating .draining)
      (ha : CalledLast cfg s.acts) : Dying cfg s
  | ended {s : Timed} (hp : s.phase = .returned (.ok 3)) : Dying cfg s

def dyingRank (s : Timed) : ℕ :=
  match s.phase with
  | .killing | .escalating .terminating => 2
  | .draining | .escalating .draining => 1
  | _ => 0

/-- Only the phases that await `terminate` call it. -/
theorem calls_terminate (p : Phase) (t : ℕ)
    (h : terminateTimes ((p.called cfg cmd).map fun op => (t, .call op)) ≠ []) :
    (p = .killing ∨ p = .escalating .terminating) ∧
      p.called cfg cmd = [.terminate cfg.grace] := by
  cases p with
  | killing => exact ⟨Or.inl rfl, rfl⟩
  | escalating e =>
    cases e with
    | terminating => exact ⟨Or.inr rfl, rfl⟩
    | racing | draining => exact absurd rfl h
  | _ => exact absurd rfl h

theorem dying_run (hr : (timed cfg cmd env t₀).Run tr s) (hs : ∀ s s' en, Dying cfg s →
    (timed cfg cmd env t₀).step s en s' → Dying cfg s') (h : terminateTimes s.acts ≠ []) :
    Dying cfg s := by
  induction hr with
  | nil hi =>
    obtain rfl := hi
    exact absurd rfl h
  | @snoc tr s s' en _ hst ih =>
    by_cases hbefore : terminateTimes s.acts = []
    · obtain ⟨-, -, -, rfl⟩ := timed_step_iff.mp hst
      rw [terminateTimes_after, hbefore, List.nil_append] at h
      obtain ⟨hp, hcalled⟩ := calls_terminate en.next en.time h
      refine .calling hp ⟨s.acts ++ (en.event.op?.toList.map fun _ => (en.time, .done en.event)),
        en.time, ?_⟩
      simp only [Timed.after, hcalled]
      rfl
    · exact hs _ _ _ (ih hbefore) hst

theorem terminate_completes (he : Settles env)
    (ha : ∃ acts t, s.acts = acts ++ [(t, .call (.terminate cfg.grace))]) :
    ∃ u, env.completes s (.child (.terminate cfg.grace)) =
      some (u, .terminated cfg.grace (.ok ())) := by
  obtain ⟨acts, t, ha⟩ := ha
  obtain ⟨u, hu⟩ := he.reply acts t cfg.grace
  exact ⟨max s.now u, by simp only [Env.completes, ha, hu]; rfl⟩

theorem wait_completes (he : Settles env) (ha : CalledLast cfg s.acts) :
    ∃ u status, env.completes s (.child .wait) = some (u, .exited status) := by
  obtain ⟨e, hw⟩ := he.wait cfg s.acts s.now ha
  exact ⟨max s.now e.1, e.2, by simp only [Env.completes, hw]; rfl⟩

/-- `terminate` has returned. -/
theorem called_after {p : Phase} {ev : Event} (hc : p.called cfg cmd = [])
    (ha : ∃ acts t, s.acts = acts ++ [(t, .call (.terminate cfg.grace))]) :
    CalledLast cfg (s.after cfg cmd t ev p).acts := by
  obtain ⟨acts, u, ha⟩ := ha
  refine ⟨acts, u, ev.op?.toList.map fun _ => (t, .done ev), ?_, ?_⟩
  · simp only [Timed.after, hc, ha, List.map_nil, List.append_nil]
  · intro a hmem
    obtain ⟨-, -, rfl⟩ := List.mem_map.1 hmem
    exact ⟨ev, rfl⟩

/-- `terminate` returns, the wait after it resolves, and the run returns. -/
theorem dying_step (t₀ : ℕ) (he : Settles env) (hs : Dying cfg s) : s.phase = .returned (.ok 3) ∨
    ∃ en₀ s₀, (∀ en s', (timed cfg cmd env t₀).step s en s' ↔ en = en₀ ∧ s' = s₀) ∧
      Dying cfg s₀ ∧ dyingRank s₀ < dyingRank s := by
  induction hs with
  | calling hp ha =>
    right
    obtain ⟨u, hc⟩ := terminate_completes he ha
    rcases hp with hp | hp
    · refine ⟨_, _, fun en s' => single_step (by rw [hp]; rfl) hc (by rw [hp]; rfl),
        .draining (Or.inl rfl) (called_after rfl ha), ?_⟩
      simp [dyingRank, hp, Timed.after]
    · refine ⟨_, _, fun en s' => single_step (by rw [hp]; rfl) hc (by rw [hp]; rfl),
        .draining (Or.inr rfl) (called_after rfl ha), ?_⟩
      simp [dyingRank, hp, Timed.after]
  | draining hp ha =>
    right
    obtain ⟨u, status, hc⟩ := wait_completes he ha
    rcases hp with hp | hp
    · refine ⟨_, _, fun en s' => single_step (by rw [hp]; rfl) hc (by rw [hp]; rfl), .ended rfl, ?_⟩
      simp [dyingRank, hp, Timed.after]
    · refine ⟨_, _, fun en s' => single_step (by rw [hp]; rfl) hc (by rw [hp]; rfl), .ended rfl, ?_⟩
      simp [dyingRank, hp, Timed.after]
  | ended hp => exact Or.inl hp

theorem dying_leads (he : Settles env) (hs : Dying cfg s) :
    ((timed cfg cmd env t₀).startAt s).Leads fun s' => s'.phase = .returned (.ok 3) := by
  apply Lts.leads_of_determined (Dying cfg) dyingRank (dyingRank s)
  · rintro _ rfl
    exact ⟨hs, le_rfl⟩
  · intro x hx
    rcases dying_step t₀ he hx with hp | hstep
    · refine Or.inl ⟨hp, fun en y hst => ?_⟩
      have hst : (timed cfg cmd env t₀).step x en y := hst
      exact returned_stuck hp hst
    · exact Or.inr hstep

/-- Every run that called `terminate` goes on to return 3. -/
theorem returns_three (he : Settles env) (hr : (timed cfg cmd env t₀).Run tr s)
    (h : terminateTimes s.acts ≠ []) :
    ((timed cfg cmd env t₀).startAt s).Leads fun s' => s'.phase = .returned (.ok 3) := by
  apply dying_leads he (dying_run hr ?_ h)
  intro x y en hx hst
  rcases dying_step t₀ he hx with hp | ⟨en₀, s₀, hiff, hs₀, -⟩
  · exact absurd hst (returned_stuck hp)
  · obtain ⟨-, rfl⟩ := (hiff en y).mp hst
    exact hs₀

/-- What the fake's `terminate` does, the real one can do; every call of the real one returns at the
same instant, with the signals as described and the child dead; and over either the supervisor
returns 3. -/
theorem fake_terminate_refines (hp : Plays h δ grace) (hk : h.state.killed = false) (t : ℕ) :
    FakeTerminated h δ grace ∧
    (∃ ls u, (terminateOn (Member.mk δ).alone grace t).Run ls u ∧ u.await = none ∧
      u.now = (h.terminate grace).resolvesAt t ∧
      (.kill ∈ u.sent.map Prod.snd ↔ (h.terminate grace).returned.killed = true) ∧
      ∀ w, u.now ≤ w →
        Under.readyAt (Member.mk δ).diesAt ⟨some .waiting, w, u.sent⟩ .wait = some w) ∧
    (∀ ls u, (terminateOn (Member.mk δ).alone grace t).Run ls u → u.await = none →
      Terminated δ grace t u) ∧
    ((terminateOn (Member.mk δ).alone grace t).Leads fun u => u.await = none) ∧
    ∀ cfg cmd env t₀, ∀ c : RealChild, ∀ e ∈ [h.env env, c.env env], ∀ tr s,
      (timed cfg cmd e t₀).Run tr s → terminateTimes s.acts ≠ [] →
      ((timed cfg cmd e t₀).startAt s).Leads fun s' => s'.phase = .returned (.ok 3) := by
  have hf := fakeTerminated hp hk
  refine ⟨hf, ?_, fun ls u => terminated_of_return,
    terminate_returns (Member.mk δ).mortal [] grace t, ?_⟩
  · obtain ⟨ls, u, hr, hret, hnow, hkill⟩ := fake_realised hf t
    exact ⟨ls, u, hr, hret, hnow, hkill, fun w => wait_of_dead (terminated_of_return hr hret).dead⟩
  · intro cfg cmd env t₀ c e hmem tr s hr hcalled
    rcases List.mem_cons.1 hmem with rfl | hmem
    · exact returns_three (fake_settles h env) hr hcalled
    · obtain rfl := List.mem_singleton.1 hmem
      exact returns_three (child_settles c env) hr hcalled

/-- A child that takes 10 to exit, given a grace of 2. -/
theorem fake_terminate_resistant :
    FakeTerminated ((FakeChildHandle.new 0 60).withTerminateDelay 10) (some 10) 2 :=
  have hp : Plays ((FakeChildHandle.new 0 60).withTerminateDelay 10) (some 10) 2 := rfl
  (fake_terminate_refines hp rfl 0).1

end Condrun
