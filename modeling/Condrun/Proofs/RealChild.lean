import Condrun.Proofs.Terminate
import Condrun.Spec.Handles

/-! A real child behind `TokioChildHandle`: what a call of `terminate` comes to does not depend on
who wins the races in it. -/

namespace Condrun

open TokioChildHandle

variable {c : RealChild} {prior sent : List (ℕ × Sig)} {grace t x : ℕ} {u u' : Under}
  {status : ExitStatus} {ls : List (OsFut × ℕ)} {env : Env} {acts : Acts}

namespace RealChild

theorem dies_eq_some : c.dies sent = some x ↔ ∃ status, c.ends sent = some (x, status) := by
  simp [dies]

theorem mortal (c : RealChild) : Mortal c.dies := by
  intro sent x
  by_cases h : ∀ y status, c.ends sent = some (y, status) → x < y
  · exact ⟨x, le_rfl, dies_eq_some.mpr ⟨_, c.killed sent x h⟩⟩
  · push Not at h
    obtain ⟨y, status, he, hle⟩ := h
    exact ⟨y, hle, dies_eq_some.mpr ⟨_, c.ended _ _ _ _ _ he hle⟩⟩

/-- The child has not ended before `t`. -/
def AliveTill (c : RealChild) (sent : List (ℕ × Sig)) (t : ℕ) : Prop :=
  ∀ x status, c.ends sent = some (x, status) → t ≤ x

theorem AliveTill.snoc (h : c.AliveTill sent t) (sig : Sig) :
    c.AliveTill (sent ++ [(t, sig)]) t := by
  intro x status he
  by_contra hlt
  exact hlt (h x status (c.later _ _ _ _ _ he (Nat.not_le.mp hlt)))

/-! The handle takes the steps of the method. -/

theorem advance_spec (c : RealChild) (u : Under) :
    (∃ l, Under.Step c.dies u l (c.advance u)) ∨
    (c.advance u = u ∧ ∀ l u', ¬ Under.Step c.dies u l u') := by
  unfold advance
  cases ha : u.await with
  | none =>
    refine Or.inr ⟨rfl, ?_⟩
    rintro l u' ⟨a, ha', -⟩
    rw [ha] at ha'
    cases ha'
  | some a =>
    cases hf : a.awaits.first (u.readyAt c.dies) with
    | none =>
      refine Or.inr ⟨by simp only [hf], ?_⟩
      rintro l u' ⟨a', ha', hfires, -⟩
      rw [ha] at ha'
      obtain rfl := Option.some.inj ha'
      obtain ⟨g, v, hg⟩ := Select.exists_first hfires.mem hfires.ready_eq
      rw [hf] at hg
      cases hg
    | some e =>
      simp only [hf]
      exact Or.inl ⟨e, a, ha, Select.fires_of_first hf, rfl⟩

theorem advance_terminating (h : Terminating c.dies prior grace t u) :
    Terminating c.dies prior grace t (c.advance u) ∧
      terminatingRank (c.advance u) ≤ terminatingRank u - 1 := by
  rcases c.advance_spec u with ⟨l, hst⟩ | ⟨he, hstuck⟩
  · exact terminating_step c.mortal h hst
  · rcases terminating_goesOn c.mortal h with hret | ⟨l, u', hst⟩
    · rw [he]
      refine ⟨h, ?_⟩
      rw [terminatingRank, hret]
      exact Nat.zero_le _
    · exact absurd hst (hstuck l u')

/-- The handle comes to the end of a call of `terminate`. -/
theorem act_terminate (c : RealChild) (u : Under) (t grace : ℕ) :
    Terminating c.dies u.sent grace t (c.act u (t, .call (.terminate grace))) ∧
      (c.act u (t, .call (.terminate grace))).await = none := by
  have h0 : Terminating c.dies u.sent grace t
      (.after t u.sent (TokioChildHandle.terminate grace)) := .racing
  have hrank : terminatingRank (.after t u.sent (TokioChildHandle.terminate grace)) = 2 := rfl
  obtain ⟨h1, hrank1⟩ := advance_terminating h0
  obtain ⟨h2, hrank2⟩ := advance_terminating h1
  refine ⟨h2, ?_⟩
  have hz : terminatingRank
      (c.advance (c.advance (.after t u.sent (TokioChildHandle.terminate grace)))) = 0 := by
    omega
  unfold terminatingRank at hz
  split at hz
  · cases hz
  · cases hz
  · assumption

/-- A forwarded signal is sent at once. -/
theorem act_signal (c : RealChild) (u : Under) (t : ℕ) (kind : SignalKind) :
    ∃ sig, c.act u (t, .call (.signal kind)) = ⟨none, t, u.sent ++ [(t, sig)]⟩ := by
  cases kind <;> exact ⟨_, rfl⟩

theorem after_snoc (c : RealChild) (acts : Acts) (a : ℕ × Act) :
    c.after (acts ++ [a]) = c.act (c.after acts) a := by
  simp [after]

/-- What has been done to the child is not changed by what completes. -/
theorem after_dones (c : RealChild) (acts : Acts) {dones : Acts}
    (h : ∀ a ∈ dones, ∃ ev, a.2 = .done ev) : c.after (acts ++ dones) = c.after acts := by
  induction dones using List.reverseRecOn with
  | nil => rw [List.append_nil]
  | append_singleton dones a ih =>
    obtain ⟨t, act⟩ := a
    obtain ⟨ev, rfl⟩ := h (t, act) (by simp)
    rw [← List.append_assoc, after_snoc, ih fun a ha => h a (by simp [ha])]
    rfl

/-! How a call of `terminate` ends. -/

/-- Any two ways to return are one to the child and to the clock. -/
theorem returned_unique (h : Terminating c.dies prior grace t u)
    (h' : Terminating c.dies prior grace t u') (hret : u.await = none) (hret' : u'.await = none) :
    u.now = u'.now ∧ c.ends u.sent = c.ends u'.sent := by
  -- where both futures of the race are ready the child ends at the end of the grace
  have htie : ∀ d, c.dies (prior ++ [(t, .term)]) = some d → max t d ≤ t + grace →
      t + grace ≤ max t d → max t d = t + grace ∧ c.ends (prior ++ [(t, .term)]) =
        c.ends (prior ++ [(t, .term)] ++ [(t + grace, .kill)]) := by
    intro d hd hle hge
    obtain ⟨status, he⟩ := dies_eq_some.mp hd
    exact ⟨by omega, he.trans (c.ended _ _ _ _ _ he (by omega)).symm⟩
  cases h with
  | racing => cases hret
  | reaping => cases hret
  | exited hd hle =>
    cases h' with
    | racing => cases hret'
    | reaping => cases hret'
    | exited hd' =>
      rw [hd] at hd'
      rw [Option.some.inj hd']
      exact ⟨rfl, rfl⟩
    | killed hlate => exact htie _ hd hle (hlate _ hd)
  | killed hlate =>
    cases h' with
    | racing => cases hret'
    | reaping => cases hret'
    | exited hd hle =>
      obtain ⟨hnow, hends⟩ := htie _ hd hle (hlate _ hd)
      exact ⟨hnow.symm, hends.symm⟩
    | killed => exact ⟨rfl, rfl⟩

theorem returned_ended (c : RealChild) (h : Terminating c.dies prior grace t u)
    (hret : u.await = none) : ∃ e, c.ends u.sent = some e := by
  cases h with
  | racing => cases hret
  | reaping => cases hret
  | exited hd =>
    obtain ⟨status, he⟩ := dies_eq_some.mp hd
    exact ⟨_, he⟩
  | killed =>
    obtain ⟨y, -, hy⟩ := c.mortal (prior ++ [(t, .term)]) (t + grace)
    obtain ⟨status, he⟩ := dies_eq_some.mp hy
    exact ⟨_, he⟩

/-- Over a child that is alive, a call returns when the child has ended, within the grace. -/
theorem returned_at_end (ha : c.AliveTill prior t) (h : Terminating c.dies prior grace t u)
    (hret : u.await = none) :
    (∃ status, c.ends u.sent = some (u.now, status)) ∧ t ≤ u.now ∧ u.now ≤ t + grace := by
  have hterm := ha.snoc .term
  cases h with
  | racing => cases hret
  | reaping => cases hret
  | exited hd hle =>
    obtain ⟨status, he⟩ := dies_eq_some.mp hd
    have hge := hterm _ _ he
    rw [Nat.max_eq_right hge] at hle ⊢
    exact ⟨⟨status, he⟩, hge, hle⟩
  | killed hlate =>
    refine ⟨?_, Nat.le_add_right t grace, le_rfl⟩
    by_cases hd : ∃ status, c.ends (prior ++ [(t, .term)]) = some (t + grace, status)
    · obtain ⟨status, he⟩ := hd
      exact ⟨status, c.ended _ _ _ _ _ he le_rfl⟩
    · refine ⟨_, c.killed _ _ fun x status he => ?_⟩
      have hge := hlate x (dies_eq_some.mpr ⟨status, he⟩)
      rw [Nat.max_eq_right (hterm x status he)] at hge
      refine lt_of_le_of_ne hge ?_
      rintro rfl
      exact hd ⟨status, he⟩

theorem reply_returned (c : RealChild) (env : Env) {acts : Acts} (op : ChildOp)
    (h : (c.after acts).await = none) :
    (c.env env).reply acts op = some ((c.after acts).now, .ok ()) := if_pos h

/-- However the races in it go, a call of `terminate` that returns does so at the instant and with
the child that the surroundings have. -/
theorem reply_of_return (c : RealChild) (env : Env) (acts : Acts)
    (h : (terminateAfter c.dies (c.after acts).sent grace t).Run ls u) (hret : u.await = none) :
    (c.env env).reply (acts ++ [(t, .call (.terminate grace))]) (.terminate grace) =
      some (u.now, .ok ()) ∧
    c.fate (acts ++ [(t, .call (.terminate grace))]) = c.ends u.sent := by
  obtain ⟨hact, hact'⟩ := c.act_terminate (c.after acts) t grace
  obtain ⟨hnow, hends⟩ := returned_unique (terminating_run c.mortal h) hact hret hact'
  rw [← after_snoc] at hact'
  refine ⟨?_, ?_⟩
  · rw [c.reply_returned env _ hact', after_snoc, hnow]
  · rw [fate, after_snoc, hends]

end RealChild

end Condrun
