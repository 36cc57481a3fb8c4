import Condrun.Spec.Tokio

/-! The runs of `terminate`, over anything that a `SIGKILL` ends. -/

namespace Condrun

open TokioChildHandle

variable {dies : List (ℕ × Sig) → Option ℕ} {prior sent : List (ℕ × Sig)} {grace t d : ℕ}
  {u u' : Under} {l : OsFut × ℕ} {ls : List (OsFut × ℕ)}

/-- A `SIGKILL` ends what is still alive then. -/
def Mortal (dies : List (ℕ × Sig) → Option ℕ) : Prop :=
  ∀ sent x, ∃ y ≤ x, dies (sent ++ [(x, .kill)]) = some y

/-- The states of a call, which finds that the child dies at an instant that the signals sent before
may have brought forward. -/
inductive Terminating (dies : List (ℕ × Sig) → Option ℕ) (prior : List (ℕ × Sig))
    (grace t : ℕ) : Under → Prop
  | racing : Terminating dies prior grace t ⟨some (.racing grace), t, prior ++ [(t, .term)]⟩
  | exited {d : ℕ} (hd : dies (prior ++ [(t, .term)]) = some d) (hle : max t d ≤ t + grace) :
      Terminating dies prior grace t ⟨none, max t d, prior ++ [(t, .term)]⟩
  | reaping (h : ∀ d, dies (prior ++ [(t, .term)]) = some d → t + grace ≤ max t d) :
      Terminating dies prior grace t
        ⟨some .reaping, t + grace, prior ++ [(t, .term)] ++ [(t + grace, .kill)]⟩
  | killed (h : ∀ d, dies (prior ++ [(t, .term)]) = some d → t + grace ≤ max t d) :
      Terminating dies prior grace t
        ⟨none, t + grace, prior ++ [(t, .term)] ++ [(t + grace, .kill)]⟩

theorem after_return (now : ℕ) (sent : List (ℕ × Sig)) :
    Under.after now sent ⟨[], none⟩ = ⟨none, now, sent⟩ := by
  simp [Under.after]

def terminatingRank (u : Under) : ℕ :=
  match u.await with
  | some (.racing _) => 2
  | some _ => 1
  | none => 0

theorem readyAt_wait (dies : List (ℕ × Sig) → Option ℕ) (a : Option Await) (now : ℕ)
    (sent : List (ℕ × Sig)) :
    Under.readyAt dies ⟨a, now, sent⟩ .wait = (dies sent).map (max now) := rfl

theorem ready_of_dies {a : Option Await} {now : ℕ} (hd : dies sent = some d) :
    Under.readyAt dies ⟨a, now, sent⟩ .wait = some (max now d) := by
  rw [readyAt_wait, hd]
  rfl

theorem Mortal.reaping_ready (hk : Mortal dies) (prior : List (ℕ × Sig)) (t grace : ℕ) :
    Under.readyAt dies ⟨some .reaping, t + grace,
      prior ++ [(t, .term)] ++ [(t + grace, .kill)]⟩ .wait = some (t + grace) := by
  obtain ⟨y, hle, hy⟩ := hk (prior ++ [(t, .term)]) (t + grace)
  rw [ready_of_dies hy, Nat.max_eq_left hle]

theorem terminating_step (hk : Mortal dies) (h : Terminating dies prior grace t u)
    (hst : Under.Step dies u l u') :
    Terminating dies prior grace t u' ∧ terminatingRank u' ≤ terminatingRank u - 1 := by
  obtain ⟨f, v⟩ := l
  obtain ⟨a, ha, hf, rfl⟩ := hst
  have hmem := hf.mem
  have hready := hf.ready_eq
  induction h with
  | racing =>
    obtain rfl := Option.some.inj ha
    simp only [Await.awaits, List.mem_cons, List.not_mem_nil, or_false] at hmem
    rcases hmem with rfl | rfl
    · rw [readyAt_wait, Option.map_eq_some_iff] at hready
      obtain ⟨d, hd, rfl⟩ := hready
      have hle := hf.le (g := .sleep grace) (by simp [Await.awaits]) rfl
      have hexited := Terminating.exited hd hle
      rw [← after_return] at hexited
      exact ⟨hexited, Nat.zero_le _⟩
    · obtain rfl := Option.some.inj hready
      exact ⟨.reaping fun d hd => hf.le (by simp [Await.awaits]) (ready_of_dies hd), le_rfl⟩
  | reaping hlate =>
    obtain rfl := Option.some.inj ha
    simp only [Await.awaits, List.mem_singleton] at hmem
    subst hmem
    rw [hk.reaping_ready] at hready
    obtain rfl := Option.some.inj hready
    have hkilled := Terminating.killed hlate
    rw [← after_return] at hkilled
    exact ⟨hkilled, Nat.zero_le _⟩
  | exited => cases ha
  | killed => cases ha

theorem terminating_goesOn (hk : Mortal dies) (h : Terminating dies prior grace t u) :
    u.await = none ∨ ∃ l u', Under.Step dies u l u' := by
  induction h with
  | racing =>
    have hsleep : Under.readyAt dies ⟨some (.racing grace), t, prior ++ [(t, .term)]⟩
        (.sleep grace) = some (t + grace) := rfl
    obtain ⟨g, v, hf⟩ := Select.exists_fires (a := (Await.racing grace).awaits)
      (by simp [Await.awaits]) hsleep
    exact Or.inr ⟨(g, v), _, _, rfl, hf, rfl⟩
  | reaping =>
    obtain ⟨g, v, hf⟩ := Select.exists_fires (a := Await.reaping.awaits) (by simp [Await.awaits])
      (hk.reaping_ready prior t grace)
    exact Or.inr ⟨(g, v), _, _, rfl, hf, rfl⟩
  | exited => exact Or.inl rfl
  | killed => exact Or.inl rfl

theorem terminating_run (hk : Mortal dies) (h : (terminateAfter dies prior grace t).Run ls u) :
    Terminating dies prior grace t u := by
  refine Lts.Run.invariant ?_ ?_ h
  · rintro _ rfl
    exact .racing
  · intro _ _ _ hu hst
    exact (terminating_step hk hu hst).1

/-- Every call returns. -/
theorem terminate_returns (hk : Mortal dies) (prior : List (ℕ × Sig)) (grace t : ℕ) :
    (terminateAfter dies prior grace t).Leads fun u => u.await = none := by
  apply Lts.leads_of_rank (Terminating dies prior grace t) terminatingRank 2
  · rintro _ rfl
    exact ⟨.racing, le_rfl⟩
  · intro _ _ _ hu hst
    exact terminating_step hk hu hst
  · intro u hu hz
    induction hu with
    | racing => cases hz
    | reaping => cases hz
    | exited => rfl
    | killed => rfl
  · exact fun _ hu => terminating_goesOn hk hu

end Condrun
