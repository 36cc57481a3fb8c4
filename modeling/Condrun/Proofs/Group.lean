import Condrun.Proofs.Terminate

/-! What a `terminate` leaves of the process group. -/

namespace Condrun

open TokioChildHandle

variable {g : Group} {m : Member} {grace t d : ℕ} {u u' : Under} {ls : List (OsFut × ℕ)}

theorem diesAt_term : m.diesAt [(t, .term)] = m.onTerm.map (t + ·) := by
  obtain ⟨_ | d⟩ := m <;> rfl

/-- A `SIGKILL` at `x` ends what is still alive then. -/
theorem diesAt_snoc_kill (m : Member) (sent : List (ℕ × Sig)) (x : ℕ) :
    m.diesAt (sent ++ [(x, .kill)]) = some (min ((m.diesAt sent).getD x) x) := by
  unfold Member.diesAt
  rw [List.filterMap_append]
  rcases sent.filterMap m.reaction with _ | ⟨a, as⟩
  · exact congrArg some (Nat.min_self x).symm
  · rw [List.cons_append, List.min?_cons', List.min?_cons', List.foldl_append]
    rfl

theorem Member.mortal (m : Member) : Mortal m.diesAt :=
  fun sent x => ⟨_, Nat.min_le_right _ _, diesAt_snoc_kill m sent x⟩

/-- The wait may win the race when the leader exits within the grace. -/
theorem exited_reachable (hd : g.leader.onTerm = some d) (hle : d ≤ grace) :
    (terminateOn g grace t).Run [(.wait, t + d)] ⟨none, t + d, [(t, .term)]⟩ := by
  have h0 : (terminateOn g grace t).init ⟨some (.racing grace), t, [(t, .term)]⟩ := rfl
  have hready : Under.readyAt g.leader.diesAt ⟨some (.racing grace), t, [(t, .term)]⟩ .wait =
      some (t + d) := by
    rw [ready_of_dies (d := t + d) (by rw [diesAt_term, hd]; rfl)]
    exact congrArg some (Nat.max_eq_right (Nat.le_add_right t d))
  refine (Lts.Run.nil h0).snoc ⟨_, rfl, ?_, rfl⟩
  refine (Select.firesAt_unbiased _).mpr ⟨by simp, hready, ?_⟩
  intro f hf v hv
  simp only [List.mem_cons, List.not_mem_nil, or_false] at hf
  rcases hf with rfl | rfl
  · rw [hready] at hv
    exact (Option.some.inj hv).le
  · obtain rfl := Option.some.inj hv
    simpa using hle

/-- Every other member is gone when the leader is, if the leader goes within the grace at all. -/
def GroupFollows (g : Group) (grace : ℕ) : Prop :=
  ∀ d, g.leader.onTerm = some d → d ≤ grace → ∀ m ∈ g.others, ∃ d', m.onTerm = some d' ∧ d' ≤ d

/-- Whenever `terminate(grace)` returned, no member of the group is alive. -/
def KillsGroup (g : Group) (grace t : ℕ) : Prop :=
  ∀ ls u, (terminateOn g grace t).Run ls u → u.await = none →
    ∀ m ∈ g.leader :: g.others, m.DeadBy u.sent u.now

theorem deadBy_term_iff : m.DeadBy [(t, .term)] (t + d) ↔ ∃ d', m.onTerm = some d' ∧ d' ≤ d := by
  unfold Member.DeadBy
  rw [diesAt_term]
  refine ⟨?_, ?_⟩
  · rintro ⟨u, hu, hle⟩
    obtain ⟨d', hd', rfl⟩ := Option.map_eq_some_iff.mp hu
    exact ⟨d', hd', by omega⟩
  · rintro ⟨d', hd', hle⟩
    exact ⟨t + d', by rw [hd']; rfl, by omega⟩

theorem deadBy_kill : m.DeadBy [(t, .term), (t + grace, .kill)] (t + grace) :=
  ⟨_, diesAt_snoc_kill m [(t, .term)] _, Nat.min_le_right _ _⟩

theorem kills_group_iff (g : Group) (grace t : ℕ) :
    KillsGroup g grace t ↔ GroupFollows g grace := by
  refine ⟨?_, ?_⟩
  · intro h d hd hle m hm
    have hrun := exited_reachable (t := t) hd hle
    exact deadBy_term_iff.mp (h _ _ hrun rfl m (List.mem_cons_of_mem _ hm))
  · intro h ls u hrun hret m hm
    cases terminating_run g.leader.mortal hrun with
    | racing | reaping => cases hret
    | exited hd hle =>
      rw [List.nil_append, diesAt_term, Option.map_eq_some_iff] at hd
      obtain ⟨d, hd, rfl⟩ := hd
      rw [Nat.max_eq_right (Nat.le_add_right t d)] at hle ⊢
      have hle : d ≤ grace := Nat.le_of_add_le_add_left hle
      refine deadBy_term_iff.mpr ?_
      rcases List.mem_cons.1 hm with rfl | hm
      · exact ⟨d, hd, le_rfl⟩
      · exact h d hd hle m hm
    | killed => exact deadBy_kill

/-- The leader exits at once and a worker that ignores `SIGTERM` outlives the call. -/
theorem worker_survives : ¬ KillsGroup ⟨⟨some 0⟩, [⟨none⟩]⟩ 5 0 := by
  intro h
  have hrun : (terminateOn ⟨⟨some 0⟩, [⟨none⟩]⟩ 5 0).Run [(.wait, 0)] ⟨none, 0, [(0, .term)]⟩ :=
    exited_reachable (d := 0) rfl (Nat.zero_le 5)
  obtain ⟨u, hu, -⟩ := h _ _ hrun rfl ⟨none⟩ (by simp)
  rw [diesAt_term] at hu
  cases hu

end Condrun
