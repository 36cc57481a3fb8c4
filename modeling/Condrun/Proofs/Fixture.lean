import Condrun.Spec.Fixture

/-! A timeline is looked up as it would be replayed. -/

namespace Condrun

variable {T : Type*} [LinearOrder T] {l l' : List (TimedSnapshot T)} {x y : TimedSnapshot T}
  {e e₁ e₂ : T}

/-- `x` has started at `e`, none that has started is later, and of those at its own time it is the
last. -/
structure IsLatest (l : List (TimedSnapshot T)) (e : T) (x : TimedSnapshot T) : Prop where
  mem : x ∈ l
  started : x.atSecs ≤ e
  greatest : ∀ y ∈ l, y.atSecs ≤ e → y.atSecs ≤ x.atSecs
  last : (l.filter fun y => y.atSecs = x.atSecs).getLast? = some x

/-- The state of a replay at `e`: each entry overwrites it when its time comes. -/
def replayTimeline (l : List (TimedSnapshot T)) (e : T) : NetworkSnapshot :=
  l.foldl (fun state s => if s.atSecs ≤ e then s.state else state) default

def sortByTime (l : List (TimedSnapshot T)) : List (TimedSnapshot T) :=
  l.mergeSort fun a b => a.atSecs ≤ b.atSecs

/-- The entries that have started. -/
def started (l : List (TimedSnapshot T)) (e : T) : List (TimedSnapshot T) :=
  l.filter fun s => s.atSecs ≤ e

theorem snapshotAt_eq (l : List (TimedSnapshot T)) (e : T) : snapshotAt l e =
    ((maxBy (compareOn TimedSnapshot.atSecs) (started l e)).map TimedSnapshot.state).getD default :=
  rfl

theorem isLatest_of_lastMax (h : LastMax TimedSnapshot.atSecs (started l e) x) :
    IsLatest l e x := by
  have hx := List.mem_filter.mp h.mem
  have hle : x.atSecs ≤ e := by simpa using hx.2
  refine ⟨hx.1, hle, ?_, ?_⟩
  · intro y hy hye
    exact h.le y (List.mem_filter.mpr ⟨hy, by simpa using hye⟩)
  · have hlast := h.last
    rw [started, List.filter_filter] at hlast
    rw [← hlast]
    congr 1
    refine List.filter_congr fun y _ => ?_
    by_cases hy : y.atSecs = x.atSecs
    · simp [hy, hle]
    · simp [hy]

/-- The state found is that of the latest entry, or the default when there is none. -/
theorem snapshotAt_cases (l : List (TimedSnapshot T)) (e : T) :
    (∃ x, IsLatest l e x ∧ snapshotAt l e = x.state) ∨
    ((∀ y ∈ l, ¬ y.atSecs ≤ e) ∧ snapshotAt l e = ⟨false, false⟩) := by
  rw [snapshotAt_eq]
  cases h : maxBy (compareOn TimedSnapshot.atSecs) (started l e) with
  | none =>
    right
    have hnil := maxBy_eq_none_iff.mp h
    refine ⟨fun y hy hle => ?_, rfl⟩
    have hmem : y ∈ started l e := List.mem_filter.mpr ⟨hy, by simpa using hle⟩
    rw [hnil] at hmem
    exact List.not_mem_nil hmem
  | some x =>
    left
    exact ⟨x, isLatest_of_lastMax (maxBy_eq_some_iff.mp h), rfl⟩

theorem snapshotAt_congr (h : started l e₁ = started l' e₂) :
    snapshotAt l e₁ = snapshotAt l' e₂ := by
  rw [snapshotAt_eq, snapshotAt_eq, h]

/-- Nothing changes while no entry starts. -/
theorem snapshotAt_const (hle : e₁ ≤ e₂) (h : ∀ x ∈ l, ¬ (e₁ < x.atSecs ∧ x.atSecs ≤ e₂)) :
    snapshotAt l e₁ = snapshotAt l e₂ := by
  apply snapshotAt_congr
  refine List.filter_congr fun x hx => ?_
  have hx := h x hx
  rw [decide_eq_decide]
  refine ⟨fun h1 => h1.trans hle, fun h2 => ?_⟩
  by_contra h1
  exact hx ⟨not_le.mp h1, h2⟩

theorem snapshotAt_sameByKey (h : SameByKey TimedSnapshot.atSecs l l') (e : T) :
    snapshotAt l e = snapshotAt l' e := by
  rw [snapshotAt_eq, snapshotAt_eq, started, started, (h.filter _).maxBy_eq]

theorem replayTimeline_eq (l : List (TimedSnapshot T)) (e : T) :
    replayTimeline l e = ((started l e).getLast?.map TimedSnapshot.state).getD default := by
  induction l using List.reverseRecOn with
  | nil => rfl
  | append_singleton l a ih =>
    unfold replayTimeline started at ih ⊢
    rw [List.foldl_append, ih, List.filter_append]
    by_cases ha : a.atSecs ≤ e
    · simp [ha]
    · simp [ha]

theorem sortByTime_sorted (l : List (TimedSnapshot T)) :
    (sortByTime l).Pairwise fun a b => a.atSecs ≤ b.atSecs := by
  have h : (sortByTime l).Pairwise fun a b => decide (a.atSecs ≤ b.atSecs) = true := by
    apply List.pairwise_mergeSort
    · intro a b c hab hbc
      simp only [decide_eq_true_eq] at hab hbc ⊢
      exact hab.trans hbc
    · intro a b
      simpa using le_total a.atSecs b.atSecs
  simpa using h

/-- A replay of the entries, sorted stably by their times. -/
theorem replayTimeline_sortByTime (l : List (TimedSnapshot T)) (e : T) :
    replayTimeline (sortByTime l) e = snapshotAt l e := by
  have hsorted : (started (sortByTime l) e).Pairwise fun a b => a.atSecs ≤ b.atSecs :=
    (sortByTime_sorted l).filter _
  rw [snapshotAt_sameByKey (sameByKey_mergeSort l) e, replayTimeline_eq, snapshotAt_eq,
    ← maxBy_of_sorted hsorted]
  rfl

/-- A sequence shows the flags of its replay. -/
theorem read_sequence (flag : NetworkSnapshot → Bool) (secs : ℕ → T) (created now : ℕ) :
    FixtureNetworkState.read flag secs ⟨.sequence l, created⟩ now =
      flag (replayTimeline (sortByTime l) (secs (now - created))) := by
  rw [replayTimeline_sortByTime]
  rfl

/-- The lookup is the step function that the timeline describes. -/
theorem snapshot_at_timeline (l : List (TimedSnapshot T)) :
    (∀ e, (∃ x, IsLatest l e x ∧ snapshotAt l e = x.state) ∨
      ((∀ y ∈ l, ¬ y.atSecs ≤ e) ∧ snapshotAt l e = ⟨false, false⟩)) ∧
    (∀ e₁ e₂, e₁ ≤ e₂ → (∀ x ∈ l, ¬ (e₁ < x.atSecs ∧ x.atSecs ≤ e₂)) →
      snapshotAt l e₁ = snapshotAt l e₂) ∧
    (∀ l', l.Perm l' → (l.map TimedSnapshot.atSecs).Nodup → ∀ e, snapshotAt l e = snapshotAt l' e) ∧
    (∀ l', SameByKey TimedSnapshot.atSecs l l' → ∀ e, snapshotAt l e = snapshotAt l' e) ∧
    ∀ e, replayTimeline (sortByTime l) e = snapshotAt l e := by
  refine ⟨snapshotAt_cases l, ?_, ?_, ?_, replayTimeline_sortByTime l⟩
  · exact fun _ _ hle h => snapshotAt_const hle h
  · exact fun _ hp hn => snapshotAt_sameByKey (sameByKey_of_perm hp hn)
  · exact fun _ h => snapshotAt_sameByKey h

/-- Unsorted, with two entries at 5. -/
theorem snapshot_at_timeline_ties :
    snapshotAt [⟨5, ⟨true, false⟩⟩, ⟨2, ⟨true, true⟩⟩, ⟨5, ⟨false, true⟩⟩] 5 =
      snapshotAt [⟨5, ⟨true, false⟩⟩, ⟨2, ⟨true, true⟩⟩, ⟨5, ⟨false, true⟩⟩] 9 :=
  (snapshot_at_timeline [⟨5, ⟨true, false⟩⟩, ⟨2, ⟨true, true⟩⟩, ⟨5, ⟨false, true⟩⟩]).2.1 5 9
    (by decide) (by decide)

end Condrun
