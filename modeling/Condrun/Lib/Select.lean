import Mathlib.Data.List.MinMax
import Mathlib.Data.List.Rotate
import Mathlib.Order.Lattice

/-! A `select!` over pending futures. One poll visits the branches in turn and the first ready one
wins; a biased `select!` visits them as written, any other starts at a branch of its own choice and
goes round. -/

structure Select (F : Type*) where
  biased : Bool
  branches : List F
  deriving DecidableEq

namespace Select

variable {F T : Type*} {a : Select F} {ready : F → Prop} {f g : F} {fs : List F}

/-- The orders in which a poll may visit the branches. -/
def Order (a : Select F) (o : List F) : Prop :=
  if a.biased then o = a.branches else a.branches ~r o

/-- `f` is the first ready branch of a poll. -/
def Wins (a : Select F) (ready : F → Prop) (f : F) : Prop :=
  ∃ pre post, a.Order (pre ++ f :: post) ∧ ready f ∧ ∀ g ∈ pre, ¬ ready g

theorem Order.mem_iff {o : List F} (h : a.Order o) : f ∈ o ↔ f ∈ a.branches := by
  unfold Order at h
  split_ifs at h
  · rw [h]
  · exact h.mem_iff.symm

theorem Wins.mem (h : a.Wins ready f) : f ∈ a.branches := by
  obtain ⟨pre, post, ho, -, -⟩ := h
  exact ho.mem_iff.mp (by simp)

theorem Wins.isReady (h : a.Wins ready f) : ready f := by
  obtain ⟨-, -, -, hf, -⟩ := h
  exact hf

/-- A winner still wins when fewer branches are ready. -/
theorem Wins.anti {ready' : F → Prop} (h : a.Wins ready f) (hf : ready' f)
    (hle : ∀ g, ready' g → ready g) : a.Wins ready' f := by
  obtain ⟨pre, post, ho, -, hpre⟩ := h
  exact ⟨pre, post, ho, hf, fun g hg hr => hpre g hg (hle g hr)⟩

/-- Without a bias any ready branch can win: the poll may start at it. -/
theorem wins_unbiased (fs : List F) :
    (Select.mk false fs).Wins ready f ↔ f ∈ fs ∧ ready f := by
  refine ⟨fun h => ⟨h.mem, h.isReady⟩, ?_⟩
  rintro ⟨hf, hr⟩
  obtain ⟨pre, post, rfl⟩ := List.append_of_mem hf
  exact ⟨[], post ++ pre, ⟨pre.length, by simp⟩, hr, by simp⟩

theorem wins_biased_nil : ¬ (Select.mk true ([] : List F)).Wins ready f := by
  rintro ⟨pre, post, ho, -⟩
  simp [Order] at ho

/-- With a bias a branch wins only when no earlier one is ready. -/
theorem wins_biased_cons (g : F) (fs : List F) :
    (Select.mk true (g :: fs)).Wins ready f ↔
      (f = g ∧ ready g) ∨ (¬ ready g ∧ (Select.mk true fs).Wins ready f) := by
  refine ⟨?_, ?_⟩
  · rintro ⟨pre, post, ho, hr, hpre⟩
    simp only [Order, if_true] at ho
    cases pre with
    | nil =>
      obtain ⟨rfl, rfl⟩ := List.cons.inj ho
      exact Or.inl ⟨rfl, hr⟩
    | cons p pre =>
      obtain ⟨rfl, rfl⟩ := List.cons.inj ho
      exact Or.inr ⟨hpre p (by simp),
        pre, post, by simp [Order], hr, fun x hx => hpre x (by simp [hx])⟩
  · rintro (⟨rfl, hr⟩ | ⟨hg, pre, post, ho, hr, hpre⟩)
    · exact ⟨[], fs, by simp [Order], hr, by simp⟩
    · simp only [Order, if_true] at ho
      subst ho
      refine ⟨g :: pre, post, by simp [Order], hr, ?_⟩
      intro x hx
      rcases List.mem_cons.1 hx with rfl | hx
      · exact hg
      · exact hpre x hx

/-- The winner of a biased poll is the first ready branch as written. -/
theorem wins_biased [DecidablePred ready] (fs : List F) :
    (Select.mk true fs).Wins ready f ↔ fs.find? (fun g => decide (ready g)) = some f := by
  induction fs with
  | nil => exact iff_of_false wins_biased_nil (by simp)
  | cons g fs ih =>
    rw [wins_biased_cons, ih, List.find?_cons]
    by_cases hg : ready g
    · simp [hg, eq_comm]
    · simp [hg]

instance [DecidableEq F] [DecidablePred ready] : Decidable (a.Wins ready f) :=
  match a with
  | ⟨true, fs⟩ => decidable_of_iff _ (wins_biased fs).symm
  | ⟨false, fs⟩ => decidable_of_iff _ (wins_unbiased fs).symm

section Timed

variable [LinearOrder T] {readyAt : F → Option T} {t u : T}

/-- With futures that become ready at the instants `readyAt`, the `select!` is woken at the earliest
of its branches' instants `t`, and `f` wins the poll made then. -/
def FiresAt (a : Select F) (readyAt : F → Option T) (f : F) (t : T) : Prop :=
  (∀ g ∈ a.branches, ∀ u, readyAt g = some u → t ≤ u) ∧ a.Wins (fun g => readyAt g = some t) f

theorem FiresAt.mem (h : a.FiresAt readyAt f t) : f ∈ a.branches := h.2.mem

theorem FiresAt.ready_eq (h : a.FiresAt readyAt f t) : readyAt f = some t := h.2.isReady

theorem FiresAt.le (h : a.FiresAt readyAt f t) (hg : g ∈ a.branches) (hu : readyAt g = some u) :
    t ≤ u := h.1 g hg u hu

theorem FiresAt.time_unique (h : a.FiresAt readyAt f t) (h' : a.FiresAt readyAt g u) : t = u :=
  le_antisymm (h.le h'.mem h'.ready_eq) (h'.le h.mem h.ready_eq)

/-- When no two branches become ready together there is one winner. -/
theorem FiresAt.unique (h : a.FiresAt readyAt f t) (h' : a.FiresAt readyAt g u)
    (hne : ∀ x ∈ a.branches, ∀ y ∈ a.branches, readyAt x = some t → readyAt y = some t → x = y) :
    f = g ∧ t = u := by
  obtain rfl := h.time_unique h'
  exact ⟨hne f h.mem g h'.mem h.ready_eq h'.ready_eq, rfl⟩

theorem firesAt_unbiased (fs : List F) :
    (Select.mk false fs).FiresAt readyAt f t ↔
      f ∈ fs ∧ readyAt f = some t ∧ ∀ g ∈ fs, ∀ u, readyAt g = some u → t ≤ u := by
  unfold FiresAt
  rw [wins_unbiased]
  refine ⟨?_, ?_⟩
  · rintro ⟨h1, h2, h3⟩; exact ⟨h2, h3, h1⟩
  · rintro ⟨h1, h2, h3⟩; exact ⟨h3, h1, h2⟩

/-- With a bias, the branch that is ready first, before those after it and ahead of those before it,
is the only one to win. -/
theorem firesAt_biased (pre post : List F) (hf : readyAt f = some t)
    (hpre : ∀ x ∈ pre, ∀ v, readyAt x = some v → t < v)
    (hpost : ∀ x ∈ post, ∀ v, readyAt x = some v → t ≤ v) :
    (Select.mk true (pre ++ f :: post)).FiresAt readyAt g u ↔ g = f ∧ u = t := by
  have hfires : (Select.mk true (pre ++ f :: post)).FiresAt readyAt f t := by
    refine ⟨fun x hx v hv => ?_, pre, post, by simp [Order], hf, fun x hx hxt => ?_⟩
    · rcases List.mem_append.1 hx with hx | hx
      · exact (hpre x hx v hv).le
      · rcases List.mem_cons.1 hx with rfl | hx
        · exact (Option.some.inj (hf.symm.trans hv)).le
        · exact hpost x hx v hv
    · exact lt_irrefl t (hpre x hx t hxt)
  refine ⟨fun h => ?_, ?_⟩
  · obtain rfl := h.time_unique hfires
    classical
    have hg := (wins_biased _).mp h.2
    rw [(wins_biased _).mp hfires.2] at hg
    exact ⟨(Option.some.inj hg).symm, rfl⟩
  · rintro ⟨rfl, rfl⟩
    exact hfires

/-- The poll at which the `select!` is woken, and its first ready branch as written. -/
def first (a : Select F) (readyAt : F → Option T) : Option (F × T) :=
  (List.argmin id (a.branches.filterMap readyAt)).bind fun t =>
    (a.branches.find? fun f => readyAt f = some t).map (·, t)

/-- A `select!` may well be left so. -/
theorem fires_of_first (h : a.first readyAt = some (f, t)) : a.FiresAt readyAt f t := by
  obtain ⟨u, hu, hfind⟩ := Option.bind_eq_some_iff.mp h
  obtain ⟨g, hg, he⟩ := Option.map_eq_some_iff.mp hfind
  obtain ⟨rfl, rfl⟩ := Prod.mk.inj he
  refine ⟨fun x hx v hv => ?_, ?_⟩
  · exact List.le_of_mem_argmin (f := id) (List.mem_filterMap.mpr ⟨x, hx, hv⟩) hu
  · obtain ⟨b, fs⟩ := a
    cases b with
    | false =>
      refine (wins_unbiased fs).mpr ⟨List.mem_of_find?_eq_some hg, ?_⟩
      simpa using List.find?_some hg
    | true => exact (wins_biased fs).mpr hg

/-- If some branch becomes ready at all, there is a first. -/
theorem exists_first (hf : f ∈ a.branches) (ht : readyAt f = some t) :
    ∃ g u, a.first readyAt = some (g, u) := by
  have hne : a.branches.filterMap readyAt ≠ [] :=
    List.ne_nil_of_mem (List.mem_filterMap.mpr ⟨f, hf, ht⟩)
  obtain ⟨u, hu⟩ := Option.ne_none_iff_exists'.mp (mt (List.argmin_eq_none (f := id)).mp hne)
  obtain ⟨x, hx, hxu⟩ := List.mem_filterMap.mp (List.argmin_mem hu)
  have hsome : (a.branches.find? fun f => readyAt f = some u).isSome :=
    List.find?_isSome.mpr ⟨x, hx, decide_eq_true hxu⟩
  obtain ⟨g, hg⟩ := Option.isSome_iff_exists.mp hsome
  exact ⟨g, u, Option.bind_eq_some_iff.mpr ⟨u, hu, Option.map_eq_some_iff.mpr ⟨g, hg, rfl⟩⟩⟩

/-- A `select!` of which some branch becomes ready at all fires. -/
theorem exists_fires (hf : f ∈ a.branches) (ht : readyAt f = some t) :
    ∃ g u, a.FiresAt readyAt g u := by
  obtain ⟨g, u, h⟩ := exists_first hf ht
  exact ⟨g, u, fires_of_first h⟩

end Timed

end Select
