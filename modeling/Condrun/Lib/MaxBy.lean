import Mathlib.Data.List.Induction
import Mathlib.Order.Lattice

/-! The maximum of a list by a key. Of several entries with the greatest key the last one wins, so
only the order of entries that share a key matters, and a stable sort keeps the winner. -/

def maxBy {α : Type*} (cmp : α → α → Ordering) : List α → Option α
  | [] => none
  | x :: xs => some (xs.foldl (fun m y => match cmp m y with | .gt => m | _ => y) x)

variable {α T : Type*} [LinearOrder T] {f : α → T} {l l' : List α} {x y : α}

/-- No entry has a greater key, and `x` is the last of those with its key. -/
structure LastMax (f : α → T) (l : List α) (x : α) : Prop where
  le : ∀ y ∈ l, f y ≤ f x
  last : (l.filter fun y => f y = f x).getLast? = some x

theorem maxBy_snoc (cmp : α → α → Ordering) (l : List α) (a : α) : maxBy cmp (l ++ [a]) =
    some (match maxBy cmp l with
      | none => a
      | some m => match cmp m a with | .gt => m | _ => a) := by
  cases l with
  | nil => rfl
  | cons x l => simp [maxBy]

theorem LastMax.mem (h : LastMax f l x) : x ∈ l :=
  (List.mem_filter.mp (List.mem_of_getLast? h.last)).1

theorem LastMax.unique (h : LastMax f l x) (h' : LastMax f l y) : x = y := by
  have he : f x = f y := le_antisymm (h'.le x h.mem) (h.le y h'.mem)
  have hlast := h.last
  rw [he, h'.last] at hlast
  exact (Option.some.inj hlast).symm

theorem lastMax_snoc_old (h : LastMax f l x) {a : α} (ha : f a < f x) : LastMax f (l ++ [a]) x := by
  refine ⟨?_, ?_⟩
  · intro y hy
    rcases List.mem_append.1 hy with hy | hy
    · exact h.le y hy
    · exact (List.mem_singleton.1 hy) ▸ ha.le
  · rw [List.filter_append, List.filter_cons_of_neg (by simpa using ha.ne), List.filter_nil,
      List.append_nil]
    exact h.last

theorem lastMax_snoc_new {a : α} (h : ∀ y ∈ l, f y ≤ f a) : LastMax f (l ++ [a]) a := by
  refine ⟨?_, ?_⟩
  · intro y hy
    rcases List.mem_append.1 hy with hy | hy
    · exact h y hy
    · exact (List.mem_singleton.1 hy) ▸ le_rfl
  · simp

theorem maxBy_eq_none_iff {cmp : α → α → Ordering} : maxBy cmp l = none ↔ l = [] := by
  cases l <;> simp [maxBy]

theorem lastMax_of_maxBy (h : maxBy (compareOn f) l = some x) : LastMax f l x := by
  induction l using List.reverseRecOn generalizing x with
  | nil => cases h
  | append_singleton l a ih =>
    rw [maxBy_snoc, Option.some.injEq] at h
    cases hm : maxBy (compareOn f) l with
    | none =>
      obtain rfl := maxBy_eq_none_iff.mp hm
      rw [hm] at h
      subst h
      exact lastMax_snoc_new (by simp)
    | some m =>
      have hmax := ih hm
      rw [hm] at h
      simp only [compareOn] at h
      rcases lt_or_ge (f a) (f m) with hlt | hge
      · rw [compare_gt_iff_gt.mpr hlt] at h
        subst h
        exact lastMax_snoc_old hmax hlt
      · have hne : compare (f m) (f a) ≠ .gt := fun hgt => hge.not_gt (compare_gt_iff_gt.mp hgt)
        split at h
        · exact absurd ‹_› hne
        · subst h
          exact lastMax_snoc_new fun y hy => (hmax.le y hy).trans hge

theorem maxBy_eq_some_iff : maxBy (compareOn f) l = some x ↔ LastMax f l x := by
  refine ⟨lastMax_of_maxBy, fun h => ?_⟩
  cases hm : maxBy (compareOn f) l with
  | none =>
    obtain rfl := maxBy_eq_none_iff.mp hm
    exact absurd h.mem List.not_mem_nil
  | some m => rw [(lastMax_of_maxBy hm).unique h]

/-- Two lists with the same entries for each key, in the same order. -/
def SameByKey (f : α → T) (l l' : List α) : Prop :=
  ∀ t, (l.filter fun y => f y = t) = l'.filter fun y => f y = t

theorem SameByKey.mem_iff (h : SameByKey f l l') : y ∈ l ↔ y ∈ l' := by
  have hy : y ∈ (l.filter fun x => f x = f y) ↔ y ∈ l'.filter fun x => f x = f y := by rw [h (f y)]
  simpa using hy

theorem SameByKey.symm (h : SameByKey f l l') : SameByKey f l' l := fun t => (h t).symm

theorem SameByKey.filter (h : SameByKey f l l') (p : α → Bool) :
    SameByKey f (l.filter p) (l'.filter p) := by
  intro t
  have hcomm : ∀ m : List α, (m.filter p).filter (fun y => f y = t) =
      (m.filter fun y => f y = t).filter p := fun m => by
    rw [List.filter_filter, List.filter_filter]
    simp only [Bool.and_comm]
  rw [hcomm, hcomm, h t]

theorem SameByKey.lastMax (h : SameByKey f l l') (hx : LastMax f l x) : LastMax f l' x := by
  refine ⟨fun y hy => hx.le y (h.mem_iff.mpr hy), ?_⟩
  rw [← h (f x)]
  exact hx.last

/-- The winner only depends on the order of entries that share a key. -/
theorem SameByKey.maxBy_eq (h : SameByKey f l l') :
    maxBy (compareOn f) l = maxBy (compareOn f) l' := by
  ext x
  rw [maxBy_eq_some_iff, maxBy_eq_some_iff]
  exact ⟨h.lastMax, h.symm.lastMax⟩

theorem sameByKey_of_perm (hp : l.Perm l') (hn : (l.map f).Nodup) : SameByKey f l l' := by
  intro t
  -- two entries with the key `t` would break `Nodup`, so the order below is empty
  have hpw : ∀ m : List α, (m.map f).Nodup →
      (m.filter fun y => f y = t).Pairwise fun a b => f a ≠ f b := fun m hm =>
    (List.pairwise_map.mp hm).filter _
  refine List.Perm.eq_of_pairwise ?_ (hpw l hn) (hpw l' ((hp.map f).nodup_iff.mp hn)) (hp.filter _)
  intro a b ha hb hne _
  simp only [List.mem_filter, decide_eq_true_eq] at ha hb
  exact absurd (ha.2.trans hb.2.symm) hne

theorem sameByKey_mergeSort (l : List α) :
    SameByKey f l (l.mergeSort fun a b => f a ≤ f b) := by
  intro t
  have hsub : (l.filter fun y => f y = t).Sublist (l.mergeSort fun a b => f a ≤ f b) := by
    refine List.sublist_mergeSort ?_ ?_ ?_ List.filter_sublist
    · intro a b c hab hbc
      simp only [decide_eq_true_eq] at hab hbc ⊢
      exact hab.trans hbc
    · intro a b
      simpa using le_total (f a) (f b)
    · refine List.pairwise_of_forall_mem_list fun a ha b hb => ?_
      simp only [List.mem_filter, decide_eq_true_eq] at ha hb
      simp [ha.2, hb.2]
  have hfil := hsub.filter fun y => decide (f y = t)
  rw [List.filter_filter] at hfil
  simp only [Bool.and_self] at hfil
  exact hfil.eq_of_length ((List.mergeSort_perm l _).filter _).length_eq.symm

/-- In a sorted list the winner is the last entry. -/
theorem maxBy_of_sorted (h : l.Pairwise fun a b => f a ≤ f b) :
    maxBy (compareOn f) l = l.getLast? := by
  induction l using List.reverseRecOn with
  | nil => rfl
  | append_singleton l a _ =>
    rw [List.getLast?_concat, maxBy_eq_some_iff]
    refine lastMax_snoc_new fun y hy => ?_
    exact (List.pairwise_append.mp h).2.2 y hy a (List.mem_singleton_self a)
