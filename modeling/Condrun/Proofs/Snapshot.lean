import Mathlib.Data.Nat.Notation
import Mathlib.Logic.Function.Iterate
import Condrun.Spec.Monitor

/-! When the verdict on a changing network state is the verdict on one of the states that held. -/

namespace Condrun

/-- The value of a flag at which the loop goes on to the next predicate. -/
def Composition.neutral : Composition → Bool
  | .and => false
  | .or => true

/-- The state that read `i` finds. -/
def seen (x : NwPathSnapshot) (updates : List (List NwPathSnapshot)) (i : ℕ) : NwPathSnapshot :=
  ((updates.take (i + 1)).flatten).getLastD x

/-- The states that hold while `n` reads are made. -/
def window (x : NwPathSnapshot) (updates : List (List NwPathSnapshot)) (n : ℕ) :
    List NwPathSnapshot := x :: (updates.take (n + 1)).flatten

/-- The verdict is the one some state that held would give. -/
def Consistent (ps : List Metered) (c : Composition) (x : NwPathSnapshot)
    (updates : List (List NwPathSnapshot)) : Prop :=
  ∃ y ∈ (evaluateLive ps c x updates).2,
    (verdictOn ps c y).isPass = (evaluateLive ps c x updates).1.isPass

/-- Both predicates are listed, every read finds its own flag at the value that lets the loop go on,
and no state that holds meanwhile has both flags there. -/
structure Torn (ps : List Metered) (c : Composition) (x : NwPathSnapshot)
    (updates : List (List NwPathSnapshot)) : Prop where
  both : Metered.expensive ∈ ps ∧ Metered.lowData ∈ ps
  reads : ∀ (i : ℕ) p, ps[i]? = some p → p.flag (seen x updates i) = c.neutral
  mixed : ∀ y ∈ window x updates ps.length, ¬ (y.expensive = c.neutral ∧ y.lowData = c.neutral)

variable {ps : List Metered} {c : Composition} {x : NwPathSnapshot}
  {updates : List (List NwPathSnapshot)} {l l' : Live} {neutral b : Bool}

/-! The live state after some batches. -/

theorem foldl_update (batch : List NwPathSnapshot) (l : Live) :
    batch.foldl Live.update l = ⟨batch.getLastD l.snapshot, l.updates, l.held ++ batch⟩ := by
  induction batch generalizing l with
  | nil => simp
  | cons x batch ih =>
    rw [List.foldl_cons, ih, List.getLastD_cons]
    simp only [Live.update, List.append_assoc, List.singleton_append]

theorem land_eq (l : Live) : l.land =
    ⟨(l.updates.headD []).getLastD l.snapshot, l.updates.tail, l.held ++ l.updates.headD []⟩ :=
  foldl_update _ _

theorem getLastD_append {α : Type*} (l₁ l₂ : List α) (a : α) :
    (l₁ ++ l₂).getLastD a = l₂.getLastD (l₁.getLastD a) := by
  induction l₁ generalizing a with
  | nil => rfl
  | cons b l₁ ih =>
    rw [List.cons_append, List.getLastD_cons, List.getLastD_cons]
    exact ih b

theorem take_succ_flatten {α : Type*} (ls : List (List α)) (n : ℕ) :
    (ls.take (n + 1)).flatten = ls.headD [] ++ (ls.tail.take n).flatten := by
  cases ls <;> simp

theorem iterate_land (n : ℕ) (l : Live) : Live.land^[n] l =
    ⟨((l.updates.take n).flatten).getLastD l.snapshot, l.updates.drop n,
      l.held ++ (l.updates.take n).flatten⟩ := by
  induction n generalizing l with
  | zero => simp
  | succ n ih =>
    rw [Function.iterate_succ_apply, ih, land_eq]
    simp only [take_succ_flatten, getLastD_append, List.append_assoc, List.drop_tail]

/-! One loop for both compositions: it stops at the first flag that is not `neutral`, and the result
tells whether it went through. -/

inductive Loop (neutral : Bool) : List Metered → Live → Bool → Live → Prop
  | through {l : Live} : Loop neutral [] l true l
  | stop {p : Metered} {ps : List Metered} {l : Live} (h : p.flag l.land.snapshot ≠ neutral) :
      Loop neutral (p :: ps) l false l.land
  | next {p : Metered} {ps : List Metered} {l l' : Live} {b : Bool}
      (h : p.flag l.land.snapshot = neutral) (hl : Loop neutral ps l.land b l') :
      Loop neutral (p :: ps) l b l'

theorem land_snapshot_mem (h : l.snapshot ∈ l.held) : l.land.snapshot ∈ l.land.held := by
  rw [land_eq]
  generalize l.updates.headD [] = batch
  rcases List.eq_nil_or_concat batch with rfl | ⟨init, y, rfl⟩
  · simpa using h
  · simp

theorem Loop.snapshot_mem (h : Loop neutral ps l b l') (hl : l.snapshot ∈ l.held) :
    l'.snapshot ∈ l'.held := by
  induction h with
  | through => exact hl
  | stop => exact land_snapshot_mem hl
  | next _ _ ih => exact ih (land_snapshot_mem hl)

/-- A loop that stopped did so on the state it leaves. -/
theorem Loop.stopped (h : Loop neutral ps l b l') (hb : b = false) :
    ∃ p ∈ ps, p.flag l'.snapshot ≠ neutral := by
  induction h with
  | through => cases hb
  | stop h => exact ⟨_, List.mem_cons_self, h⟩
  | next _ _ ih =>
    obtain ⟨p, hp, hne⟩ := ih hb
    exact ⟨p, List.mem_cons_of_mem _ hp, hne⟩

theorem Loop.eq_true_iff (h : Loop neutral ps l b l') :
    b = true ↔ ∀ (i : ℕ) p, ps[i]? = some p → p.flag (Live.land^[i + 1] l).snapshot = neutral := by
  induction h with
  | through => simp
  | stop h => exact iff_of_false (by simp) fun hall => h (hall 0 _ rfl)
  | next h _ ih =>
    rw [ih]
    refine ⟨fun hall i p hp => ?_, fun hall i p hp => hall (i + 1) p hp⟩
    cases i with
    | zero =>
      obtain rfl := Option.some.inj hp
      exact h
    | succ i => exact hall i p hp

theorem Loop.state_eq (h : Loop neutral ps l b l') (hb : b = true) :
    l' = Live.land^[ps.length] l := by
  induction h with
  | through => rfl
  | stop => cases hb
  | next _ _ ih => exact ih hb

/-! The two loops of `evaluate` are such loops. -/

theorem run_predicate (p : Metered) (l : Live) :
    ∃ reason, (p.predicate.evaluate NetworkState.live).run l =
      (if p.flag l.land.snapshot then .fail reason else .pass, l.land) := by
  cases p with
  | expensive =>
    refine ⟨"current connection is expensive (Personal Hotspot or cellular)", ?_⟩
    cases h : l.land.snapshot.expensive <;>
      simp [Metered.predicate, rejectExpensive, rejectFlag, NetworkState.live, readFlag,
        Metered.flag, h] <;> rfl
  | lowData =>
    refine ⟨"current connection has Low Data Mode enabled", ?_⟩
    cases h : l.land.snapshot.lowData <;>
      simp [Metered.predicate, rejectLowData, rejectFlag, NetworkState.live, readFlag,
        Metered.flag, h] <;> rfl

theorem evaluateAnd_loop (ps : List Metered) (l : Live) {res : PredicateResult}
    (h : (PredicateSet.evaluateAnd NetworkState.live (ps.map Metered.predicate)).run l =
      (res, l')) : Loop false ps l res.isPass l' := by
  induction ps generalizing l with
  | nil =>
    obtain ⟨rfl, rfl⟩ := Prod.mk.inj h
    exact .through
  | cons p ps ih =>
    obtain ⟨reason, hp⟩ := run_predicate p l
    rw [List.map_cons, PredicateSet.evaluateAnd, StateT.run_bind, hp] at h
    cases hf : p.flag l.land.snapshot
    · simp only [hf] at h
      exact .next hf (ih _ h)
    · simp only [hf] at h
      obtain ⟨rfl, rfl⟩ := Prod.mk.inj h
      exact .stop (by simp [hf])

theorem evaluateOr_loop (ps : List Metered) (l : Live) {res : PredicateResult}
    {reasons : List String}
    (h : (PredicateSet.evaluateOr NetworkState.live (ps.map Metered.predicate) reasons).run l =
      (res, l')) : Loop true ps l (!res.isPass) l' := by
  induction ps generalizing l reasons with
  | nil =>
    obtain ⟨rfl, rfl⟩ := Prod.mk.inj h
    exact .through
  | cons p ps ih =>
    obtain ⟨reason, hp⟩ := run_predicate p l
    rw [List.map_cons, PredicateSet.evaluateOr, StateT.run_bind, hp] at h
    cases hf : p.flag l.land.snapshot
    · simp only [hf] at h
      obtain ⟨rfl, rfl⟩ := Prod.mk.inj h
      exact .stop (by simp [hf])
    · simp only [hf] at h
      exact .next hf (ih _ h)

/-- Whether the set passes when its loop went through. -/
def Composition.passes : Composition → Bool → Bool
  | .and, b => b
  | .or, b => !b

theorem Composition.passes_inj {b b' : Bool} (h : c.passes b = c.passes b') : b = b' := by
  cases c
  · exact h
  · exact Bool.not_inj h

/-- An evaluation on changing states is a loop over the set, for either composition. -/
theorem evaluateLive_loop (ps : List Metered) (c : Composition) (x : NwPathSnapshot)
    (updates : List (List NwPathSnapshot)) :
    ∃ b l', Loop c.neutral ps (.start x updates) b l' ∧
      (evaluateLive ps c x updates).1.isPass = c.passes b ∧
      (evaluateLive ps c x updates).2 = l'.land.held := by
  cases ps with
  | nil => cases c <;> exact ⟨true, _, .through, rfl, rfl⟩
  | cons p ps =>
    cases c with
    | and => exact ⟨_, _, evaluateAnd_loop (p :: ps) _ rfl, rfl, rfl⟩
    | or => exact ⟨_, _, evaluateOr_loop (p :: ps) _ rfl, (Bool.not_not _).symm, rfl⟩

theorem predicate_still (p : Metered) (y : NwPathSnapshot) :
    ∃ reason, p.predicate.evaluate (NetworkState.still y) =
      if p.flag y then .fail reason else .pass := by
  cases p
  · exact ⟨_, rfl⟩
  · exact ⟨_, rfl⟩

theorem evaluateAnd_still (ps : List Metered) (y : NwPathSnapshot) :
    (PredicateSet.evaluateAnd (m := Id) (NetworkState.still y)
      (ps.map Metered.predicate)).isPass = true ↔ ∀ p ∈ ps, p.flag y = false := by
  induction ps with
  | nil => exact iff_of_true rfl (by simp)
  | cons p ps ih =>
    obtain ⟨reason, hp⟩ := predicate_still p y
    rw [List.map_cons, PredicateSet.evaluateAnd, hp, List.forall_mem_cons, ← ih]
    cases p.flag y
    · exact (and_iff_right rfl).symm
    · exact iff_of_false Bool.false_ne_true (by simp)

theorem evaluateOr_still (ps : List Metered) (y : NwPathSnapshot) (reasons : List String) :
    (!(PredicateSet.evaluateOr (m := Id) (NetworkState.still y)
      (ps.map Metered.predicate) reasons).isPass) = true ↔ ∀ p ∈ ps, p.flag y = true := by
  induction ps generalizing reasons with
  | nil => exact iff_of_true rfl (by simp)
  | cons p ps ih =>
    obtain ⟨reason, hp⟩ := predicate_still p y
    rw [List.map_cons, PredicateSet.evaluateOr, hp, List.forall_mem_cons,
      ← ih (reasons ++ [reason])]
    cases p.flag y
    · exact iff_of_false Bool.false_ne_true (by simp)
    · exact (and_iff_right rfl).symm

/-- The verdict on a state that stands still looks at the flags of the set. -/
theorem verdictOn_through (ps : List Metered) (c : Composition) (y : NwPathSnapshot) :
    ∃ b, (b = true ↔ ∀ p ∈ ps, p.flag y = c.neutral) ∧
      (verdictOn ps c y).isPass = c.passes b := by
  cases ps with
  | nil => cases c <;> exact ⟨true, by simp, rfl⟩
  | cons p ps =>
    cases c with
    | and => exact ⟨_, evaluateAnd_still (p :: ps) y, rfl⟩
    | or => exact ⟨_, evaluateOr_still (p :: ps) y [], (Bool.not_not _).symm⟩

theorem seen_eq (x : NwPathSnapshot) (updates : List (List NwPathSnapshot)) (i : ℕ) :
    (Live.land^[i + 1] (.start x updates)).snapshot = seen x updates i := by
  rw [iterate_land]
  rfl

theorem window_eq (x : NwPathSnapshot) (updates : List (List NwPathSnapshot)) (n : ℕ) :
    (Live.land^[n] (.start x updates)).land.held = window x updates n := by
  rw [← Function.iterate_succ_apply' Live.land n, iterate_land]
  rfl

theorem seen_mem_window {i n : ℕ} (hi : i ≤ n) : seen x updates i ∈ window x updates n := by
  unfold seen window
  rcases List.eq_nil_or_concat (updates.take (i + 1)).flatten with hb | ⟨init, y, hb⟩
  · simp [hb]
  · obtain ⟨rest, hrest⟩ := List.take_prefix_take_left (l := updates) (show i + 1 ≤ n + 1 by omega)
    rw [← hrest, List.flatten_append, hb]
    simp

/-- When every read is neutral and no state that held is neutral throughout, both flags were
read. -/
theorem both_of_reads (hr : ∀ (i : ℕ) p, ps[i]? = some p → p.flag (seen x updates i) = neutral)
    (hm : ∀ y ∈ window x updates ps.length, ∃ p ∈ ps, p.flag y ≠ neutral) :
    Metered.expensive ∈ ps ∧ Metered.lowData ∈ ps := by
  cases ps with
  | nil => simpa using hm x List.mem_cons_self
  | cons p ps =>
    obtain ⟨q, hq, hne⟩ := hm _ (seen_mem_window (Nat.zero_le _))
    have hp := hr 0 p rfl
    have hpq : q ≠ p := fun h => hne (h ▸ hp)
    cases p <;> cases q <;> simp_all

/-- The verdict is consistent unless the evaluation was torn. -/
theorem consistent_iff_not_torn (ps : List Metered) (c : Composition) (x : NwPathSnapshot)
    (updates : List (List NwPathSnapshot)) : Consistent ps c x updates ↔ ¬ Torn ps c x updates := by
  obtain ⟨b, l', hl, hpass, hheld⟩ := evaluateLive_loop ps c x updates
  have hcons : Consistent ps c x updates ↔
      ∃ y ∈ l'.land.held, (b = true ↔ ∀ p ∈ ps, p.flag y = c.neutral) := by
    unfold Consistent
    rw [hheld, hpass]
    refine exists_congr fun y => and_congr_right fun _ => ?_
    obtain ⟨b', hb', hy⟩ := verdictOn_through ps c y
    rw [hy, ← hb']
    refine ⟨fun h => by rw [Composition.passes_inj h], fun h => ?_⟩
    rw [Bool.eq_iff_iff.mpr h]
  rw [hcons]
  cases b with
  | false =>
    -- the loop stopped at a state that held, and that state stops it as well
    obtain ⟨p, hp, hne⟩ := hl.stopped rfl
    have hread := hl.eq_true_iff.not.mp Bool.false_ne_true
    refine iff_of_true ⟨l'.snapshot, ?_, iff_of_false Bool.false_ne_true fun h => hne (h p hp)⟩
      fun ht => hread fun i q hq => by rw [seen_eq]; exact ht.reads i q hq
    have hmem := hl.snapshot_mem (by simp [Live.start])
    rw [land_eq]
    exact List.mem_append_left _ hmem
  | true =>
    obtain rfl := hl.state_eq rfl
    rw [window_eq]
    have hread : ∀ (i : ℕ) p, ps[i]? = some p → p.flag (seen x updates i) = c.neutral := by
      intro i p hp
      rw [← seen_eq]
      exact hl.eq_true_iff.mp rfl i p hp
    simp only [true_iff]
    refine ⟨fun ⟨y, hy, hall⟩ ht => ?_, fun hn => ?_⟩
    · exact ht.mixed y hy ⟨hall _ ht.both.1, hall _ ht.both.2⟩
    · by_contra hno
      have hex : ∀ y ∈ window x updates ps.length, ∃ p ∈ ps, p.flag y ≠ c.neutral := by
        intro y hy
        by_contra hall
        exact hno ⟨y, hy, fun p hp => by_contra fun hne => hall ⟨p, hp, hne⟩⟩
      have hboth := both_of_reads hread hex
      refine hn ⟨hboth, hread, fun y hy hne => ?_⟩
      obtain ⟨p, -, hp⟩ := hex y hy
      cases p
      · exact hp hne.1
      · exact hp hne.2

/-- An update that swaps the two flags between the two reads: neither state passes the set, the
evaluation does. -/
theorem swapped_flags_pass :
    ¬ Consistent [.expensive, .lowData] .and ⟨false, true⟩ [[], [⟨true, false⟩]] := by
  unfold Consistent
  decide

end Condrun
