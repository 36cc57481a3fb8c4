import Condrun.Proofs.Composition
import Condrun.Spec.Dispatch

/-! What `check` prints and returns. The lines of `--explain` come from evaluations of their own, so
they speak for the exit code only where an evaluation does not depend on those before it. -/

namespace Condrun

variable {σ : Type} {state : NetworkState (StateM σ)} {set : PredicateSet (StateM σ)}
  {ps : List (Predicate (StateM σ))} {w : σ} {explain : Bool} {res : PredicateResult}

/-- The results of the members, evaluated one after the other. -/
def outcomes (state : NetworkState (StateM σ)) :
    List (Predicate (StateM σ)) → σ → List PredicateResult
  | [], _ => []
  | p :: ps, w => (p.evaluate state w).1 :: outcomes state ps (p.evaluate state w).2

def linesOf (ps : List (Predicate (StateM σ))) (results : List PredicateResult) : List String :=
  ps.zipWith (fun p res => res.line p.name) results

theorem explainLines_eq (ps : List (Predicate (StateM σ))) (w : σ) :
    explainLines state ps w = (linesOf ps (outcomes state ps w), worldAfter state ps w) := by
  induction ps generalizing w with
  | nil => rfl
  | cons p ps ih =>
    simp only [explainLines, bind, StateT.bind, ih]
    rfl

/-- The world in which a check evaluates its set. -/
def checkWorld (explain : Bool) (set : PredicateSet (StateM σ)) (state : NetworkState (StateM σ))
    (w : σ) : σ :=
  if explain then worldAfter state set.predicates w else w

/-- The message that a failed check prints when it does not explain. -/
def PredicateResult.complaint : PredicateResult → List String
  | .pass => []
  | .fail reason => [s!"predicate failed: {reason}"]

theorem check_eq (explain : Bool) (set : PredicateSet (StateM σ)) (w : σ) :
    (check explain set state w).1 =
      { stdout := if explain then linesOf set.predicates (outcomes state set.predicates w) else []
        stderr := if explain then [] else (set.evaluate state w).1.complaint
        code :=
          if (set.evaluate state (checkWorld explain set state w)).1.isPass then 0 else 1 } := by
  cases explain with
  | true =>
    simp only [check, if_true, bind, StateT.bind, explainLines_eq, checkWorld]
    rcases set.evaluate state (worldAfter state set.predicates w) with ⟨_ | reason, w'⟩ <;> rfl
  | false =>
    simp only [check, bind, StateT.bind, checkWorld, Bool.false_eq_true, if_false]
    rcases set.evaluate state w with ⟨_ | reason, w'⟩ <;> rfl

/-! Evaluations that only read the world. -/

/-- The members of `ps` leave the world as it is. -/
def OnlyReads (state : NetworkState (StateM σ)) (ps : List (Predicate (StateM σ))) : Prop :=
  ∀ p ∈ ps, ∀ w, (p.evaluate state w).2 = w

def resultsAt (state : NetworkState (StateM σ)) (ps : List (Predicate (StateM σ))) (w : σ) :
    List PredicateResult :=
  ps.map fun p => (p.evaluate state w).1

theorem OnlyReads.evaluate {p : Predicate (StateM σ)} (h : OnlyReads state (p :: ps)) (w : σ) :
    p.evaluate state w = ((p.evaluate state w).1, w) :=
  Prod.ext rfl (h p List.mem_cons_self w)

theorem OnlyReads.tail {p : Predicate (StateM σ)} (h : OnlyReads state (p :: ps)) :
    OnlyReads state ps := fun q hq => h q (List.mem_cons_of_mem p hq)

theorem OnlyReads.outcomes (h : OnlyReads state ps) (w : σ) :
    outcomes state ps w = resultsAt state ps w ∧ worldAfter state ps w = w := by
  induction ps with
  | nil => exact ⟨rfl, rfl⟩
  | cons p ps ih =>
    obtain ⟨ho, hw⟩ := ih h.tail
    unfold worldAfter at hw ⊢
    rw [Condrun.outcomes, List.foldl_cons, h.evaluate w]
    exact ⟨congrArg _ ho, hw⟩

def PredicateResult.reason? : PredicateResult → Option String
  | .pass => none
  | .fail reason => some reason

/-- What a set with this composition makes of the results of its members. -/
def Composition.combine (c : Composition) (results : List PredicateResult) : PredicateResult :=
  let reasons := results.filterMap PredicateResult.reason?
  match c with
  | .and => (reasons.head?.map .fail).getD .pass
  | .or =>
    if results.any PredicateResult.isPass then .pass
    else if results.isEmpty then .fail "no predicates"
    else .fail ("; ".intercalate reasons)

theorem OnlyReads.evaluateAnd (h : OnlyReads state ps) (w : σ) :
    (PredicateSet.evaluateAnd state ps w).1 = Composition.and.combine (resultsAt state ps w) := by
  induction ps with
  | nil => rfl
  | cons p ps ih =>
    have hp := h.evaluate w
    have ih := ih h.tail
    simp only [resultsAt, List.map_cons, Composition.combine] at ih ⊢
    cases hr : (p.evaluate state w).1 with
    | pass =>
      rw [hr] at hp
      rw [evaluateAnd_pass hp, ih]
      rfl
    | fail reason =>
      rw [hr] at hp
      rw [evaluateAnd_fail hp]
      rfl

theorem OnlyReads.evaluateOr (h : OnlyReads state ps) (w : σ) (reasons : List String) :
    (PredicateSet.evaluateOr state ps reasons w).1 =
      if (resultsAt state ps w).any PredicateResult.isPass then .pass
      else .fail ("; ".intercalate
        (reasons ++ (resultsAt state ps w).filterMap PredicateResult.reason?)) := by
  induction ps generalizing reasons with
  | nil =>
    rw [resultsAt, List.map_nil, List.filterMap_nil, List.append_nil]
    rfl
  | cons p ps ih =>
    have hp := h.evaluate w
    have ih := ih h.tail
    simp only [resultsAt, List.map_cons] at ih ⊢
    cases hr : (p.evaluate state w).1 with
    | pass =>
      rw [hr] at hp
      rw [evaluateOr_pass hp]
      rfl
    | fail reason =>
      rw [hr] at hp
      rw [evaluateOr_fail hp, ih]
      simp [PredicateResult.isPass, PredicateResult.reason?]

theorem OnlyReads.combine (h : OnlyReads state ps) (c : Composition) (w : σ) :
    ((PredicateSet.new ps c).evaluate state w).1 = c.combine (resultsAt state ps w) := by
  cases c with
  | and => rw [evaluate_new_and, h.evaluateAnd]
  | or =>
    by_cases hne : ps = []
    · subst hne
      rfl
    · rw [evaluate_new_or hne, h.evaluateOr, List.nil_append]
      simp [Composition.combine, resultsAt, hne]

/-! What the lines of an explanation say. -/

def IsPassLine (line : String) : Prop := "PASS: ".toList <+: line.toList

theorem isPassLine_iff (res : PredicateResult) (name : String) :
    IsPassLine (res.line name) ↔ res = .pass := by
  cases res <;> simp [IsPassLine, PredicateResult.line, toString]

theorem forall_isPassLine {results : List PredicateResult} (hl : ps.length = results.length) :
    (∀ line ∈ linesOf ps results, IsPassLine line) ↔
      results.all PredicateResult.isPass = true := by
  induction ps generalizing results with
  | nil =>
    obtain rfl := List.length_eq_zero_iff.mp hl.symm
    simp [linesOf]
  | cons p ps ih =>
    obtain ⟨res, results, rfl⟩ := List.exists_cons_of_length_eq_add_one hl.symm
    rw [linesOf, List.zipWith_cons_cons, List.forall_mem_cons, isPassLine_iff, List.all_cons,
      Bool.and_eq_true, PredicateResult.isPass_iff]
    exact and_congr_right fun _ => ih (by simpa using hl)

theorem exists_isPassLine {results : List PredicateResult} (hl : ps.length = results.length) :
    (∃ line ∈ linesOf ps results, IsPassLine line) ↔
      results.any PredicateResult.isPass = true := by
  induction ps generalizing results with
  | nil =>
    obtain rfl := List.length_eq_zero_iff.mp hl.symm
    simp [linesOf]
  | cons p ps ih =>
    obtain ⟨res, results, rfl⟩ := List.exists_cons_of_length_eq_add_one hl.symm
    rw [linesOf, List.zipWith_cons_cons, List.exists_mem_cons_iff, isPassLine_iff, List.any_cons,
      Bool.or_eq_true, PredicateResult.isPass_iff]
    exact or_congr_right (ih (by simpa using hl))

theorem length_outcomes (ps : List (Predicate (StateM σ))) (w : σ) :
    ps.length = (outcomes state ps w).length := by
  induction ps generalizing w with
  | nil => rfl
  | cons p ps ih => exact congrArg (· + 1) (ih _)

/-! Evaluations whose verdicts do not depend on the order. -/

variable {v : Predicate (StateM σ) → Bool}

theorem OrderFree.worldAfter {qs : List (Predicate (StateM σ))} (h : OrderFree state ps w v)
    (hq : qs ⊆ ps) : OrderFree state ps (worldAfter state qs w) v := by
  intro rs hr p hp
  have hw : Condrun.worldAfter state rs (Condrun.worldAfter state qs w) =
      Condrun.worldAfter state (qs ++ rs) w := by
    unfold Condrun.worldAfter
    rw [List.foldl_append]
  rw [hw]
  exact h (qs ++ rs) (List.append_subset.mpr ⟨hq, hr⟩) p hp

theorem OrderFree.outcomes {qs : List (Predicate (StateM σ))} (h : OrderFree state ps w v)
    (hq : qs ⊆ ps) : (outcomes state qs w).map PredicateResult.isPass = qs.map v := by
  induction qs generalizing w with
  | nil => rfl
  | cons q qs ih =>
    obtain ⟨hmem, hq⟩ := List.cons_subset.mp hq
    rw [Condrun.outcomes, List.map_cons, List.map_cons, h.head hmem, ih (h.after hmem) hq]

/-- Whether a set with this composition passes when its members have these verdicts. -/
def Composition.admits : Composition → List Bool → Bool
  | .and, verdicts => verdicts.all id
  | .or, verdicts => verdicts.any id

theorem OrderFree.evaluate (h : OrderFree state set.predicates w v) :
    (set.evaluate state w).1.isPass = set.composition.admits (set.predicates.map v) := by
  obtain ⟨ps, c⟩ := set
  cases c with
  | and => exact (h.passes_and (List.Subset.refl _)).trans (by simp [Composition.admits])
  | or => exact (h.passes_or (List.Subset.refl _)).trans (by simp [Composition.admits])

theorem OrderFree.check_code (h : OrderFree state set.predicates w v) (explain : Bool) :
    (check explain set state w).1.code =
      if set.composition.admits (set.predicates.map v) then 0 else 1 := by
  have hw : OrderFree state set.predicates (checkWorld explain set state w) v := by
    unfold checkWorld
    split_ifs
    · exact h.worldAfter (List.Subset.refl _)
    · exact h
  rw [check_eq, hw.evaluate]

/-- The lines that an explanation prints for a set with this composition are those of a pass. -/
def Composition.Admits : Composition → List String → Prop
  | .and, lines => ∀ line ∈ lines, IsPassLine line
  | .or, lines => ∃ line ∈ lines, IsPassLine line

theorem OrderFree.lines (h : OrderFree state set.predicates w v) (c : Composition) :
    c.Admits (check true set state w).1.stdout ↔
      c.admits (set.predicates.map v) = true := by
  have hv := h.outcomes (List.Subset.refl _)
  have hl : set.predicates.length = (Condrun.outcomes state set.predicates w).length :=
    length_outcomes set.predicates w
  rw [check_eq, ← hv]
  cases c with
  | and => exact (forall_isPassLine hl).trans (by simp [Composition.admits])
  | or => exact (exists_isPassLine hl).trans (by simp [Composition.admits])

/-- A check with and without `--explain`. Where verdicts do not depend on the order, both return the
same code, and the lines tell which; where evaluations only read the world, the lines are the
results of the members, and the message of a plain check is made of the same results. -/
theorem check_explains (state : NetworkState (StateM σ)) (set : PredicateSet (StateM σ)) (w : σ) :
    (∀ v, OrderFree state set.predicates w v →
      (check true set state w).1.code = (check false set state w).1.code ∧
      ((check true set state w).1.code = 0 ↔
        set.composition.Admits (check true set state w).1.stdout)) ∧
    (OnlyReads state set.predicates →
      (check true set state w).1.stdout =
        linesOf set.predicates (resultsAt state set.predicates w) ∧
      (check false set state w).1.stderr =
        (set.composition.combine (resultsAt state set.predicates w)).complaint) := by
  refine ⟨fun v h => ⟨?_, ?_⟩, fun h => ⟨?_, ?_⟩⟩
  · rw [h.check_code, h.check_code]
  · rw [h.lines, h.check_code]
    split_ifs with hc <;> simp [hc]
  · rw [check_eq, (h.outcomes w).1]
    rfl
  · obtain ⟨ps, c⟩ := set
    rw [check_eq, ← h.combine c w]
    rfl

/-- A network that is the world, and that no read changes. -/
def NetworkState.held : NetworkState (StateM NwPathSnapshot) where
  isExpensive := fun x => (x.expensive, x)
  isLowDataMode := fun x => (x.lowData, x)

theorem onlyReads_held : OnlyReads .held [rejectExpensive, rejectLowData] := by
  intro p hp ⟨e, l⟩
  simp only [List.mem_cons, List.not_mem_nil, or_false] at hp
  rcases hp with rfl | rfl
  · cases e <;> rfl
  · cases l <;> rfl

/-- With both flags up an OR complains of both. -/
theorem check_explains_both : (check false (.or [rejectExpensive, rejectLowData]) .held
      (⟨true, true⟩ : NwPathSnapshot)).1.stderr =
    ["predicate failed: current connection is expensive (Personal Hotspot or cellular); " ++
      "current connection has Low Data Mode enabled"] :=
  ((check_explains .held (.or [rejectExpensive, rejectLowData])
    (⟨true, true⟩ : NwPathSnapshot)).2 onlyReads_held).2.trans (by decide)

end Condrun
