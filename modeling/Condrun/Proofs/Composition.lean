import Mathlib.Data.List.Basic
import Condrun.Spec.Predicate

/-! What `PredicateSet::evaluate` evaluates, in which order, and what it makes of the results. The
world of the evaluations is an arbitrary type, so that each can depend on what was evaluated before
and on when it is made. -/

namespace Condrun

/-- The evaluations made, oldest first: which member, with what result. -/
abbrev Log := List (ℕ × PredicateResult)

variable {σ : Type}

/-- Member `i` of a set on the network `state`, with its evaluations written down. -/
def Predicate.logged (state : NetworkState (StateM σ)) (i : ℕ) (p : Predicate (StateM σ)) :
    Predicate (StateM (σ × Log)) where
  name := p.name
  evaluate _ := fun (w, log) =>
    let (r, w') := p.evaluate state w
    (r, w', log ++ [(i, r)])

def loggedFrom (state : NetworkState (StateM σ)) :
    ℕ → List (Predicate (StateM σ)) → List (Predicate (StateM (σ × Log)))
  | _, [] => []
  | k, p :: ps => p.logged state k :: loggedFrom state (k + 1) ps

def PredicateSet.logged (state : NetworkState (StateM σ)) (set : PredicateSet (StateM σ)) :
    PredicateSet (StateM (σ × Log)) :=
  ⟨loggedFrom state 0 set.predicates, set.composition⟩

/-- The results at which the loop returns. -/
def Composition.stops : Composition → PredicateResult → Bool
  | .and, r => !r.isPass
  | .or, r => r.isPass

/-- Of `n` members, those evaluated are the first ones, each once and in order, up to and including
the first result with `stop`. -/
structure UpToFirst (stop : PredicateResult → Bool) (n : ℕ) (log : Log) : Prop where
  inOrder : log.map Prod.fst = List.range log.length
  le : log.length ≤ n
  first : ∀ e ∈ log.dropLast, stop e.2 = false
  complete : log.length = n ∨ ∃ e ∈ log.getLast?, stop e.2 = true

structure AndTrace (n : ℕ) (r : PredicateResult) (log : Log) : Prop where
  trace : UpToFirst Composition.and.stops n log
  pass_iff : r = .pass ↔ log.length = n ∧ ∀ e ∈ log, e.2 = .pass
  fail_iff : ∀ reason, r = .fail reason ↔ ∃ i, log.getLast? = some (i, .fail reason)

structure OrTrace (n : ℕ) (r : PredicateResult) (log : Log) : Prop where
  trace : UpToFirst Composition.or.stops n log
  pass_iff : r = .pass ↔ ∃ e ∈ log, e.2 = .pass
  fail : 0 < n → r ≠ .pass → log.length = n ∧
    ∃ reasons, log.map Prod.snd = reasons.map .fail ∧ r = .fail ("; ".intercalate reasons)
  empty : n = 0 → r = .fail "no predicates"

variable {state : NetworkState (StateM σ)} {any : NetworkState (StateM (σ × Log))}
  {c : Composition} {p : Predicate (StateM σ)} {ps ps' : List (Predicate (StateM σ))} {k : ℕ}
  {w w' : σ} {r : PredicateResult} {log log₀ : Log}

/-! One relation for both loops: the evaluations made from `w` on and the world they leave. -/

inductive Evals (state : NetworkState (StateM σ)) (c : Composition) :
    ℕ → List (Predicate (StateM σ)) → σ → Log → σ → Prop
  | through {k : ℕ} {w : σ} : Evals state c k [] w [] w
  | stop {k : ℕ} {p : Predicate (StateM σ)} {ps : List (Predicate (StateM σ))} {w w' : σ}
      {r : PredicateResult} (he : p.evaluate state w = (r, w')) (hs : c.stops r = true) :
      Evals state c k (p :: ps) w [(k, r)] w'
  | next {k : ℕ} {p : Predicate (StateM σ)} {ps : List (Predicate (StateM σ))} {w w' w'' : σ}
      {r : PredicateResult} {log : Log} (he : p.evaluate state w = (r, w'))
      (hs : c.stops r = false) (h : Evals state c (k + 1) ps w' log w'') :
      Evals state c k (p :: ps) w ((k, r) :: log) w''

theorem evals_exists (state : NetworkState (StateM σ)) (c : Composition) (k : ℕ)
    (ps : List (Predicate (StateM σ))) (w : σ) : ∃ log w', Evals state c k ps w log w' := by
  induction ps generalizing k w with
  | nil => exact ⟨[], w, .through⟩
  | cons p ps ih =>
    cases hs : c.stops (p.evaluate state w).1 with
    | true => exact ⟨_, _, .stop rfl hs⟩
    | false =>
      obtain ⟨log, w', h⟩ := ih (k + 1) (p.evaluate state w).2
      exact ⟨_, _, .next rfl hs h⟩

theorem Evals.upToFirst (h : Evals state c k ps w log w') :
    log.map Prod.fst = List.range' k log.length ∧ log.length ≤ ps.length ∧
    (∀ e ∈ log.dropLast, c.stops e.2 = false) ∧
    (log.length = ps.length ∨ ∃ e ∈ log.getLast?, c.stops e.2 = true) := by
  induction h with
  | through => simp
  | stop he hs => exact ⟨rfl, by simp, by simp, Or.inr ⟨_, rfl, hs⟩⟩
  | @next k p ps w w' w'' r log he hs h ih =>
    obtain ⟨h1, h2, h3, h4⟩ := ih
    refine ⟨?_, by simpa using h2, ?_, ?_⟩
    · rw [List.map_cons, h1, List.length_cons, List.range'_succ]
    · intro e hmem
      cases log with
      | nil => simp at hmem
      | cons a log =>
        rw [List.dropLast_cons_cons] at hmem
        rcases List.mem_cons.1 hmem with rfl | hmem
        · exact hs
        · exact h3 e hmem
    · rcases h4 with h4 | ⟨e, hmem, hstop⟩
      · exact Or.inl (by simpa using h4)
      · refine Or.inr ⟨e, ?_, hstop⟩
        rw [Option.mem_def] at hmem ⊢
        rw [List.getLast?_cons, hmem]
        rfl

theorem Evals.trace (h : Evals state c 0 ps w log w') : UpToFirst c.stops ps.length log := by
  obtain ⟨h1, h2, h3, h4⟩ := h.upToFirst
  exact ⟨by rw [h1, List.range_eq_range'], h2, h3, h4⟩

/-- What the AND loop returns. -/
def andResult (log : Log) : PredicateResult :=
  match log.getLast? with
  | some (_, .fail reason) => .fail reason
  | _ => .pass

/-- What the OR loop returns, with the reasons pushed so far. -/
def orResult : Log → List String → PredicateResult
  | [], reasons => .fail ("; ".intercalate reasons)
  | (_, .pass) :: _, _ => .pass
  | (_, .fail reason) :: log, reasons => orResult log (reasons ++ [reason])

theorem andResult_cons (k : ℕ) (log : Log) : andResult ((k, .pass) :: log) = andResult log := by
  unfold andResult
  rw [List.getLast?_cons]
  cases log.getLast? <;> rfl

theorem evaluateAnd_pass (he : p.evaluate state w = (.pass, w')) :
    PredicateSet.evaluateAnd state (p :: ps) w = PredicateSet.evaluateAnd state ps w' := by
  simp only [PredicateSet.evaluateAnd, bind, StateT.bind, he]

theorem evaluateAnd_fail {reason : String} (he : p.evaluate state w = (.fail reason, w')) :
    PredicateSet.evaluateAnd state (p :: ps) w = (.fail reason, w') := by
  simp only [PredicateSet.evaluateAnd, bind, StateT.bind, he]
  rfl

theorem evaluateOr_pass {reasons : List String} (he : p.evaluate state w = (.pass, w')) :
    PredicateSet.evaluateOr state (p :: ps) reasons w = (.pass, w') := by
  simp only [PredicateSet.evaluateOr, bind, StateT.bind, he]
  rfl

theorem evaluateOr_fail {reason : String} {reasons : List String}
    (he : p.evaluate state w = (.fail reason, w')) :
    PredicateSet.evaluateOr state (p :: ps) reasons w =
      PredicateSet.evaluateOr state ps (reasons ++ [reason]) w' := by
  simp only [PredicateSet.evaluateOr, bind, StateT.bind, he]

theorem logged_evaluate (any : NetworkState (StateM (σ × Log))) (k : ℕ) (log₀ : Log)
    (he : p.evaluate state w = (r, w')) :
    (p.logged state k).evaluate any (w, log₀) = (r, w', log₀ ++ [(k, r)]) := by
  simp only [Predicate.logged, he]

theorem Evals.evaluateAnd (h : Evals state .and k ps w log w') :
    PredicateSet.evaluateAnd state ps w = (andResult log, w') := by
  induction h with
  | through => rfl
  | @stop k p ps w w' r he hs =>
    cases r with
    | pass => cases hs
    | fail reason => exact evaluateAnd_fail he
  | @next k p ps w w' w'' r log he hs h ih =>
    cases r with
    | pass => rw [evaluateAnd_pass he, ih, andResult_cons]
    | fail reason => cases hs

theorem Evals.evaluateOr (h : Evals state .or k ps w log w') (reasons : List String) :
    PredicateSet.evaluateOr state ps reasons w = (orResult log reasons, w') := by
  induction h generalizing reasons with
  | through => rfl
  | @stop k p ps w w' r he hs =>
    cases r with
    | pass => exact evaluateOr_pass he
    | fail reason => cases hs
  | @next k p ps w w' w'' r log he hs h ih =>
    cases r with
    | pass => cases hs
    | fail reason => exact (evaluateOr_fail he).trans (ih (reasons ++ [reason]))

/-- The logged members make the same evaluations. -/
theorem Evals.logged (any : NetworkState (StateM (σ × Log))) (h : Evals state c k ps w log w')
    (log₀ : Log) :
    Evals any c k (loggedFrom state k ps) (w, log₀) log (w', log₀ ++ log) := by
  induction h generalizing log₀ with
  | through =>
    rw [List.append_nil]
    exact .through
  | stop he hs => exact .stop (logged_evaluate any _ log₀ he) hs
  | next he hs h ih =>
    rw [List.append_cons]
    exact .next (logged_evaluate any _ log₀ he) hs (ih _)

theorem or_stops_eq_true : Composition.or.stops r = true ↔ r = .pass :=
  PredicateResult.isPass_iff

theorem and_stops_eq_false : Composition.and.stops r = false ↔ r = .pass := by
  rw [← PredicateResult.isPass_iff]
  simp [Composition.stops]

theorem andResult_of_forall (h : ∀ e ∈ log, e.2 = .pass) : andResult log = .pass := by
  unfold andResult
  split
  · next i reason hl =>
    have := h _ (List.mem_of_getLast? hl)
    simp at this
  · rfl

theorem andResult_eq_fail (reason : String) :
    andResult log = .fail reason ↔ ∃ i, log.getLast? = some (i, .fail reason) := by
  unfold andResult
  rcases log.getLast? with _ | ⟨i, _ | reason'⟩ <;> simp

theorem last_of_andResult (h : andResult log = .pass) : ∀ e ∈ log.getLast?, e.2 = .pass := by
  rintro ⟨i, r⟩ he
  cases r with
  | pass => rfl
  | fail reason =>
    rw [(andResult_eq_fail reason).mpr ⟨i, he⟩] at h
    cases h

theorem andTrace {n : ℕ} (h : UpToFirst Composition.and.stops n log) :
    AndTrace n (andResult log) log := by
  refine ⟨h, ⟨fun hp => ⟨?_, ?_⟩, fun hp => andResult_of_forall hp.2⟩, andResult_eq_fail⟩
  · apply h.complete.resolve_right
    rintro ⟨e, he, hs⟩
    rw [and_stops_eq_false.mpr (last_of_andResult hp e he)] at hs
    cases hs
  · intro e he
    by_cases hlast : some e = log.getLast?
    · exact last_of_andResult hp e hlast.symm
    · exact and_stops_eq_false.mp (h.first e (List.mem_dropLast_of_mem_of_ne_getLast? he hlast))

theorem orResult_eq_pass (reasons : List String) :
    orResult log reasons = .pass ↔ ∃ e ∈ log, e.2 = .pass := by
  induction log generalizing reasons with
  | nil => simp [orResult]
  | cons e log ih =>
    obtain ⟨i, _ | reason⟩ := e
    · simp [orResult]
    · rw [orResult, ih]
      simp

theorem orResult_of_forall (h : ∀ e ∈ log, e.2 ≠ .pass) (reasons : List String) :
    ∃ reasons', log.map Prod.snd = reasons'.map .fail ∧
      orResult log reasons = .fail ("; ".intercalate (reasons ++ reasons')) := by
  induction log generalizing reasons with
  | nil => exact ⟨[], rfl, by simp [orResult]⟩
  | cons e log ih =>
    obtain ⟨i, _ | reason⟩ := e
    · simp at h
    · obtain ⟨reasons', hm, he⟩ := ih (fun e he => h e (List.mem_cons_of_mem _ he))
        (reasons ++ [reason])
      refine ⟨reason :: reasons', by simp [hm], ?_⟩
      rw [orResult, he, List.append_assoc]
      rfl

theorem orTrace {n : ℕ} (hn : n ≠ 0) (h : UpToFirst Composition.or.stops n log) :
    OrTrace n (orResult log []) log := by
  refine ⟨h, orResult_eq_pass [], fun _ hp => ?_, fun h0 => absurd h0 hn⟩
  rw [Ne, orResult_eq_pass] at hp
  have hp : ∀ e ∈ log, e.2 ≠ .pass := fun e he hpass => hp ⟨e, he, hpass⟩
  refine ⟨h.complete.resolve_right ?_, orResult_of_forall hp []⟩
  rintro ⟨e, he, hs⟩
  exact hp e (List.mem_of_getLast? he) (or_stops_eq_true.mp hs)

/-! The whole set, with the evaluations written down and without. -/

theorem evaluate_new_and (ps : List (Predicate (StateM σ))) (w : σ) :
    (PredicateSet.new ps .and).evaluate state w = PredicateSet.evaluateAnd state ps w := by
  cases ps <;> rfl

theorem evaluate_new_or (h : ps ≠ []) (w : σ) :
    (PredicateSet.new ps .or).evaluate state w = PredicateSet.evaluateOr state ps [] w := by
  obtain ⟨p, ps, rfl⟩ := List.exists_cons_of_ne_nil h
  rfl

theorem loggedFrom_ne_nil (h : ps ≠ []) : loggedFrom state k ps ≠ [] := by
  obtain ⟨p, ps, rfl⟩ := List.exists_cons_of_ne_nil h
  exact List.cons_ne_nil _ _

def Composition.Traced : Composition → ℕ → PredicateResult → Log → Prop
  | .and => AndTrace
  | .or => OrTrace

/-- The logged set returns what the set returns and leaves the same world. -/
def Logs (state : NetworkState (StateM σ)) (any : NetworkState (StateM (σ × Log)))
    (set : PredicateSet (StateM σ)) (w : σ) (r : PredicateResult) (w' : σ) (log : Log) : Prop :=
  set.evaluate state w = (r, w') ∧ (set.logged state).evaluate any (w, []) = (r, w', log)

theorem logs_and (h : Evals state .and 0 ps w log w') :
    Logs state any (.new ps .and) w (andResult log) w' log := by
  refine ⟨?_, ?_⟩
  · rw [evaluate_new_and, h.evaluateAnd]
  · exact (evaluate_new_and _ _).trans (h.logged any []).evaluateAnd

theorem logs_or (hne : ps ≠ []) (h : Evals state .or 0 ps w log w') :
    Logs state any (.new ps .or) w (orResult log []) w' log := by
  refine ⟨?_, ?_⟩
  · rw [evaluate_new_or hne, h.evaluateOr]
  · exact (evaluate_new_or (loggedFrom_ne_nil hne) _).trans ((h.logged any []).evaluateOr [])

theorem traced (state : NetworkState (StateM σ)) (any : NetworkState (StateM (σ × Log)))
    (ps : List (Predicate (StateM σ))) (c : Composition) (w : σ) :
    ∃ r w' log, Logs state any (.new ps c) w r w' log ∧ c.Traced ps.length r log := by
  obtain ⟨log, w', h⟩ := evals_exists state c 0 ps w
  cases c with
  | and => exact ⟨_, _, _, logs_and h, andTrace h.trace⟩
  | or =>
    by_cases hne : ps = []
    · subst hne
      refine ⟨_, _, [], ⟨rfl, rfl⟩, ⟨rfl, Nat.le_refl _, by simp, Or.inl rfl⟩, by simp, ?_,
        fun _ => rfl⟩
      intro h0
      cases h0
    · exact ⟨_, _, _, logs_or hne h, orTrace (by simpa using hne) h.trace⟩

/-! Verdicts that do not depend on the order. -/

/-- The world that some evaluations leave. -/
def worldAfter (state : NetworkState (StateM σ)) (qs : List (Predicate (StateM σ))) (w : σ) : σ :=
  qs.foldl (fun w p => (p.evaluate state w).2) w

/-- Whichever members were evaluated before it, the verdict of a member is `v`. -/
def OrderFree (state : NetworkState (StateM σ)) (ps : List (Predicate (StateM σ))) (w : σ)
    (v : Predicate (StateM σ) → Bool) : Prop :=
  ∀ qs, qs ⊆ ps → ∀ p ∈ ps, (p.evaluate state (worldAfter state qs w)).1.isPass = v p

/-- Whether a set with these members passes. -/
def passes (state : NetworkState (StateM σ)) (c : Composition) (ps : List (Predicate (StateM σ)))
    (w : σ) : Bool :=
  ((PredicateSet.new ps c).evaluate state w).1.isPass

variable {v : Predicate (StateM σ) → Bool} {qs : List (Predicate (StateM σ))}

theorem OrderFree.head (h : OrderFree state ps w v) (hp : p ∈ ps) :
    (p.evaluate state w).1.isPass = v p := h [] (List.nil_subset _) p hp

theorem OrderFree.after (h : OrderFree state ps w v) (hp : p ∈ ps) :
    OrderFree state ps (p.evaluate state w).2 v :=
  fun qs hq => h (p :: qs) (List.cons_subset.mpr ⟨hp, hq⟩)

theorem OrderFree.evaluateAnd (h : OrderFree state ps w v) (hq : qs ⊆ ps) :
    (PredicateSet.evaluateAnd state qs w).1.isPass = qs.all v := by
  induction qs generalizing w with
  | nil => rfl
  | cons p qs ih =>
    obtain ⟨hp, hq⟩ := List.cons_subset.mp hq
    have ih := ih (h.after hp) hq
    rw [List.all_cons, ← h.head hp]
    rcases he : p.evaluate state w with ⟨_ | reason, w'⟩
    · rw [he] at ih
      rwa [evaluateAnd_pass he]
    · rw [evaluateAnd_fail he]
      rfl

theorem OrderFree.evaluateOr (h : OrderFree state ps w v) (hq : qs ⊆ ps) (reasons : List String) :
    (PredicateSet.evaluateOr state qs reasons w).1.isPass = qs.any v := by
  induction qs generalizing w reasons with
  | nil => rfl
  | cons p qs ih =>
    obtain ⟨hp, hq⟩ := List.cons_subset.mp hq
    have ih := ih (h.after hp) hq
    rw [List.any_cons, ← h.head hp]
    rcases he : p.evaluate state w with ⟨_ | reason, w'⟩
    · rw [evaluateOr_pass he]
      rfl
    · rw [he] at ih
      rw [evaluateOr_fail he]
      exact ih _

theorem OrderFree.passes_and (h : OrderFree state ps w v) (hq : qs ⊆ ps) :
    passes state .and qs w = qs.all v := by
  unfold passes
  rw [evaluate_new_and, h.evaluateAnd hq]

theorem OrderFree.passes_or (h : OrderFree state ps w v) (hq : qs ⊆ ps) :
    passes state .or qs w = qs.any v := by
  unfold passes
  by_cases hne : qs = []
  · subst hne
    rfl
  · rw [evaluate_new_or hne, h.evaluateOr hq]

/-- More members make an AND stricter. -/
theorem OrderFree.and_anti (h : OrderFree state ps w v) (hq : qs ⊆ ps)
    (hp : passes state .and ps w = true) : passes state .and qs w = true := by
  rw [h.passes_and (List.Subset.refl ps), List.all_eq_true] at hp
  rw [h.passes_and hq, List.all_eq_true]
  exact fun p hmem => hp p (hq hmem)

/-- More members make an OR weaker. -/
theorem OrderFree.or_mono (h : OrderFree state ps w v) (hq : qs ⊆ ps)
    (hp : passes state .or qs w = true) : passes state .or ps w = true := by
  rw [h.passes_or hq, List.any_eq_true] at hp
  rw [h.passes_or (List.Subset.refl ps), List.any_eq_true]
  obtain ⟨p, hmem, hv⟩ := hp
  exact ⟨p, hq hmem, hv⟩

theorem OrderFree.mono (h : OrderFree state ps w v) (hq : qs ⊆ ps) : OrderFree state qs w v :=
  fun rs hr p hp => h rs (fun _ hx => hq (hr hx)) p (hq hp)

/-- Sets with the same members, listed in any order and any number of times, agree. -/
theorem OrderFree.passes_eq (h : OrderFree state ps w v) (hq : qs ⊆ ps) (hp : ps ⊆ qs)
    (c : Composition) : passes state c qs w = passes state c ps w := by
  apply Bool.eq_iff_iff.mpr
  cases c with
  | and => exact ⟨(h.mono hq).and_anti hp, h.and_anti hq⟩
  | or => exact ⟨h.or_mono hq, (h.mono hq).or_mono hp⟩

/-- Evaluations that only read the world do not depend on the order. -/
theorem orderFree_of_reads (h : ∀ p ∈ ps, ∀ w, (p.evaluate state w).2 = w) (w : σ) :
    OrderFree state ps w fun p => (p.evaluate state w).1.isPass := by
  intro qs hq p _
  have hw : worldAfter state qs w = w := by
    induction qs with
    | nil => rfl
    | cons q qs ih =>
      obtain ⟨hmem, hq⟩ := List.cons_subset.mp hq
      unfold worldAfter at ih ⊢
      rw [List.foldl_cons, h q hmem, ih hq]
  rw [hw]

/-- What a set evaluates and returns; and where verdicts do not depend on the order, the verdict is
a monotone function of the members. -/
theorem evaluate_trace (state : NetworkState (StateM σ)) (any : NetworkState (StateM (σ × Log)))
    (ps : List (Predicate (StateM σ))) (w : σ) :
    (∀ c : Composition, ∃ r w' log,
      Logs state any (.new ps c) w r w' log ∧ c.Traced ps.length r log) ∧
    ∀ v, OrderFree state ps w v → ∀ qs, qs ⊆ ps →
      (passes state .and ps w = true → passes state .and qs w = true) ∧
      (passes state .or qs w = true → passes state .or ps w = true) ∧
      (ps ⊆ qs → ∀ c, passes state c qs w = passes state c ps w) :=
  ⟨fun c => traced state any ps c w,
    fun _ h _ hq => ⟨h.and_anti hq, h.or_mono hq, fun hp c => h.passes_eq hq hp c⟩⟩

/-- The world is the current path, which is expensive; a low-data check lets the OR pass. -/
theorem evaluate_trace_metered :
    passes ⟨fun x => (x.expensive, x), fun x => (x.lowData, x)⟩ .or
      [rejectExpensive, rejectLowData] (⟨true, false⟩ : NwPathSnapshot) = true :=
  ((evaluate_trace ⟨fun x => (x.expensive, x), fun x => (x.lowData, x)⟩
    ⟨fun x => (false, x), fun x => (false, x)⟩ [rejectExpensive, rejectLowData]
      (⟨true, false⟩ : NwPathSnapshot)).2 _
    (orderFree_of_reads (by
      intro p hp ⟨e, l⟩
      simp only [List.mem_cons, List.not_mem_nil, or_false] at hp
      rcases hp with rfl | rfl
      · cases e <;> rfl
      · cases l <;> rfl) _) [rejectLowData] (by simp)).2.1 rfl

end Condrun
