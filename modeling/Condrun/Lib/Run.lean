import Mathlib.Data.List.Induction
import Mathlib.Logic.Relation

/-! Labelled transition systems and their finite runs. A run keeps the labels of its steps,
oldest first, and grows at its end, so an induction over it meets the last step first. -/

/-- What a run shows of its steps grows at the end with the run. -/
theorem List.filterMap_snoc {α β : Type*} (f : α → Option β) (l : List α) (a : α) :
    (l ++ [a]).filterMap f = l.filterMap f ++ (f a).toList := by
  cases h : f a <;> simp [h]

structure Lts (S L : Type*) where
  init : S → Prop
  step : S → L → S → Prop

namespace Lts

variable {S L T M : Type*} {m : Lts S L} {ls : List L} {s s' : S} {l : L}

inductive Run (m : Lts S L) : List L → S → Prop
  | nil {s : S} : m.init s → Run m [] s
  | snoc {ls : List L} {s s' : S} {l : L} : Run m ls s → m.step s l s' → Run m (ls ++ [l]) s'

theorem Run.invariant {P : S → Prop} (h0 : ∀ s, m.init s → P s)
    (hs : ∀ s l s', P s → m.step s l s' → P s') (h : m.Run ls s) : P s := by
  induction h with
  | nil hi => exact h0 _ hi
  | snoc _ hst ih => exact hs _ _ _ ih hst

/-- A step in the middle of a run starts where the run before it ended. -/
theorem Run.split {pre post : List L} (h : m.Run (pre ++ l :: post) s) :
    ∃ a b, m.Run pre a ∧ m.step a l b ∧ m.Run (pre ++ [l]) b := by
  induction post using List.reverseRecOn generalizing s with
  | nil =>
    generalize hls : pre ++ [l] = ls at h
    cases h with
    | nil => simp at hls
    | snoc hr hst =>
      obtain ⟨rfl, he⟩ := List.append_inj' hls rfl
      obtain rfl := List.singleton_inj.mp he
      exact ⟨_, _, hr, hst, hr.snoc hst⟩
  | append_singleton post k ih =>
    rw [← List.cons_append, ← List.append_assoc] at h
    generalize hls : pre ++ l :: post ++ [k] = ls at h
    cases h with
    | nil => simp at hls
    | snoc hr _ =>
      obtain ⟨rfl, -⟩ := List.append_inj' hls rfl
      exact ih hr

/-- A run goes on with the steps that a step function allows. -/
theorem Run.foldlM {f : S → L → Option S} (hf : ∀ s l s', f s l = some s' → m.step s l s')
    {ls' : List L} (h : m.Run ls s) (hs : ls'.foldlM f s = some s') : m.Run (ls ++ ls') s' := by
  induction ls' generalizing ls s with
  | nil =>
    obtain rfl := Option.some.inj hs
    simpa using h
  | cons l ls' ih =>
    rw [List.foldlM_cons, Option.bind_eq_bind, Option.bind_eq_some_iff] at hs
    obtain ⟨t, ht, hs⟩ := hs
    rw [List.append_cons]
    exact ih (h.snoc (hf s l t ht)) hs

/-- The system that only takes steps with `P`. -/
def restrict (m : Lts S L) (P : S → L → Prop) : Lts S L where
  init := m.init
  step s l s' := m.step s l s' ∧ P s l

theorem Run.of_restrict {P : S → L → Prop} (h : (m.restrict P).Run ls s) : m.Run ls s := by
  induction h with
  | nil hi => exact .nil hi
  | snoc _ hst ih => exact ih.snoc hst.1

/-- `P` holds of every step a run with these labels takes. -/
def Always (m : Lts S L) (P : S → L → S → Prop) (ls : List L) : Prop :=
  ∀ pre l post, ls = pre ++ l :: post → ∀ a b, m.Run pre a → m.step a l b → P a l b

/-- It is enough to compare two step properties in the states that runs reach. -/
theorem always_congr {P Q : S → L → S → Prop}
    (h : ∀ ls s l s', m.Run ls s → m.step s l s' → (P s l s' ↔ Q s l s')) (ls : List L) :
    m.Always P ls ↔ m.Always Q ls :=
  ⟨fun hp pre l post he a b hr hst => (h pre a l b hr hst).1 (hp pre l post he a b hr hst),
    fun hq pre l post he a b hr hst => (h pre a l b hr hst).2 (hq pre l post he a b hr hst)⟩

/-- `f` names the steps of `m'` that the steps of `m` show; the others leave `g` alone. -/
theorem Run.map {m' : Lts T M} {f : L → Option M} {g : S → T}
    (h0 : ∀ s, m.init s → m'.init (g s))
    (hs : ∀ s l s', m.step s l s' → match f l with
      | none => g s' = g s
      | some k => m'.step (g s) k (g s'))
    (h : m.Run ls s) : m'.Run (ls.filterMap f) (g s) := by
  induction h with
  | nil hi => exact .nil (h0 _ hi)
  | @snoc ls s s' l _ hst ih =>
    have := hs s l s' hst
    rw [List.filterMap_snoc]
    cases hf : f l with
    | none =>
      rw [hf] at this
      rw [Option.toList_none, List.append_nil, this]
      exact ih
    | some k =>
      rw [hf] at this
      exact ih.snoc this

/-- Every step of `m` is answered by the steps of `m'` that `f` makes of its label. -/
theorem Run.simulate {m' : Lts T M} {f : L → List M} {g : S → T}
    (h0 : ∀ s, m.init s → m'.init (g s))
    (hs : ∀ s l s', m.step s l s' → ∀ ks, m'.Run ks (g s) → m'.Run (ks ++ f l) (g s'))
    (h : m.Run ls s) : m'.Run (ls.flatMap f) (g s) := by
  induction h with
  | nil hi => exact .nil (h0 _ hi)
  | snoc _ hst ih =>
    rw [List.flatMap_append, List.flatMap_singleton]
    exact hs _ _ _ hst _ ih

/-! Runs that are bound to come to a state. -/

/-- Every run comes to `P` and stays there: none goes on for long outside, and none stops there. -/
structure Leads (m : Lts S L) (P : S → Prop) : Prop where
  bounded : ∃ n, ∀ ls s, m.Run ls s → n ≤ ls.length → P s
  goesOn : ∀ ls s, m.Run ls s → P s ∨ ∃ l s', m.step s l s'

/-- A rank that falls with every step is used up after as many. -/
theorem leads_of_rank {P : S → Prop} (Inv : S → Prop) (rank : S → ℕ) (n : ℕ)
    (h0 : ∀ s, m.init s → Inv s ∧ rank s ≤ n)
    (hs : ∀ s l s', Inv s → m.step s l s' → Inv s' ∧ rank s' ≤ rank s - 1)
    (hz : ∀ s, Inv s → rank s = 0 → P s) (hgo : ∀ s, Inv s → P s ∨ ∃ l s', m.step s l s') :
    m.Leads P := by
  have hrun : ∀ ls s, m.Run ls s → Inv s ∧ rank s ≤ n - ls.length := by
    intro ls s h
    induction h with
    | nil hi => exact h0 _ hi
    | snoc _ hst ih =>
      obtain ⟨hinv, hle⟩ := ih
      obtain ⟨hinv', hle'⟩ := hs _ _ _ hinv hst
      refine ⟨hinv', ?_⟩
      rw [List.length_append, List.length_singleton]
      omega
  refine ⟨⟨n, fun ls s h hlen => ?_⟩, fun ls s h => hgo s (hrun ls s h).1⟩
  obtain ⟨hinv, hle⟩ := hrun ls s h
  exact hz s hinv (by omega)

/-- Where one step alone can be made, it is enough that this one keeps the invariant and lowers the
rank. -/
theorem leads_of_determined {P : S → Prop} (Inv : S → Prop) (rank : S → ℕ) (n : ℕ)
    (h0 : ∀ s, m.init s → Inv s ∧ rank s ≤ n)
    (h : ∀ s, Inv s → (P s ∧ ∀ l s', ¬ m.step s l s') ∨
      ∃ l₀ s₀, (∀ l s', m.step s l s' ↔ l = l₀ ∧ s' = s₀) ∧ Inv s₀ ∧ rank s₀ < rank s) :
    m.Leads P := by
  refine leads_of_rank Inv rank n h0 (fun s l s' hs hst => ?_) (fun s hs hz => ?_) fun s hs => ?_
  · rcases h s hs with ⟨-, hstuck⟩ | ⟨l₀, s₀, hiff, hs₀, hrank⟩
    · exact absurd hst (hstuck l s')
    · obtain ⟨-, rfl⟩ := (hiff l s').mp hst
      exact ⟨hs₀, by omega⟩
  · rcases h s hs with ⟨hp, -⟩ | ⟨l₀, s₀, -, -, hrank⟩
    · exact hp
    · omega
  · rcases h s hs with ⟨hp, -⟩ | ⟨l₀, s₀, hiff, -, -⟩
    · exact Or.inl hp
    · exact Or.inr ⟨l₀, s₀, (hiff l₀ s₀).mpr ⟨rfl, rfl⟩⟩

/-- Where every step keeps `P`, one step alone that lowers the rank is enough outside `P`. -/
theorem leads_of_stable {P : S → Prop} (Inv : S → Prop) (rank : S → ℕ) (n : ℕ)
    (h0 : ∀ s, m.init s → Inv s ∧ rank s ≤ n) (hp : ∀ s l s', P s → m.step s l s' → P s')
    (h : ∀ s, Inv s → P s ∨
      ∃ l₀ s₀, (∀ l s', m.step s l s' ↔ l = l₀ ∧ s' = s₀) ∧ (P s₀ ∨ Inv s₀ ∧ rank s₀ < rank s)) :
    m.Leads P := by
  classical
  apply leads_of_rank (fun s => P s ∨ Inv s) (fun s => if P s then 0 else rank s + 1) (n + 1)
  · intro s hs
    obtain ⟨hinv, hle⟩ := h0 s hs
    refine ⟨Or.inr hinv, ?_⟩
    split_ifs <;> omega
  · intro s l s' hs hst
    by_cases hps : P s
    · have hps' := hp s l s' hps hst
      exact ⟨Or.inl hps', by simp [hps']⟩
    · obtain ⟨l₀, s₀, hiff, hs₀⟩ := (h s (hs.resolve_left hps)).resolve_left hps
      obtain ⟨-, rfl⟩ := (hiff l s').mp hst
      rcases hs₀ with hps' | ⟨hinv, hrank⟩
      · exact ⟨Or.inl hps', by simp [hps']⟩
      · refine ⟨Or.inr hinv, ?_⟩
        rw [if_neg hps]
        split_ifs <;> omega
  · intro s hs hz
    by_contra hps
    rw [if_neg hps] at hz
    omega
  · intro s hs
    by_cases hps : P s
    · exact Or.inl hps
    · obtain ⟨l₀, s₀, hiff, -⟩ := (h s (hs.resolve_left hps)).resolve_left hps
      exact Or.inr ⟨l₀, s₀, (hiff l₀ s₀).mpr ⟨rfl, rfl⟩⟩

/-- Some run has come there. -/
theorem Leads.reached {P : S → Prop} (h : m.Leads P) (h0 : m.init s) :
    ∃ ls s', m.Run ls s' ∧ P s' := by
  obtain ⟨⟨n, hn⟩, hgo⟩ := h
  have hlong : ∀ k, ∃ ls s', m.Run ls s' ∧ (P s' ∨ ls.length = k) := by
    intro k
    induction k with
    | zero => exact ⟨[], s, .nil h0, Or.inr rfl⟩
    | succ k ih =>
      obtain ⟨ls, s', hr, hp | hlen⟩ := ih
      · exact ⟨ls, s', hr, Or.inl hp⟩
      · rcases hgo ls s' hr with hp | ⟨l, s'', hst⟩
        · exact ⟨ls, s', hr, Or.inl hp⟩
        · exact ⟨ls ++ [l], s'', hr.snoc hst, Or.inr (by simp [hlen])⟩
  obtain ⟨ls, s', hr, hp | hlen⟩ := hlong n
  · exact ⟨ls, s', hr, hp⟩
  · exact ⟨ls, s', hr, hn ls s' hr (by omega)⟩

/-- The runs that go on from `s`. -/
def startAt (m : Lts S L) (s : S) : Lts S L where
  init x := x = s
  step := m.step

theorem run_nil_iff : m.Run [] s ↔ m.init s := by
  refine ⟨fun h => ?_, .nil⟩
  generalize hls : [] = ls at h
  cases h with
  | nil hi => exact hi
  | snoc => simp at hls

theorem run_snoc_iff : m.Run (ls ++ [l]) s ↔ ∃ a, m.Run ls a ∧ m.step a l s := by
  refine ⟨fun h => ?_, fun ⟨a, hr, hst⟩ => hr.snoc hst⟩
  generalize hls : ls ++ [l] = ls' at h
  cases h with
  | nil => simp at hls
  | snoc hr hst =>
    obtain ⟨rfl, he⟩ := List.append_inj' hls rfl
    obtain rfl := List.singleton_inj.mp he
    exact ⟨_, hr, hst⟩

/-- A run can be cut anywhere. -/
theorem Run.cut {ks : List L} (h : m.Run (ls ++ ks) s) :
    ∃ a, m.Run ls a ∧ (m.startAt a).Run ks s := by
  induction ks using List.reverseRecOn generalizing s with
  | nil => exact ⟨s, by simpa using h, .nil rfl⟩
  | append_singleton ks k ih =>
    rw [← List.append_assoc] at h
    obtain ⟨b, hb, hst⟩ := run_snoc_iff.mp h
    obtain ⟨a, ha, hr⟩ := ih hb
    exact ⟨a, ha, hr.snoc hst⟩

theorem Run.append {ks : List L} {a : S} (h : m.Run ls a) (h' : (m.startAt a).Run ks s) :
    m.Run (ls ++ ks) s := by
  induction h' with
  | nil hi =>
    obtain rfl := hi
    simpa using h
  | snoc _ hst ih =>
    rw [← List.append_assoc]
    exact ih.snoc hst

theorem run_cons_iff : (m.startAt s).Run (l :: ls) s' ↔
    ∃ a, m.step s l a ∧ (m.startAt a).Run ls s' := by
  refine ⟨fun h => ?_, fun ⟨a, hst, h⟩ => ?_⟩
  · obtain ⟨a, ha, hr⟩ := (show (m.startAt s).Run ([l] ++ ls) s' from h).cut
    obtain ⟨b, hb, hst⟩ := run_snoc_iff.mp (show (m.startAt s).Run ([] ++ [l]) a from ha)
    obtain rfl := run_nil_iff.mp hb
    exact ⟨a, hst, hr⟩
  · have hone : (m.startAt s).Run ([] ++ [l]) a := (Run.nil rfl).snoc hst
    exact hone.append h

/-- Runs that all come through `x` lead where the runs from there lead. -/
theorem Leads.trans {P : S → Prop} {x : S} (h : m.Leads fun s => ∃ ls, (m.startAt x).Run ls s)
    (h' : (m.startAt x).Leads P) : m.Leads P := by
  obtain ⟨⟨n, hn⟩, hgo⟩ := h
  obtain ⟨⟨k, hk⟩, hgo'⟩ := h'
  refine ⟨⟨n + k, fun ls s hr hlen => ?_⟩, fun ls s hr => ?_⟩
  · rw [← List.take_append_drop n ls] at hr
    obtain ⟨a, ha, hrest⟩ := hr.cut
    obtain ⟨js, hjs⟩ := hn _ a ha (by simp; omega)
    have hlong : k ≤ (js ++ ls.drop n).length := by
      rw [List.length_append, List.length_drop]
      omega
    exact hk _ s (Run.append hjs hrest) hlong
  · rcases hgo ls s hr with ⟨js, hjs⟩ | hstep
    · exact hgo' js s hjs
    · exact Or.inr hstep

/-- What holds in every run may be added to where the runs lead. -/
theorem Leads.strengthen {P Q : S → Prop} (h : m.Leads P)
    (hq : ∀ ls s, m.Run ls s → P s → Q s) : m.Leads Q := by
  obtain ⟨⟨n, hn⟩, hgo⟩ := h
  refine ⟨⟨n, fun ls s hr hlen => hq ls s hr (hn ls s hr hlen)⟩, fun ls s hr => ?_⟩
  exact (hgo ls s hr).imp_left (hq ls s hr)

end Lts

namespace Relation

/-- Forward simulation: every step on the left is answered by some steps on the right. -/
theorem ReflTransGen.simulate {S T : Type*} {r : S → S → Prop} {q : T → T → Prop}
    {R : S → T → Prop}
    (h : ∀ a b a', R a b → r a a' → ∃ b', ReflTransGen q b b' ∧ R a' b')
    {a a' : S} {b : T} (hr : ReflTransGen r a a') (hab : R a b) :
    ∃ b', ReflTransGen q b b' ∧ R a' b' := by
  induction hr with
  | refl => exact ⟨b, .refl, hab⟩
  | tail _ hst ih =>
    obtain ⟨b', hb, hR⟩ := ih
    obtain ⟨b'', hb', hR'⟩ := h _ _ _ hR hst
    exact ⟨b'', hb.trans hb', hR'⟩

/-- Where every reachable state has one successor at most, two ends of one beginning are the
same. -/
theorem ReflTransGen.end_unique {S : Type*} {r : S → S → Prop} {a b c : S}
    (hu : ∀ x, ReflTransGen r a x → ∀ y z, r x y → r x z → y = z)
    (hb : ReflTransGen r a b) (hc : ReflTransGen r a c) (hb' : ∀ x, ¬ r b x) (hc' : ∀ x, ¬ r c x) :
    b = c := by
  have hreach : ∀ {x}, ReflTransGen r a x →
      ReflTransGen (fun x y => ReflTransGen r a x ∧ r x y) a x := by
    intro x hx
    induction hx with
    | refl => exact .refl
    | tail hx hst ih => exact ih.tail ⟨hx, hst⟩
  have hright : Relator.RightUnique fun x y => ReflTransGen r a x ∧ r x y :=
    fun x y z hy hz => hu x hy.1 y z hy.2 hz.2
  rcases (hreach hb).total_of_right_unique hright (hreach hc) with h | h
  · rcases h.cases_head with rfl | ⟨d, hd, -⟩
    · rfl
    · exact absurd hd.2 (hb' d)
  · rcases h.cases_head with rfl | ⟨d, hd, -⟩
    · rfl
    · exact absurd hd.2 (hc' d)

end Relation
