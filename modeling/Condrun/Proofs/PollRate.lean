import Mathlib.Data.List.Chain
import Condrun.Proofs.Debounce
import Condrun.Proofs.System

/-! How often the watcher looks at the network, and how soon it can kill, when evaluations take any
time and timers are late. -/

namespace Condrun

variable {cfg : SupervisorConfig} {cmd : CommandSpec} {tr : List Entry} {ls : List Happening}
  {s : System Queue} {en : Entry} {ev : Event} {p p' : Phase} {now t d : ℕ} {ts : List ℕ}

/-- The instant at which the child was spawned, if it was. -/
def spawnTimes (tr : List Entry) : List ℕ :=
  tr.filterMap fun en => if en.event.spawn? = some (.ok ()) then some en.time else none

/-- The instants of the spawn and of the evaluations after it. -/
def looks (tr : List Entry) : List ℕ := spawnTimes tr ++ (watchEvals tr).map Entry.time

/-- Each instant is `d` after the one before, or later. -/
def Spaced (d : ℕ) (ts : List ℕ) : Prop := ts.IsChain fun a b => a + d ≤ b

theorem Spaced.snoc (h : Spaced d ts) (ht : ∀ u ∈ ts.getLast?, u + d ≤ t) :
    Spaced d (ts ++ [t]) := by
  refine List.IsChain.append h (List.isChain_singleton t) ?_
  intro u hu v hv
  obtain rfl : t = v := by simpa using hv
  exact ht u hu

theorem Spaced.length_le (h : Spaced d (t :: ts)) :
    ∀ u ∈ (t :: ts).getLast?, t + ts.length * d ≤ u := by
  induction ts generalizing t with
  | nil => simp
  | cons a ts ih =>
    obtain ⟨hle, h⟩ := List.isChain_cons_cons.mp h
    intro u hu
    rw [List.getLast?_cons_cons] at hu
    have := ih h u hu
    rw [List.length_cons, Nat.succ_mul]
    omega

theorem spawnTimes_snoc : spawnTimes (tr ++ [en]) =
    spawnTimes tr ++ if en.event.spawn? = some (.ok ()) then [en.time] else [] := by
  unfold spawnTimes
  rw [List.filterMap_snoc]
  split_ifs <;> rfl

theorem spawnTimes_snoc_other (hs : en.event.spawn? ≠ some (.ok ())) :
    spawnTimes (tr ++ [en]) = spawnTimes tr := by
  rw [spawnTimes_snoc, if_neg hs, List.append_nil]

theorem looks_snoc_other (hv : en.event.verdict? = none)
    (hs : en.event.spawn? ≠ some (.ok ())) : looks (tr ++ [en]) = looks tr := by
  rw [looks, looks, spawnTimes_snoc_other hs, watchEvals_snoc_other hv]

theorem looks_snoc_eval (h : Spawned tr) {res : PredicateResult}
    (he : en.event = .evaluated res) : looks (tr ++ [en]) = looks tr ++ [en.time] := by
  have hs : en.event.spawn? ≠ some (.ok ()) := by simp [he, Event.spawn?]
  rw [looks, looks, spawnTimes_snoc_other hs, watchEvals_snoc h (by rw [he]; rfl),
    List.map_append, List.append_assoc]
  rfl

/-- How long the loop has slept in a phase. -/
def Phase.slept (cfg : SupervisorConfig) : Phase → ℕ
  | .evaluating _ => cfg.poll
  | _ => 0

/-- What the debounce timer holds. -/
def Phase.timer? : Phase → Option ℕ
  | .watching failStartedAt => failStartedAt
  | .evaluating failStartedAt => failStartedAt
  | _ => none

/-- The pace of the loop, with the supervisor's last step at `now`. -/
structure Paced (cfg : SupervisorConfig) (tr : List Entry) (now : ℕ) (p : Phase) : Prop where
  spaced : Spaced cfg.poll (looks tr)
  last : ∀ t ∈ (looks tr).getLast?, t + p.slept cfg ≤ now
  spawn : ∀ t ∈ spawnTimes tr, t + p.slept cfg ≤ now
  timer : ∀ f ∈ p.timer?, ∀ t ∈ spawnTimes tr, t + cfg.poll ≤ f
  kills : ∀ en ∈ tr, en.next = .killing →
    ∀ t ∈ spawnTimes tr, t + cfg.poll + cfg.debounce ≤ en.time

theorem spawnTimes_of_not_spawned (h : ¬ Spawned tr) : spawnTimes tr = [] := by
  rw [spawnTimes, List.filterMap_eq_nil_iff]
  intro en hen
  rw [if_neg]
  intro hs
  exact h (List.mem_filterMap.2 ⟨en, hen, hs⟩)

/-- Before the spawn there is nothing to keep. -/
theorem paced_of_not_spawned (h : ¬ Spawned tr) : Paced cfg tr now p := by
  have hs : spawnTimes tr = [] := spawnTimes_of_not_spawned h
  have hl : looks tr = [] := by
    simp [looks, hs, watchEvals, sinceSpawn_of_not_spawned h]
  refine ⟨?_, ?_, ?_, ?_, ?_⟩
  · rw [hl]
    exact List.isChain_nil
  · simp [hl]
  all_goals simp [hs]

/-- Steps that look at nothing keep the pace, if the timer is what it was or off. -/
theorem Paced.other (h : Paced cfg tr now p) (hv : ev.verdict? = none)
    (hs : ev.spawn? ≠ some (.ok ())) (hsl : now + p'.slept cfg ≤ t)
    (htimer : p'.timer? = p.timer? ∨ p'.timer? = none) (hk : p' ≠ .killing) :
    Paced cfg (tr ++ [⟨t, ev, p'⟩]) t p' := by
  have hsp : spawnTimes (tr ++ [⟨t, ev, p'⟩]) = spawnTimes tr := spawnTimes_snoc_other hs
  have hl : looks (tr ++ [⟨t, ev, p'⟩]) = looks tr := looks_snoc_other hv hs
  refine ⟨?_, ?_, ?_, ?_, ?_⟩
  · rw [hl]
    exact h.spaced
  · rw [hl]
    intro u hu
    have := h.last u hu
    omega
  · rw [hsp]
    intro u hu
    have := h.spawn u hu
    omega
  · rw [hsp]
    intro f hf u hu
    rcases htimer with ht | ht
    · rw [ht] at hf
      exact h.timer f hf u hu
    · rw [ht] at hf
      cases hf
  · rw [hsp]
    intro en hen hnext u hu
    rcases List.mem_append.1 hen with hen | hen
    · exact h.kills en hen hnext u hu
    · obtain rfl := List.mem_singleton.1 hen
      exact absurd hnext hk

/-- The spawn is the first look. -/
theorem paced_spawned (hn : ¬ Spawned tr) (hnk : ∀ en ∈ tr, en.next ≠ .killing)
    (hsl : p'.slept cfg = 0) (htimer : p'.timer? = none) (hk : p' ≠ .killing) :
    Paced cfg (tr ++ [⟨t, .spawned cmd (.ok ()), p'⟩]) t p' := by
  have hsp : spawnTimes (tr ++ [⟨t, .spawned cmd (.ok ()), p'⟩]) = [t] := by
    rw [spawnTimes_snoc, spawnTimes_of_not_spawned hn]
    rfl
  have hl : looks (tr ++ [⟨t, .spawned cmd (.ok ()), p'⟩]) = [t] := by
    rw [looks, hsp, watchEvals_snoc_of_not_spawned hn]
    rfl
  refine ⟨?_, ?_, ?_, ?_, ?_⟩
  · rw [hl]
    exact List.isChain_singleton t
  · simp [hl, hsl]
  · simp [hsp, hsl]
  · simp [htimer]
  · intro en hen hnext
    rcases List.mem_append.1 hen with hen | hen
    · exact absurd hnext (hnk en hen)
    · obtain rfl := List.mem_singleton.1 hen
      exact absurd hnext hk

/-- An evaluation in the loop is made a sleep after the last look, and a block of failures cannot
have begun before it. -/
theorem Paced.eval {fs : Option ℕ} {res : PredicateResult} (h : Paced cfg tr now (.evaluating fs))
    (hs : Spawned tr) (hle : now ≤ t)
    (hm : Move cfg cmd t (.evaluating fs) (.evaluated res) p') :
    Paced cfg (tr ++ [⟨t, .evaluated res, p'⟩]) t p' := by
  have hsp : spawnTimes (tr ++ [⟨t, .evaluated res, p'⟩]) = spawnTimes tr :=
    spawnTimes_snoc_other (by simp [Event.spawn?])
  have hl : looks (tr ++ [⟨t, .evaluated res, p'⟩]) = looks tr ++ [t] := looks_snoc_eval hs rfl
  have hspawn : ∀ u ∈ spawnTimes tr, u + cfg.poll ≤ t := fun u hu => (h.spawn u hu).trans hle
  have hstart : ∀ u ∈ spawnTimes tr, u + cfg.poll ≤ fs.getD t := by
    intro u hu
    cases fs with
    | none => exact hspawn u hu
    | some f => exact h.timer f rfl u hu
  have hslept : p'.slept cfg = 0 := by cases hm <;> rfl
  refine ⟨?_, ?_, ?_, ?_, ?_⟩
  · rw [hl]
    exact h.spaced.snoc fun u hu => (h.last u hu).trans hle
  · simp [hl, hslept]
  · rw [hsp, hslept]
    intro u hu
    have := hspawn u hu
    omega
  · rw [hsp]
    intro f hf u hu
    cases hm with
    | evalPass | evalKill => cases hf
    | evalWait =>
      obtain rfl := Option.some.inj hf
      exact hstart u hu
  · rw [hsp]
    intro en hen hnext u hu
    rcases List.mem_append.1 hen with hen | hen
    · exact h.kills en hen hnext u hu
    · obtain rfl := List.mem_singleton.1 hen
      have hu1 := hspawn u hu
      have hu2 := hstart u hu
      cases hm with
      | evalPass | evalWait => cases hnext
      | evalKill _ reason hd =>
        simp only
        omega

/-- Until the spawn nothing was spawned and nobody was killed. -/
theorem run_fresh {s : State} (hr : (supervisor cfg cmd).Run tr s)
    (hp : s.phase = .preflight ∨ s.phase = .spawning) :
    ¬ Spawned tr ∧ ∀ en ∈ tr, en.next ≠ .killing := by
  have ha := run_account hr
  refine ⟨(spawned_iff_of_account ha).1 hp, ?_⟩
  have hkills : watcherKills tr = 0 := by
    generalize hL : ledger cfg cmd tr = L at ha
    rw [(shows_of_ledger hL).2.2.2.2.1]
    rcases hp with hp | hp <;> rw [hp] at ha <;> cases ha <;> rfl
  simpa [watcherKills, List.countP_eq_zero] using hkills

/-- What a step of the supervisor keeps. Only the tick says how long it took. -/
theorem paced_resume (hr : (system cfg cmd).Run ls s)
    (h : Paced cfg (entries ls) s.sup.now s.sup.phase) (hres : s.Resumes cfg cmd en) :
    Paced cfg (entries ls ++ [en]) en.time en.next := by
  have hrun := run_entries hr
  have hfresh := run_fresh hrun
  have hspawned := (spawned_iff_of_account (run_account hrun)).2
  have htick : ∀ fs, s.sup.phase = .watching fs → en.event = .elapsed cfg.poll →
      s.sup.now + cfg.poll ≤ en.time := fun fs hp he => by
    rw [hres.time]
    exact (tick_wins hres hp he).2.2.2
  have hle := hres.mono
  have hm := hres.move
  obtain ⟨t, ev, p'⟩ := en
  simp only at hm hle htick
  generalize s.sup.phase = p at hm h hfresh hspawned htick
  have hmove := hm
  cases hm with
  | gatePass | gateFail | gateSignal =>
    refine paced_of_not_spawned ?_
    have hn := (hfresh (Or.inl rfl)).1
    simpa [Spawned, spawnResults, Event.spawn?] using hn
  | spawnFail =>
    exact h.other rfl (by simp [Event.spawn?]) hle (Or.inr rfl) (by simp)
  | spawnWatch | spawnPlain =>
    obtain ⟨hn, hnk⟩ := hfresh (Or.inr rfl)
    exact paced_spawned hn hnk rfl rfl (by simp)
  | watchTick fs =>
    exact h.other rfl (by simp [Event.spawn?]) (htick fs rfl rfl) (Or.inl rfl) (by simp)
  | evalPass fs | evalWait fs | evalKill fs => exact h.eval (hspawned fs rfl) hle hmove
  | _ => exact h.other rfl (by simp [Event.spawn?]) hle (Or.inr rfl) (by simp)

theorem run_paced (hr : (system cfg cmd).Run ls s) :
    Paced cfg (entries ls) s.sup.now s.sup.phase := by
  induction hr with
  | nil => exact paced_of_not_spawned (by simp [Spawned, spawnResults, entries])
  | snoc hr hst ih =>
    cases happens_of_step hst with
    | resume en hres =>
      rw [entries_snoc_resume]
      exact paced_resume hr ih hres
    | _ =>
      rw [entries_snoc_other rfl]
      exact ih

/-- However long evaluations take and however late timers are, the watcher looks at the network at
most once per poll, counted from the spawn, and it does not kill before a poll and the debounce have
passed since the spawn. -/
theorem poll_rate (hr : (system cfg cmd).Run ls s) :
    Spaced cfg.poll (looks (entries ls)) ∧
    (∀ t ∈ spawnTimes (entries ls), t + (watchEvals (entries ls)).length * cfg.poll ≤ s.now) ∧
    ∀ en ∈ entries ls, en.next = .killing →
      ∀ t ∈ spawnTimes (entries ls), t + cfg.poll + cfg.debounce ≤ en.time := by
  have h := run_paced hr
  refine ⟨h.spaced, ?_, h.kills⟩
  intro t ht
  obtain ⟨l₁, l₂, hsplit⟩ := List.append_of_mem ht
  have hl : looks (entries ls) =
      l₁ ++ t :: (l₂ ++ (watchEvals (entries ls)).map Entry.time) := by
    rw [looks, hsplit, List.append_assoc, List.cons_append]
  have hsuffix : Spaced cfg.poll (t :: (l₂ ++ (watchEvals (entries ls)).map Entry.time)) := by
    have hspaced := h.spaced
    rw [hl] at hspaced
    exact hspaced.right_of_append
  obtain ⟨u, hu⟩ : ∃ u, (looks (entries ls)).getLast? = some u :=
    Option.ne_none_iff_exists'.1 (by simp [hl])
  have hlen := hsuffix.length_le u (by rw [hl, List.getLast?_append_cons] at hu; exact hu)
  have hlast := h.last u hu
  have hclock := run_clock hr
  rw [List.length_append, List.length_map, Nat.add_mul] at hlen
  omega

/-- With poll 2 and debounce 3: a tick that is late by 3, and evaluations that take 1. -/
def slowLooks : List Happening :=
  [.resume ⟨0, .evaluated .pass, .spawning⟩,
    .resume ⟨0, .spawned ⟨"echo", ["hello"]⟩ (.ok ()), .watching none⟩, .elapse 5,
    .resume ⟨5, .elapsed 2, .evaluating none⟩, .elapse 1,
    .resume ⟨6, .evaluated (.fail "metered"), .watching (some 6)⟩, .elapse 2,
    .resume ⟨8, .elapsed 2, .evaluating (some 6)⟩, .elapse 1,
    .resume ⟨9, .evaluated (.fail "metered"), .killing⟩]

theorem poll_rate_slow :
    looks (entries slowLooks) = [0, 6, 9] ∧ Spaced 2 (looks (entries slowLooks)) :=
  have hrun : (system ⟨false, true, 1, 2, 3⟩ ⟨"echo", ["hello"]⟩).Run slowLooks
      ⟨⟨.killing, 9⟩, 9, .running, []⟩ := system_run slowLooks rfl
  ⟨rfl, (poll_rate hrun).1⟩

end Condrun
