import Condrun.Proofs.ExitCode
import Condrun.Proofs.Protocol
import Condrun.Spec.RealSignals

/-! The supervisor over the four coalescing streams: `next` offers exactly the kinds that came and
were not taken since, none of them is lost, and the runs are runs over a queue in which a signal
arrives at the instant it is taken. -/

namespace Condrun

variable {cfg : SupervisorConfig} {cmd : CommandSpec} {ls : List Happening}
  {s s' : System RealSignals} {h : Happening} {en : Entry} {k sig : SignalKind} {f g : Recv}

namespace RealSignals

/-- Every stream is of the kind that its `recv` reports. -/
def Installed (s : RealSignals) : Prop := ∀ f, (s.stream f).kind = output f

theorem stream_arrive (s : RealSignals) (sig : SignalKind) (f : Recv) :
    (s.arrive sig).stream f = (s.stream f).notify sig := by
  cases f <;> rfl

theorem stream_recv (s : RealSignals) (f g : Recv) :
    (s.recv f).stream g =
      { s.stream g with notified := (s.stream g).notified && decide (f ≠ g) } := by
  cases f <;> cases g <;> simp [recv, stream]

theorem output_inj : output f = output g ↔ f = g := by
  cases f <;> cases g <;> simp [output]

theorem exists_output (k : SignalKind) : ∃ f, output f = k := by
  cases k with
  | interrupt => exact ⟨.int, rfl⟩
  | terminate => exact ⟨.term, rfl⟩
  | quit => exact ⟨.quit, rfl⟩
  | hup => exact ⟨.hup, rfl⟩

theorem mem_next (f : Recv) : f ∈ next.branches := by
  cases f <;> simp [next]

theorem new_installed {register : SignalKind → Except Error Unit} {s : RealSignals}
    (h : new register = .ok s) : s.Installed ∧ ∀ f, (s.stream f).notified = false := by
  unfold new tokioSignal at h
  cases hi : register .interrupt <;> cases ht : register .terminate <;>
    cases hq : register .quit <;> cases hh : register .hup <;>
    simp only [hi, ht, hq, hh, bind, Except.bind, pure, Except.pure, reduceCtorEq,
      Except.ok.injEq] at h
  subst h
  exact ⟨fun f => by cases f <;> rfl, fun f => by cases f <;> rfl⟩

theorem wins_next {s : RealSignals} :
    next.Wins (fun g => (s.stream g).notified = true) f ↔ (s.stream f).notified = true :=
  (Select.wins_unbiased _).trans (and_iff_right (mem_next f))

/-- Any kind whose stream was notified may be returned, whatever the others hold. -/
theorem mem_offers {s : RealSignals} :
    k ∈ Source.offers s ↔ ∃ f, (s.stream f).notified = true ∧ output f = k := by
  simp [Source.offers, nexts, wins_next, mem_next]

theorem lookup_output {s : RealSignals} {fs : List Recv} (hf : f ∈ fs) :
    (fs.map fun g => (output g, s.recv g)).lookup (output f) = some (s.recv f) := by
  induction fs with
  | nil => cases hf
  | cons g fs ih =>
    rw [List.map_cons, List.lookup_cons]
    by_cases hg : f = g
    · simp [hg]
    · have hne : (output f == output g) = false := by simp [output_inj, hg]
      rw [hne]
      exact ih ((List.mem_cons.1 hf).resolve_left hg)

theorem take_output {s : RealSignals} (hf : (s.stream f).notified = true) :
    Source.take s (output f) = s.recv f := by
  have hm : f ∈ next.branches.filter
      fun f => next.Wins (fun g => (s.stream g).notified = true) f :=
    List.mem_filter.mpr ⟨mem_next f, decide_eq_true (wins_next.mpr hf)⟩
  show (s.nexts.lookup (output f)).getD s = s.recv f
  rw [nexts, lookup_output hm]
  rfl

end RealSignals

open RealSignals

/-- A signal of the kind has come, and none was taken since. -/
def Pending (k : SignalKind) (ls : List Happening) : Prop :=
  ∃ pre post, ls = pre ++ .arrive k :: post ∧
    ∀ en, .resume en ∈ post → en.event ≠ .signalled k

theorem not_pending_nil : ¬ Pending k [] := by
  rintro ⟨pre, post, he, -⟩
  simp at he

theorem pending_snoc : Pending k (ls ++ [h]) ↔
    h = .arrive k ∨ (Pending k ls ∧ ∀ en, h = .resume en → en.event ≠ .signalled k) := by
  refine ⟨?_, ?_⟩
  · rintro ⟨pre, post, he, hpost⟩
    rcases List.eq_nil_or_concat post with rfl | ⟨post, h', rfl⟩
    · exact Or.inl (by simpa using (List.append_inj' he rfl).2)
    · rw [List.concat_eq_append, ← List.cons_append, ← List.append_assoc] at he
      obtain ⟨rfl, hh⟩ := List.append_inj' he rfl
      obtain rfl := List.singleton_inj.mp hh
      refine Or.inr ⟨⟨pre, post, rfl, fun en hm => hpost en (by simp [hm])⟩, ?_⟩
      rintro en rfl
      exact hpost en (by simp)
  · rintro (rfl | ⟨⟨pre, post, rfl, hpost⟩, hh⟩)
    · exact ⟨ls, [], rfl, by simp⟩
    · refine ⟨pre, post ++ [h], by simp, fun en hm => ?_⟩
      rcases List.mem_append.1 hm with hm | hm
      · exact hpost en hm
      · exact hh en (List.mem_singleton.1 hm).symm

/-! What a run over the streams keeps. -/

/-- The streams hold exactly the kinds that are pending. -/
structure StreamInv (ls : List Happening) (s : System RealSignals) : Prop where
  installed : s.pending.Installed
  holds : ∀ f, (s.pending.stream f).notified = true ↔ Pending (output f) ls

theorem StreamInv.offers (hi : StreamInv ls s) : k ∈ Source.offers s.pending ↔ Pending k ls := by
  rw [mem_offers]
  refine ⟨?_, fun hk => ?_⟩
  · rintro ⟨f, hf, rfl⟩
    exact (hi.holds f).mp hf
  · obtain ⟨f, rfl⟩ := exists_output k
    exact ⟨f, (hi.holds f).mpr hk, rfl⟩

/-- The next signal is ready when some kind is pending. -/
theorem StreamInv.ready (hi : StreamInv ls s) : s.Ready .next ↔ ∃ k, Pending k ls := by
  refine ⟨fun hn => ?_, ?_⟩
  · obtain ⟨k, hk⟩ := List.exists_mem_of_ne_nil _ hn
    exact ⟨k, hi.offers.mp hk⟩
  · rintro ⟨k, hk⟩
    exact List.ne_nil_of_mem (hi.offers.mpr hk)

/-- A step of the supervisor leaves the streams alone but for the kind that it takes. -/
theorem after_stream (hr : s.Resumes cfg cmd en) (f : Recv) :
    (s.after en).pending.stream f = { s.pending.stream f with
      notified := (s.pending.stream f).notified &&
        decide (en.event ≠ .signalled (output f)) } := by
  have hy := hr.yields
  rw [System.after]
  cases hev : en.event with
  | signalled sig =>
    rw [hev] at hy
    obtain ⟨g, hg, rfl⟩ := mem_offers.mp hy
    simp only [take_output hg, stream_recv, ne_eq, Event.signalled.injEq, output_inj]
  | evaluated | elapsed | spawned | exited | signalSent | terminated => simp

theorem streamInv_step (hi : StreamInv ls s) (hh : Happens cfg cmd s h s') :
    StreamInv (ls ++ [h]) s' := by
  cases hh with
  | elapse | exit =>
    refine ⟨hi.installed, fun f => ?_⟩
    rw [pending_snoc, hi.holds]
    simp
  | arrive sig =>
    refine ⟨fun f => ?_, fun f => ?_⟩
    · show ((s.pending.arrive sig).stream f).kind = output f
      rw [stream_arrive, TokioSignal.notify]
      split_ifs <;> exact hi.installed f
    · show ((s.pending.arrive sig).stream f).notified = true ↔ _
      rw [stream_arrive, TokioSignal.notify, hi.installed f, pending_snoc, ← hi.holds]
      by_cases hs : output f = sig
      · simp [hs]
      · simp [hs, Ne.symm hs]
  | resume en hr =>
    refine ⟨fun f => ?_, fun f => ?_⟩
    · rw [after_stream hr]
      exact hi.installed f
    · rw [after_stream hr, pending_snoc, ← hi.holds]
      simp

theorem run_streamInv (hr : (realSystem cfg cmd).Run ls s) : StreamInv ls s := by
  induction hr with
  | nil hi =>
    obtain ⟨register, hnew⟩ := hi.pending
    obtain ⟨hin, hnone⟩ := new_installed hnew
    refine ⟨hin, fun f => ?_⟩
    rw [hnone f]
    exact iff_of_false Bool.false_ne_true not_pending_nil
  | snoc _ hst ih => exact streamInv_step ih (happens_of_step hst)

/-- Nothing is taken but what is pending. -/
theorem taken_pending (hr : (realSystem cfg cmd).Run ls s) (hres : s.Resumes cfg cmd en)
    (he : en.event = .signalled k) : Pending k ls := by
  have hy := hres.yields
  rw [he] at hy
  exact (run_streamInv hr).offers.mp hy

theorem run_taken_pending (hr : (realSystem cfg cmd).Run ls s) :
    ∀ pre en post k, ls = pre ++ .resume en :: post → en.event = .signalled k → Pending k pre := by
  rintro pre en post k rfl he
  obtain ⟨a, b, ha, hst, -⟩ := hr.split
  cases happens_of_step hst with
  | resume _ hres => exact taken_pending ha hres he

/-! The refinement. -/

/-- In the queue a signal arrives when it is taken. -/
def late : Happening → List Happening
  | .arrive _ => []
  | .resume en => en.event.sig?.toList.map .arrive ++ [.resume en]
  | h => [h]

def System.queued (s : System RealSignals) (pending : Queue) : System Queue :=
  ⟨s.sup, s.now, s.child, pending⟩

theorem entries_append (ls ls' : List Happening) :
    entries (ls ++ ls') = entries ls ++ entries ls' := List.filterMap_append

theorem entries_late (ls : List Happening) : entries (ls.flatMap late) = entries ls := by
  induction ls with
  | nil => rfl
  | cons h ls ih =>
    rw [List.flatMap_cons, entries_append, ih, show h :: ls = [h] ++ ls from rfl, entries_append]
    cases h with
    | resume en =>
      rw [late]
      cases en.event.sig? <;> rfl
    | elapse | arrive | exit => rfl

theorem arrivals_late (ls : List Happening) :
    arrivals (ls.flatMap late) = dequeued (entries ls) := by
  induction ls with
  | nil => rfl
  | cons h ls ih =>
    cases h with
    | resume en =>
      have he : dequeued (entries (.resume en :: ls)) =
          en.event.sig?.toList ++ dequeued (entries ls) := by
        cases hs : en.event.sig? <;> simp [entries, dequeued, Happening.entry?, hs]
      rw [List.flatMap_cons, arrivals, List.filterMap_append, ← arrivals, ← arrivals, ih, he]
      cases hs : en.event.sig? <;> simp [late, arrivals, Happening.arrival?, hs]
    | elapse | arrive | exit => exact ih

/-- A step of the supervisor over the streams is one over a queue that is no fuller. -/
theorem System.Resumes.queued (hr : s.Resumes cfg cmd en) {q : Queue}
    (hq : q ≠ [] → s.Ready .next) (hs : ∀ sig, en.event = .signalled sig → q.head? = some sig) :
    (s.queued q).Resumes cfg cmd en := by
  have hready : ∀ f, (s.queued q).Ready f → s.Ready f := by
    intro f hf
    cases f with
    | next => exact hq (mt Queue.offers_eq_nil.mpr hf)
    | child op => cases op <;> exact hf
    | evaluate | sleep | spawn => exact hf
  refine ⟨hr.time, hr.mono, hr.wins.anti ?_ hready, ?_, hr.resumes⟩
  · have hf := hr.wins.isReady
    cases hev : en.event with
    | signalled sig =>
      have hmem : sig ∈ Source.offers q := Queue.mem_offers.mpr (hs sig hev)
      exact List.ne_nil_of_mem hmem
    | evaluated | elapsed | spawned | exited | signalSent | terminated =>
      rw [hev] at hf
      exact hf
  · cases hev : en.event with
    | signalled sig => exact Queue.mem_offers.mpr (hs sig hev)
    | exited status =>
      have hy := hr.yields
      rw [hev] at hy
      exact hy
    | evaluated | elapsed | spawned | signalSent | terminated => exact trivial

/-- A step that takes no signal finds the queue empty, and leaves it so. -/
theorem queued_quiet (hres : s.Resumes cfg cmd en) (hsig : en.event.sig? = none) :
    System.step cfg cmd (s.queued []) (.resume en) = some ((s.after en).queued []) := by
  have hn : ∀ sig, en.event ≠ .signalled sig := by
    intro sig hs
    rw [hs] at hsig
    cases hsig
  have hq : (s.queued []).Resumes cfg cmd en :=
    hres.queued (fun h => absurd rfl h) fun sig hs => absurd hs (hn sig)
  rw [System.step, if_pos hq]
  cases hev : en.event with
  | signalled sig => exact absurd hev (hn sig)
  | evaluated | elapsed | exited | spawned | signalSent | terminated =>
    simp [System.after, System.queued, hev]

/-- A step that takes a signal finds it alone in the queue. -/
theorem queued_taken (hres : s.Resumes cfg cmd en) (hev : en.event = .signalled sig) :
    System.step cfg cmd (s.queued [sig]) (.resume en) = some ((s.after en).queued []) := by
  have hnext : s.Ready .next := by
    have hf := hres.wins.isReady
    rw [hev] at hf
    exact hf
  have hq : (s.queued [sig]).Resumes cfg cmd en := by
    refine hres.queued (fun _ => hnext) fun sig' hs => ?_
    rw [Event.signalled.inj (hev.symm.trans hs)]
    rfl
  rw [System.step, if_pos hq]
  simp [System.after, System.queued, hev]

theorem queued_step (hh : Happens cfg cmd s h s') {ks : List Happening}
    (hr : (system cfg cmd).Run ks (s.queued [])) :
    (system cfg cmd).Run (ks ++ late h) (s'.queued []) := by
  cases hh with
  | elapse d => exact hr.snoc rfl
  | arrive sig =>
    rw [late, List.append_nil]
    exact hr
  | exit st hc => exact hr.snoc (if_pos hc)
  | resume en hres =>
    rw [late]
    cases hsig : en.event.sig? with
    | none => exact hr.snoc (queued_quiet hres hsig)
    | some sig =>
      have hev : en.event = .signalled sig := by
        cases hev : en.event <;> rw [hev] at hsig <;> cases hsig
        rfl
      have harr : (system cfg cmd).Run (ks ++ [.arrive sig]) (s.queued [sig]) := hr.snoc rfl
      show (system cfg cmd).Run (ks ++ [.arrive sig, .resume en]) _
      rw [List.append_cons]
      exact harr.snoc (queued_taken hres hev)

theorem run_queued (hr : (realSystem cfg cmd).Run ls s) :
    (system cfg cmd).Run (ls.flatMap late) (s.queued []) := by
  refine Lts.Run.simulate (g := fun s => System.queued s []) ?_ ?_ hr
  · rintro s ⟨hp, hn, hc, -⟩
    exact ⟨hp, hn, hc, rfl⟩
  · intro s h s' hst ks hks
    exact queued_step (happens_of_step hst) hks

/-- The protocol of the supervisor over the streams. -/
structure RealProtocol (cfg : SupervisorConfig) (cmd : CommandSpec) (ls : List Happening)
    (s : System RealSignals) : Prop where
  taken : ∀ pre en post k, ls = pre ++ .resume en :: post → en.event = .signalled k →
    Pending k pre
  refines : (system cfg cmd).Run (ls.flatMap late) (s.queued [])
  shows : entries (ls.flatMap late) = entries ls
  arrives : arrivals (ls.flatMap late) = dequeued (entries ls)
  effects : Effects cfg cmd (entries ls)
  completed : ∀ c, s.sup.phase = .returned (.ok c) → Spawned (entries ls) →
    OpSequence cfg.grace (dequeued (entries ls)) (completed (entries ls))
  returns : ∀ r, s.sup.phase = .returned r → ReturnSpec cfg cmd (entries ls) r

/-- In every run over the streams each signal taken came and was not taken before, and the run is
one over the queue, with the same steps of the supervisor. -/
theorem real_refines (hr : (realSystem cfg cmd).Run ls s) : RealProtocol cfg cmd ls s := by
  have hq := run_queued hr
  have hsup := run_entries hr
  refine ⟨run_taken_pending hr, hq, entries_late ls, arrivals_late ls,
    (run_effects hsup).effects, ?_, ?_⟩
  · exact fun c hc => opSequence_of_ending (run_ending hsup hc)
  · exact fun r hp => returnSpec_of_ending (run_ending hsup hp)

/-- Two interrupts come, and then a hangup that is taken first; the interrupts are taken as one. -/
def coalesced : List Happening :=
  [.resume ⟨0, .evaluated .pass, .spawning⟩,
    .resume ⟨0, .spawned ⟨"echo", ["hello"]⟩ (.ok ()), .watching none⟩,
    .arrive .interrupt, .arrive .interrupt, .arrive .hup,
    .resume ⟨0, .signalled .hup, .forwarding .hup⟩,
    .resume ⟨0, .signalSent .hup (.ok ()), .escalating .racing⟩,
    .resume ⟨0, .signalled .interrupt, .escalating .terminating⟩]

def noneNotified : RealSignals :=
  ⟨⟨.interrupt, false⟩, ⟨.terminate, false⟩, ⟨.quit, false⟩, ⟨.hup, false⟩⟩

def coalescedEnd : System RealSignals := ⟨⟨.escalating .terminating, 0⟩, 0, .running, noneNotified⟩

theorem coalesced_run : (realSystem ⟨false, true, 1, 1, 0⟩ ⟨"echo", ["hello"]⟩).Run coalesced
    coalescedEnd :=
  Lts.Run.foldlM (m := realSystem ⟨false, true, 1, 1, 0⟩ ⟨"echo", ["hello"]⟩) (fun _ _ _ h => h)
    (.nil (s := ⟨⟨.preflight, 0⟩, 0, .absent, noneNotified⟩)
      ⟨rfl, rfl, rfl, fun _ => .ok (), rfl⟩) (by decide)

theorem real_refines_coalesced : RealProtocol ⟨false, true, 1, 1, 0⟩ ⟨"echo", ["hello"]⟩ coalesced
    coalescedEnd := real_refines coalesced_run

/-! What is taken, and when. -/

/-- What the streams deliver. A stream holds its kind while that is pending, and whatever else is
pending beside it, `next` may return it. -/
structure RealDelivery (ls : List Happening) (s : System RealSignals) : Prop where
  holds : ∀ f, (s.pending.stream f).notified = true ↔ Pending (output f) ls
  offers : ∀ k, k ∈ Source.offers s.pending ↔ Pending k ls
  ready : s.Ready .next ↔ ∃ k, Pending k ls
  kept : ∀ pre post f, ls = pre ++ .arrive (output f) :: post →
    (∀ en, .resume en ∈ post → en.event ≠ .signalled (output f)) →
    (s.pending.stream f).notified = true
  taken : ∀ pre en post k, ls = pre ++ .resume en :: post → en.event = .signalled k →
    Pending k pre
  prompt : ∀ pre en post d, ls = pre ++ .resume en :: post → en.event = .elapsed d →
    ∀ k, ¬ Pending k pre
  counted : ∀ k, (dequeued (entries ls)).count k ≤ (arrivals ls).count k

/-- Each signal taken uses up an arrival of its kind. -/
theorem run_counted (hr : (realSystem cfg cmd).Run ls s) (k : SignalKind) :
    (dequeued (entries ls)).count k ≤ (arrivals ls).count k ∧
    (Pending k ls → (dequeued (entries ls)).count k < (arrivals ls).count k) := by
  induction hr with
  | nil => exact ⟨le_rfl, fun h => absurd h not_pending_nil⟩
  | @snoc ls s s' h hr hst ih =>
    obtain ⟨hle, hlt⟩ := ih
    rw [arrivals_snoc, List.count_append, pending_snoc]
    cases happens_of_step hst with
    | elapse | exit =>
      rw [entries_snoc_other rfl]
      exact ⟨hle, fun hp => hlt (hp.resolve_left (by simp)).1⟩
    | arrive sig =>
      rw [entries_snoc_other rfl]
      refine ⟨hle.trans (Nat.le_add_right _ _), ?_⟩
      rintro (heq | ⟨hp, -⟩)
      · obtain rfl := Happening.arrive.inj heq
        simpa [Happening.arrival?] using Nat.lt_succ_of_le hle
      · exact (hlt hp).trans_le (Nat.le_add_right _ _)
    | resume en hres =>
      rw [entries_snoc_resume, dequeued_snoc, List.count_append]
      simp only [Happening.arrival?, Option.toList_none, List.count_nil, Nat.add_zero]
      by_cases hk : en.event = .signalled k
      · have := hlt (taken_pending hr hres hk)
        rw [hk, Event.sig?, Option.toList_some, List.count_singleton_self]
        refine ⟨by omega, ?_⟩
        rintro (heq | ⟨-, hne⟩)
        · cases heq
        · exact absurd hk (hne en rfl)
      · have hnone : en.event.sig?.toList.count k = 0 := by
          cases hev : en.event with
          | signalled sig =>
            rw [hev] at hk
            exact List.count_eq_zero.mpr fun hm => hk (congrArg _ (List.mem_singleton.1 hm).symm)
          | evaluated | elapsed | spawned | exited | signalSent | terminated => rfl
        rw [hnone, Nat.add_zero]
        exact ⟨hle, fun hp => hlt (hp.resolve_left (by simp)).1⟩

/-- Only the watcher loop sleeps. -/
theorem watching_of_elapsed {t d : ℕ} {p p' : Phase} {ev : Event} (hm : Move cfg cmd t p ev p')
    (he : ev = .elapsed d) : ∃ fs, p = .watching fs := by
  subst he
  cases hm with
  | watchTick fs => exact ⟨fs, rfl⟩

/-- No kind that came is lost: until it is taken its stream holds it, `next` may return it whatever
else is pending, and no tick of the watcher loop goes before it. Nothing else is taken, and no more
often than it came. -/
theorem real_delivery (hr : (realSystem cfg cmd).Run ls s) : RealDelivery ls s := by
  have hi := run_streamInv hr
  refine ⟨hi.holds, fun k => hi.offers, hi.ready, ?_, run_taken_pending hr, ?_,
    fun k => (run_counted hr k).1⟩
  · rintro pre post f rfl hpost
    exact (hi.holds f).mpr ⟨pre, post, rfl, hpost⟩
  · rintro pre en post d rfl he k hk
    obtain ⟨a, b, ha, hst, -⟩ := hr.split
    cases happens_of_step hst with
    | resume _ hres =>
      obtain ⟨fs, hp⟩ := watching_of_elapsed hres.move he
      obtain ⟨-, hnone, -⟩ := tick_wins hres hp he
      have hm := (run_streamInv ha).offers.mpr hk
      rw [hnone] at hm
      cases hm

theorem real_delivery_coalesced : RealDelivery coalesced coalescedEnd := real_delivery coalesced_run

end Condrun
