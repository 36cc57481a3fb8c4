import Condrun.Proofs.Snapshot
import Condrun.Spec.NwMonitor

/-! The life of a `MacOsNetworkState`: what its reads see, what its constructor waits for, and what
it calls the frameworks for. -/

namespace Condrun

variable {s s' : NwMonitor} {l : NwStep} {ls : List NwStep} {o : Owner}

/-- What one step does, said once. -/
inductive NwMove (s : NwMonitor) : NwStep → NwMonitor → Prop
  | queueNull (h : s.owner = .creatingQueue) : NwMove s (.dispatchQueueCreate true)
      (s.call .dispatchQueueCreate (.failed ⟨"dispatch_queue_create returned NULL"⟩))
  | queue (h : s.owner = .creatingQueue) : NwMove s (.dispatchQueueCreate false)
      (s.call .dispatchQueueCreate .creatingMonitor)
  | monitorNull (h : s.owner = .creatingMonitor) : NwMove s (.nwPathMonitorCreate true)
      ((s.call .nwPathMonitorCreate .creatingMonitor).call .dispatchRelease
        (.failed ⟨"nw_path_monitor_create returned NULL"⟩))
  | monitor (h : s.owner = .creatingMonitor) : NwMove s (.nwPathMonitorCreate false)
      (s.call .nwPathMonitorCreate .settingHandler)
  | setHandler (h : s.owner = .settingHandler) : NwMove s .setUpdateHandler
      (s.call .nwPathMonitorSetUpdateHandler .settingQueue)
  | setQueue (h : s.owner = .settingQueue) : NwMove s .setQueue
      (s.call .nwPathMonitorSetQueue .starting)
  | start (h : s.owner = .starting) : NwMove s .start (s.call .nwPathMonitorStart .locking)
  | lock (h : s.owner = .locking) : NwMove s .lock { s with owner := .checking s.now }
  | check (since : ℕ) (h : s.owner = .checking since) :
      NwMove s .check { s with owner := s.check since }
  | wake (since : ℕ) (n : Bool) (h : s.owner = .parked since n) :
      NwMove s .wake { s with owner := .checking since }
  | read (w : Bool) (m : Metered) (h : s.owner = .live w) :
      NwMove s (.read m (m.flag s.shared.snapshot)) s
  | cancel (w : Bool) (h : s.owner = .live w) : NwMove s .cancel
      (s.call .nwPathMonitorCancel .cancelled)
  | nwRelease (h : s.owner = .cancelled) : NwMove s .nwRelease (s.call .nwRelease .released)
  | dispatchRelease (h : s.owner = .released) : NwMove s .dispatchRelease
      (s.call .dispatchRelease .dropped)
  | elapse (d : ℕ) : NwMove s (.elapse d) { s with now := s.now + d }
  | update (path : Option NwPathSnapshot) (h : s.monitoring = true) :
      NwMove s (.update path) { s with blocks := s.blocks ++ [path] }
  | handle (path : Option NwPathSnapshot) (blocks : List (Option NwPathSnapshot))
      (hl : s.locked = false) (hb : s.blocks = path :: blocks) :
      NwMove s (.handle path) ({ s with blocks := blocks }.handler path)

theorem nwMove_of_step (hst : nwMonitor.step s l s') : NwMove s l s' := by
  have hst : s.step l = some s' := hst
  cases l with
  | dispatchQueueCreate null =>
    simp only [NwMonitor.step, Option.ite_none_right_eq_some, Option.some.injEq] at hst
    obtain ⟨ho, rfl⟩ := hst
    cases null
    · exact .queue ho
    · exact .queueNull ho
  | nwPathMonitorCreate null =>
    simp only [NwMonitor.step, Option.ite_none_right_eq_some] at hst
    obtain ⟨ho, hst⟩ := hst
    cases null <;> obtain rfl := Option.some.inj hst
    · exact .monitor ho
    · exact .monitorNull ho
  | setUpdateHandler =>
    obtain ⟨ho, he⟩ := Option.ite_none_right_eq_some.mp hst
    obtain rfl := Option.some.inj he
    exact .setHandler ho
  | setQueue =>
    obtain ⟨ho, he⟩ := Option.ite_none_right_eq_some.mp hst
    obtain rfl := Option.some.inj he
    exact .setQueue ho
  | start =>
    obtain ⟨ho, he⟩ := Option.ite_none_right_eq_some.mp hst
    obtain rfl := Option.some.inj he
    exact .start ho
  | lock =>
    obtain ⟨ho, he⟩ := Option.ite_none_right_eq_some.mp hst
    obtain rfl := Option.some.inj he
    exact .lock ho
  | nwRelease =>
    obtain ⟨ho, he⟩ := Option.ite_none_right_eq_some.mp hst
    obtain rfl := Option.some.inj he
    exact .nwRelease ho
  | dispatchRelease =>
    obtain ⟨ho, he⟩ := Option.ite_none_right_eq_some.mp hst
    obtain rfl := Option.some.inj he
    exact .dispatchRelease ho
  | check =>
    simp only [NwMonitor.step] at hst
    split at hst
    · obtain rfl := Option.some.inj hst
      exact .check _ ‹_›
    · cases hst
  | wake =>
    simp only [NwMonitor.step] at hst
    split at hst
    · obtain rfl := Option.some.inj hst
      exact .wake _ _ ‹_›
    · cases hst
  | read m value =>
    simp only [NwMonitor.step] at hst
    split at hst
    · split_ifs at hst with hv
      obtain rfl := Option.some.inj hst
      rw [hv]
      exact .read _ m ‹_›
    · cases hst
  | cancel =>
    simp only [NwMonitor.step] at hst
    split at hst
    · obtain rfl := Option.some.inj hst
      exact .cancel _ ‹_›
    · cases hst
  | elapse d =>
    obtain rfl := Option.some.inj hst
    exact .elapse d
  | update path =>
    simp only [NwMonitor.step, Option.ite_none_right_eq_some, Option.some.injEq] at hst
    obtain ⟨hm, rfl⟩ := hst
    exact .update path hm
  | handle path =>
    simp only [NwMonitor.step, Option.ite_none_right_eq_some, Option.some.injEq] at hst
    obtain ⟨⟨hl, hb⟩, rfl⟩ := hst
    obtain ⟨blocks, hb⟩ := List.head?_eq_some_iff.mp hb
    rw [hb]
    exact .handle path blocks hl hb

/-! What every run keeps. -/

/-- The shared state once these updates were written. -/
def sharedAfter (xs : List NwPathSnapshot) : SharedState :=
  ⟨xs.getLastD ⟨false, false⟩, !xs.isEmpty⟩

def newCalls : List Ffi :=
  [.dispatchQueueCreate, .nwPathMonitorCreate, .nwPathMonitorSetUpdateHandler,
    .nwPathMonitorSetQueue, .nwPathMonitorStart]

def dropCalls : List Ffi := [.nwPathMonitorCancel, .nwRelease, .dispatchRelease]

/-- The calls made by the time the owner is at a point. -/
def CallsAt (calls : List Ffi) : Owner → Prop
  | .creatingQueue => calls = []
  | .creatingMonitor => calls = newCalls.take 1
  | .settingHandler => calls = newCalls.take 2
  | .settingQueue => calls = newCalls.take 3
  | .starting => calls = newCalls.take 4
  | .locking | .checking _ | .parked _ _ | .live _ => calls = newCalls
  | .failed err =>
    (err = ⟨"dispatch_queue_create returned NULL"⟩ ∧ calls = [.dispatchQueueCreate]) ∨
    (err = ⟨"nw_path_monitor_create returned NULL"⟩ ∧
      calls = [.dispatchQueueCreate, .nwPathMonitorCreate, .dispatchRelease])
  | .cancelled => calls = newCalls ++ dropCalls.take 1
  | .released => calls = newCalls ++ dropCalls.take 2
  | .dropped => calls = newCalls ++ dropCalls

/-- An owner that waits is woken once there is an update, and one that is past the wait has seen one
or has waited for too long. -/
def Waited (t₀ : ℕ) (s : NwMonitor) : Prop :=
  match s.owner with
  | .checking since => t₀ ≤ since
  | .parked since notified => t₀ ≤ since ∧ notified = s.shared.ready
  | .live false => s.shared.ready = true
  | .live true => firstUpdateTimeout < s.now - t₀
  | _ => True

structure MonitorInv (t₀ : ℕ) (ls : List NwStep) (s : NwMonitor) : Prop where
  clock : s.now = t₀ + elapsedIn ls
  blocks : enqueued ls = handled ls ++ s.blocks
  shared : s.shared = sharedAfter (landed ls)
  calls : CallsAt s.calls s.owner
  waited : Waited t₀ s

theorem elapsedIn_snoc : elapsedIn (ls ++ [l]) = elapsedIn ls + l.elapsed := by
  simp [elapsedIn]

theorem handled_snoc : handled (ls ++ [l]) = handled ls ++ l.handled?.toList :=
  List.filterMap_snoc _ _ _

theorem enqueued_snoc : enqueued (ls ++ [l]) = enqueued ls ++ l.enqueued?.toList :=
  List.filterMap_snoc _ _ _

theorem landed_snoc_other (h : l.handled? = none) : landed (ls ++ [l]) = landed ls := by
  rw [landed, handled_snoc, h, Option.toList_none, List.append_nil, landed]

theorem landed_snoc_handle (path : Option NwPathSnapshot) :
    landed (ls ++ [.handle path]) = landed ls ++ path.toList := by
  rw [landed, handled_snoc, List.filterMap_append, landed]
  cases path <;> rfl

theorem sharedAfter_snoc (xs : List NwPathSnapshot) (x : NwPathSnapshot) :
    sharedAfter (xs ++ [x]) = ⟨x, true⟩ := by
  simp [sharedAfter]

/-- A step that neither enqueues nor runs a block, and takes no time. -/
theorem MonitorInv.own {t₀ : ℕ} (h : MonitorInv t₀ ls s) (hh : l.handled? = none)
    (he : l.enqueued? = none) (hd : l.elapsed = 0) (hn : s'.now = s.now)
    (hb : s'.blocks = s.blocks) (hs : s'.shared = s.shared) (hc : CallsAt s'.calls s'.owner)
    (hw : Waited t₀ s') : MonitorInv t₀ (ls ++ [l]) s' := by
  refine ⟨?_, ?_, ?_, hc, hw⟩
  · rw [hn, h.clock, elapsedIn_snoc, hd, Nat.add_zero]
  · rw [enqueued_snoc, handled_snoc, hh, he, hb, h.blocks]
    simp
  · rw [hs, h.shared, landed_snoc_other hh]

theorem Waited.check {t₀ since : ℕ} (hle : t₀ ≤ since) :
    Waited t₀ { s with owner := s.check since } := by
  unfold NwMonitor.check
  split_ifs with hr ht
  · exact hr
  · show firstUpdateTimeout < s.now - t₀
    omega
  · exact ⟨hle, (Bool.not_eq_true _ ▸ hr : s.shared.ready = false).symm⟩

/-- The handler wakes a parked owner. -/
theorem Waited.handler {t₀ : ℕ} (h : Waited t₀ s) (path : Option NwPathSnapshot) :
    Waited t₀ (s.handler path) := by
  cases path with
  | none => exact h
  | some path =>
    obtain ⟨o, now, sh, blocks, calls⟩ := s
    cases o with
    | checking since => exact h
    | parked since n => exact ⟨h.1, rfl⟩
    | live w =>
      cases w with
      | false => rfl
      | true => exact h
    | _ => exact trivial

theorem Waited.elapse {t₀ : ℕ} (h : Waited t₀ s) (d : ℕ) :
    Waited t₀ { s with now := s.now + d } := by
  obtain ⟨o, now, sh, blocks, calls⟩ := s
  cases o with
  | live w =>
    cases w with
    | false => exact h
    | true =>
      have h : firstUpdateTimeout < now - t₀ := h
      show firstUpdateTimeout < now + d - t₀
      omega
  | _ => exact h

theorem CallsAt.notifyAll {calls : List Ffi} (h : CallsAt calls o) : CallsAt calls o.notifyAll := by
  cases o <;> exact h

theorem MonitorInv.elapse {t₀ : ℕ} (h : MonitorInv t₀ ls s) (d : ℕ) :
    MonitorInv t₀ (ls ++ [.elapse d]) { s with now := s.now + d } := by
  refine ⟨?_, ?_, ?_, h.calls, h.waited.elapse d⟩
  · simp only [h.clock, elapsedIn_snoc, NwStep.elapsed, Nat.add_assoc]
  · rw [enqueued_snoc, handled_snoc, h.blocks]
    simp [NwStep.enqueued?, NwStep.handled?]
  · rw [landed_snoc_other rfl]
    exact h.shared

theorem MonitorInv.update {t₀ : ℕ} (h : MonitorInv t₀ ls s) (path : Option NwPathSnapshot) :
    MonitorInv t₀ (ls ++ [.update path]) { s with blocks := s.blocks ++ [path] } := by
  refine ⟨?_, ?_, ?_, h.calls, h.waited⟩
  · rw [elapsedIn_snoc]
    exact h.clock
  · rw [enqueued_snoc, handled_snoc, h.blocks]
    simp [NwStep.enqueued?, NwStep.handled?]
  · rw [landed_snoc_other rfl]
    exact h.shared

/-- The block at the head of the queue runs. -/
theorem MonitorInv.handle {t₀ : ℕ} (h : MonitorInv t₀ ls s) {path : Option NwPathSnapshot}
    {blocks : List (Option NwPathSnapshot)} (hb : s.blocks = path :: blocks) :
    MonitorInv t₀ (ls ++ [.handle path]) ({ s with blocks := blocks }.handler path) := by
  have hw : Waited t₀ { s with blocks := blocks } := h.waited
  have hblocks : enqueued (ls ++ [.handle path]) = handled (ls ++ [.handle path]) ++ blocks := by
    rw [enqueued_snoc, handled_snoc, h.blocks, hb]
    simp [NwStep.enqueued?, NwStep.handled?]
  have hclock : s.now = t₀ + elapsedIn (ls ++ [.handle path]) := by
    rw [elapsedIn_snoc]
    exact h.clock
  cases path with
  | none =>
    refine ⟨hclock, hblocks, ?_, h.calls, hw.handler none⟩
    rw [landed_snoc_handle, Option.toList_none, List.append_nil]
    exact h.shared
  | some x =>
    refine ⟨hclock, hblocks, ?_, h.calls.notifyAll, hw.handler (some x)⟩
    rw [landed_snoc_handle, Option.toList_some, sharedAfter_snoc]
    rfl

theorem monitorInv_step {t₀ : ℕ} (h : MonitorInv t₀ ls s) (hm : NwMove s l s') :
    MonitorInv t₀ (ls ++ [l]) s' := by
  have hc := h.calls
  have hw := h.waited
  cases hm with
  | elapse d => exact h.elapse d
  | update path hmon => exact h.update path
  | handle path blocks hl hb => exact h.handle hb
  | queueNull ho =>
    rw [ho] at hc
    refine h.own rfl rfl rfl rfl rfl rfl (Or.inl ⟨rfl, ?_⟩) trivial
    simp [NwMonitor.call, show s.calls = [] from hc]
  | monitorNull ho =>
    rw [ho] at hc
    refine h.own rfl rfl rfl rfl rfl rfl (Or.inr ⟨rfl, ?_⟩) trivial
    simp [NwMonitor.call, show s.calls = newCalls.take 1 from hc, newCalls]
  | queue ho | monitor ho | setHandler ho | setQueue ho | start ho | nwRelease ho
  | dispatchRelease ho =>
    rw [ho] at hc
    refine h.own rfl rfl rfl rfl rfl rfl ?_ trivial
    have hc : s.calls = _ := hc
    show s.calls ++ [_] = _
    rw [hc]
    rfl
  | lock ho =>
    rw [ho] at hc
    refine h.own rfl rfl rfl rfl rfl rfl hc ?_
    show t₀ ≤ s.now
    rw [h.clock]
    exact Nat.le_add_right _ _
  | check since ho =>
    rw [ho] at hc
    rw [Waited, ho] at hw
    refine h.own rfl rfl rfl rfl rfl rfl ?_ (Waited.check hw)
    unfold NwMonitor.check
    split_ifs <;> exact hc
  | wake since n ho =>
    rw [ho] at hc
    rw [Waited, ho] at hw
    exact h.own rfl rfl rfl rfl rfl rfl hc hw.1
  | read w m ho => exact h.own rfl rfl rfl rfl rfl rfl hc hw
  | cancel w ho =>
    rw [ho] at hc
    refine h.own rfl rfl rfl rfl rfl rfl ?_ trivial
    have hc : s.calls = newCalls := hc
    show s.calls ++ [_] = _
    rw [hc]
    rfl

theorem run_monitorInv (hr : nwMonitor.Run ls s) : ∃ t₀, MonitorInv t₀ ls s := by
  induction hr with
  | nil hi =>
    obtain ⟨t₀, rfl⟩ := hi
    exact ⟨t₀, rfl, rfl, rfl, rfl, trivial⟩
  | snoc _ hst ih =>
    obtain ⟨t₀, h⟩ := ih
    exact ⟨t₀, monitorInv_step h (nwMove_of_step hst)⟩

structure Lifecycle (ls : List NwStep) (s : NwMonitor) : Prop where
  reads : ∀ pre m value post, ls = pre ++ .read m value :: post →
    value = m.flag ((landed pre).getLastD ⟨false, false⟩) ∧
    (landed pre = [] → firstUpdateTimeout < elapsedIn pre)
  fifo : enqueued ls = handled ls ++ s.blocks
  calls : CallsAt s.calls s.owner

/-- Every read sees the latest update that has landed, and the default only if none landed in the
first second; no update is lost; and what was created is released, once and in order. -/
theorem nw_lifecycle (hr : nwMonitor.Run ls s) : Lifecycle ls s := by
  obtain ⟨t₀, h⟩ := run_monitorInv hr
  refine ⟨?_, h.blocks, h.calls⟩
  rintro pre m value post rfl
  obtain ⟨a, b, ha, hst, -⟩ := hr.split
  obtain ⟨t₀, hi⟩ := run_monitorInv ha
  cases nwMove_of_step hst with
  | read w m ho =>
    rw [hi.shared]
    refine ⟨rfl, fun hnone => ?_⟩
    have hw := hi.waited
    rw [Waited, ho] at hw
    cases w with
    | false =>
      rw [hi.shared, hnone] at hw
      cases hw
    | true =>
      have hw : firstUpdateTimeout < a.now - t₀ := hw
      rwa [hi.clock, Nat.add_sub_cancel_left] at hw

theorem nwMonitor_run (ls : List NwStep) (h : ls.foldlM NwMonitor.step (.init 0) = some s) :
    nwMonitor.Run ls s :=
  Lts.Run.foldlM (m := nwMonitor) (fun _ _ _ h => h) (.nil ⟨0, rfl⟩) h

/-- The first update lands while the constructor is parked, the second between two reads, and one
more while the state is dropped. -/
def twoUpdates : List NwStep :=
  [.dispatchQueueCreate false, .nwPathMonitorCreate false, .setUpdateHandler, .setQueue, .start,
    .lock, .check, .elapse 5, .update (some ⟨true, false⟩), .handle (some ⟨true, false⟩), .wake,
    .check, .read .expensive true, .update none, .update (some ⟨true, true⟩), .handle none,
    .handle (some ⟨true, true⟩), .read .lowData true, .update (some ⟨false, false⟩), .cancel,
    .nwRelease, .handle (some ⟨false, false⟩), .dispatchRelease]

def twoUpdatesEnd : NwMonitor := ⟨.dropped, 5, ⟨⟨false, false⟩, true⟩, [], newCalls ++ dropCalls⟩

theorem nw_lifecycle_two : Lifecycle twoUpdates twoUpdatesEnd :=
  nw_lifecycle (nwMonitor_run _ (by decide))

/-! What the constructor waits for. -/

/-- The steps of `new`, without a wake-up that has no cause. -/
def Constructs (s : NwMonitor) : NwStep → Prop
  | .dispatchQueueCreate _ | .nwPathMonitorCreate _ | .setUpdateHandler | .setQueue | .start |
    .lock | .check => True
  | .wake => ∃ since n, s.owner = .parked since n ∧ (n = true ∨ firstUpdateTimeout < s.now - since)
  | _ => False

/-- Parked with no update, and not for too long. -/
def AwaitsUpdate (s : NwMonitor) : Prop :=
  ∃ since, s.owner = .parked since false ∧ s.shared.ready = false ∧
    s.now - since ≤ firstUpdateTimeout

/-- `new` has returned. -/
def Constructed (s : NwMonitor) : Prop :=
  match s.owner with
  | .failed _ | .live _ | .cancelled | .released | .dropped => True
  | _ => False

def constructRank (s : NwMonitor) : ℕ :=
  match s.owner with
  | .creatingQueue => 8
  | .creatingMonitor => 7
  | .settingHandler => 6
  | .settingQueue => 5
  | .starting => 4
  | .locking => 3
  | .parked since n => if n = true ∨ firstUpdateTimeout < s.now - since then 2 else 0
  | .checking _ => 1
  | _ => 0

theorem constructRank_step (hm : NwMove s l s') (hc : Constructs s l) :
    constructRank s' ≤ constructRank s - 1 := by
  cases hm with
  | queueNull ho | queue ho | monitorNull ho | monitor ho | setHandler ho | setQueue ho | start ho
  | lock ho =>
    simp only [constructRank, ho]
    exact Nat.le_of_ble_eq_true rfl
  | check since ho =>
    simp only [constructRank, ho, NwMonitor.check]
    by_cases hr : s.shared.ready = true
    · simp [hr]
    · by_cases ht : firstUpdateTimeout < s.now - since
      · simp [hr, ht]
      · simp [hr, ht]
  | wake since n ho =>
    obtain ⟨since', n', ho', hcause⟩ := hc
    obtain ⟨rfl, rfl⟩ := Owner.parked.inj (ho.symm.trans ho')
    simp only [constructRank, ho, if_pos hcause]
    exact Nat.le_refl _
  | read | cancel | nwRelease | dispatchRelease | elapse | update | handle => exact hc.elim

theorem MonitorInv.rests {t₀ : ℕ} (h : MonitorInv t₀ ls s) (hz : constructRank s = 0) :
    Constructed s ∨ AwaitsUpdate s := by
  have hw := h.waited
  unfold constructRank at hz
  unfold Waited at hw
  unfold Constructed AwaitsUpdate
  cases ho : s.owner with
  | parked since n =>
    simp only [ho] at hz hw
    split_ifs at hz with hcause
    rw [not_or, Bool.not_eq_true, Nat.not_lt] at hcause
    obtain ⟨rfl, hle⟩ := hcause
    exact Or.inr ⟨since, rfl, hw.2.symm, hle⟩
  | failed | live | cancelled | released | dropped => exact Or.inl trivial
  | _ => simp [ho] at hz

theorem constructs_goesOn (hs : ¬ Constructed s) (hz : constructRank s ≠ 0) :
    ∃ l s', nwMonitor.step s l s' ∧ Constructs s l := by
  unfold Constructed at hs
  unfold constructRank at hz
  cases ho : s.owner with
  | creatingQueue => exact ⟨.dispatchQueueCreate false, _, if_pos ho, trivial⟩
  | creatingMonitor => exact ⟨.nwPathMonitorCreate false, _, if_pos ho, trivial⟩
  | settingHandler => exact ⟨.setUpdateHandler, _, if_pos ho, trivial⟩
  | settingQueue => exact ⟨.setQueue, _, if_pos ho, trivial⟩
  | starting => exact ⟨.start, _, if_pos ho, trivial⟩
  | locking => exact ⟨.lock, _, if_pos ho, trivial⟩
  | checking since =>
    refine ⟨.check, { s with owner := s.check since }, ?_, trivial⟩
    simp only [nwMonitor, NwMonitor.step, ho]
  | parked since n =>
    simp only [ho] at hz
    split_ifs at hz with hcause
    · refine ⟨.wake, { s with owner := .checking since }, ?_, since, n, ho, hcause⟩
      simp only [nwMonitor, NwMonitor.step, ho]
    · exact absurd rfl hz
  | failed | live | cancelled | released | dropped =>
    rw [ho] at hs
    exact absurd trivial hs

/-- Nothing but a missing first update holds up the constructor, and that for no longer than the
timeout: from every reachable state its own steps lead to its return or to that wait. -/
theorem construct_waits_only (hr : nwMonitor.Run ls s) :
    ((nwMonitor.restrict Constructs).startAt s).Leads fun s' =>
      Constructed s' ∨ AwaitsUpdate s' := by
  apply Lts.leads_of_rank (fun x => ∃ t₀ ls, MonitorInv t₀ ls x) constructRank (constructRank s)
  · rintro _ rfl
    obtain ⟨t₀, h⟩ := run_monitorInv hr
    exact ⟨⟨t₀, ls, h⟩, Nat.le_refl _⟩
  · rintro x l y ⟨t₀, ks, h⟩ ⟨hst, hc⟩
    have hm := nwMove_of_step hst
    exact ⟨⟨t₀, _, monitorInv_step h hm⟩, constructRank_step hm hc⟩
  · rintro x ⟨t₀, ks, h⟩ hz
    exact h.rests hz
  · rintro x ⟨t₀, ks, h⟩
    by_cases hx : Constructed x
    · exact Or.inl (Or.inl hx)
    · by_cases hz : constructRank x = 0
      · exact Or.inl (h.rests hz)
      · obtain ⟨l, y, hst, hc⟩ := constructs_goesOn hx hz
        exact Or.inr ⟨l, y, hst, hc⟩

/-- A constructor that is parked when its first update has landed. -/
theorem construct_waits_only_woken :
    ((nwMonitor.restrict Constructs).startAt
      ⟨.parked 0 true, 5, ⟨⟨true, false⟩, true⟩, [], newCalls⟩).Leads fun s' =>
        Constructed s' ∨ AwaitsUpdate s' :=
  construct_waits_only (nwMonitor_run (twoUpdates.take 10) (by decide))

/-! The reads of a monitor are those of a live state, with the updates that land between them. -/

/-- The reads, one after the other. -/
def readAll (ms : List Metered) : StateM Live (List Bool) := ms.mapM fun m => readFlag m.flag

theorem readAll_cons (m : Metered) (ms : List Metered) (l : Live) :
    (readAll (m :: ms)).run l =
      (m.flag l.land.snapshot :: ((readAll ms).run l.land).1, ((readAll ms).run l.land).2) := by
  simp only [readAll, List.mapM_cons]
  rfl

theorem reads_from (hr : (nwMonitor.startAt s).Run ls s') (acc held : List NwPathSnapshot)
    (x : NwPathSnapshot) (hs : s.shared.snapshot = acc.getLastD x) :
    ((readAll ((reads ls).map Prod.fst)).run ⟨x, batches acc ls, held⟩).1 =
      (reads ls).map Prod.snd := by
  induction ls generalizing s acc held x with
  | nil => rfl
  | cons l ls ih =>
    obtain ⟨a, hst, hr⟩ := Lts.run_cons_iff.mp hr
    cases nwMove_of_step hst with
    | read w m ho =>
      have hcons : reads (.read m (m.flag s.shared.snapshot) :: ls) =
          (m, m.flag s.shared.snapshot) :: reads ls := rfl
      rw [hcons, List.map_cons, List.map_cons, readAll_cons, land_eq]
      simp only [batches, List.headD_cons, List.tail_cons, ← hs]
      rw [ih hr [] _ _ rfl]
    | handle path blocks hl hb =>
      cases path with
      | none => exact ih hr acc held x hs
      | some y => exact ih hr (acc ++ [y]) held x (by simp [NwMonitor.handler])
    | queueNull | queue | monitorNull | monitor | setHandler | setQueue | start | lock | check
    | wake | cancel | nwRelease | dispatchRelease | elapse | update => exact ih hr acc held x hs

/-- A run's reads find what the live state of the snapshot model finds, if the updates of that are
the ones that landed in between. -/
theorem reads_live (hr : nwMonitor.Run ls s) :
    ((readAll ((reads ls).map Prod.fst)).run (.start ⟨false, false⟩ (batches [] ls))).1 =
      (reads ls).map Prod.snd := by
  obtain ⟨a, ha, hrest⟩ := (show nwMonitor.Run ([] ++ ls) s from hr).cut
  obtain ⟨t₀, rfl⟩ := Lts.run_nil_iff.mp ha
  exact reads_from hrest [] _ _ rfl

theorem reads_live_two : ((readAll ((reads twoUpdates).map Prod.fst)).run
    (.start ⟨false, false⟩ (batches [] twoUpdates))).1 = (reads twoUpdates).map Prod.snd :=
  reads_live (s := twoUpdatesEnd) (nwMonitor_run _ (by decide))

end Condrun
