import Condrun.Proofs.Reap

/-! What the kernel sees of a run: the signals to the group, the waits that complete, and what is
left of the child when the run returns. -/

namespace Condrun

open TokioChildHandle (Await)

variable {cfg : SupervisorConfig} {cmd : CommandSpec} {m m' : Machine} {b : Beat} {ls : List Beat}
  {p p' : Phase} {sigs : List SignalKind} {es : List ℕ} {a : Option Await} {pr : Proc}
  {log : List Sys} {r : Except Error ℤ} {t : ℕ} {ev : Event} {st : ExitStatus}

def Beat.sig? : Beat → Option SignalKind
  | .resume en => en.event.sig?
  | _ => none

/-- The signals that the supervisor took off the stream. -/
def taken (ls : List Beat) : List SignalKind := ls.filterMap Beat.sig?

def Beat.expiry? : Beat → Option ℕ
  | .expire d => some d
  | _ => none

/-- The timers that expired in a call of `terminate`. -/
def expired (ls : List Beat) : List ℕ := ls.filterMap Beat.expiry?

/-- The child was spawned, and nothing has waited for it with success. -/
def Proc.Unreaped : Proc → Prop
  | .running | .zombie _ => True
  | .absent | .reaped _ => False

/-- The signal of the system that a kind names. -/
def SignalKind.named : SignalKind → Sig
  | .interrupt => .int
  | .terminate => .term
  | .quit => .quit
  | .hup => .hup

/-- What a forwarded signal sends. -/
def forwardLog (kind : SignalKind) : List Sys := [.killpg kind.named]

/-- What a call of `terminate(grace)` sends, with the timers that expire in it: a `SIGKILL` when the
grace does, and only then. -/
inductive KillLog (grace : ℕ) : List ℕ → List Sys → Prop
  | graceful : KillLog grace [] [.killpg .term]
  | forced : KillLog grace [grace] [.killpg .term, .killpg .kill]

/-- The ways a run ends, as the kernel sees them: the signals taken, the timers expired, the result,
the process and the log. -/
inductive KernelEnding (cfg : SupervisorConfig) :
    List SignalKind → List ℕ → Except Error ℤ → Proc → List Sys → Prop
  | signalled (sig : SignalKind) : KernelEnding cfg [sig] [] (.ok 0) .absent []
  | skipped : KernelEnding cfg [] [] (.ok (if cfg.strict then 1 else 0)) .absent []
  | spawnFailed (err : Error) : KernelEnding cfg [] [] (.error err) .absent []
  | exited (st : ExitStatus) :
      KernelEnding cfg [] [] (.ok (exitCode st)) (.reaped st) [.waited]
  | forwarded (sig : SignalKind) (st : ExitStatus) : KernelEnding cfg [sig] [] (.ok (exitCode st))
      (.reaped st) (forwardLog sig ++ [.waited])
  | escalated (sig sig2 : SignalKind) (st : ExitStatus) {es : List ℕ} {ks : List Sys}
      (hk : KillLog cfg.grace es ks) : KernelEnding cfg [sig, sig2] es (.ok 3) (.reaped st)
        (forwardLog sig ++ ks ++ [.waited, .waited])
  | killed (hw : cfg.killOnChange = true) (st : ExitStatus) {es : List ℕ} {ks : List Sys}
      (hk : KillLog cfg.grace es ks) : KernelEnding cfg [] es (.ok 3) (.reaped st)
        (ks ++ [.waited, .waited])

/-- The same in each phase of a run. -/
inductive Served (cfg : SupervisorConfig) :
    Phase → List SignalKind → List ℕ → Option Await → Proc → List Sys → Prop
  | preflight : Served cfg .preflight [] [] none .absent []
  | spawning : Served cfg .spawning [] [] none .absent []
  | watching (hw : cfg.killOnChange = true) (fs : Option ℕ) {pr : Proc} (hp : pr.Unreaped) :
      Served cfg (.watching fs) [] [] (some .waiting) pr []
  | evaluating (hw : cfg.killOnChange = true) (fs : Option ℕ) {pr : Proc} (hp : pr.Unreaped) :
      Served cfg (.evaluating fs) [] [] none pr []
  | killing (hw : cfg.killOnChange = true) {pr : Proc} (hp : pr.Unreaped) :
      Served cfg .killing [] [] (some (.racing cfg.grace)) pr [.killpg .term]
  | reaping (hw : cfg.killOnChange = true) {pr : Proc} (hp : pr.Unreaped) :
      Served cfg .killing [] [cfg.grace] (some .reaping) pr [.killpg .term, .killpg .kill]
  | draining (hw : cfg.killOnChange = true) (st : ExitStatus) {es : List ℕ} {ks : List Sys}
      (hk : KillLog cfg.grace es ks) :
      Served cfg .draining [] es (some .waiting) (.reaped st) (ks ++ [.waited])
  | plain {pr : Proc} (hp : pr.Unreaped) : Served cfg .plain [] [] (some .waiting) pr []
  | forwarding (sig : SignalKind) {pr : Proc} (hp : pr.Unreaped) :
      Served cfg (.forwarding sig) [sig] [] none pr (forwardLog sig)
  | racing (sig : SignalKind) {pr : Proc} (hp : pr.Unreaped) :
      Served cfg (.escalating .racing) [sig] [] (some .waiting) pr (forwardLog sig)
  | terminating (sig sig2 : SignalKind) {pr : Proc} (hp : pr.Unreaped) :
      Served cfg (.escalating .terminating) [sig, sig2] [] (some (.racing cfg.grace)) pr
        (forwardLog sig ++ [.killpg .term])
  | escReaping (sig sig2 : SignalKind) {pr : Proc} (hp : pr.Unreaped) :
      Served cfg (.escalating .terminating) [sig, sig2] [cfg.grace] (some .reaping) pr
        (forwardLog sig ++ [.killpg .term, .killpg .kill])
  | escDraining (sig sig2 : SignalKind) (st : ExitStatus) {es : List ℕ} {ks : List Sys}
      (hk : KillLog cfg.grace es ks) :
      Served cfg (.escalating .draining) [sig, sig2] es (some .waiting) (.reaped st)
        (forwardLog sig ++ ks ++ [.waited])
  | returned {r : Except Error ℤ} {sigs : List SignalKind} {es : List ℕ} {pr : Proc}
      {log : List Sys} (he : KernelEnding cfg sigs es r pr log) :
      Served cfg (.returned r) sigs es none pr log

/-- A child that exits changes from one unreaped state to the other. -/
theorem Served.exit (h : Served cfg p sigs es a .running log) (st : ExitStatus) :
    Served cfg p sigs es a (.zombie st) log := by
  cases h with
  | watching hw fs => exact .watching hw fs trivial
  | evaluating hw fs => exact .evaluating hw fs trivial
  | killing hw => exact .killing hw trivial
  | reaping hw => exact .reaping hw trivial
  | plain => exact .plain trivial
  | forwarding sig => exact .forwarding sig trivial
  | racing sig => exact .racing sig trivial
  | terminating sig sig2 => exact .terminating sig sig2 trivial
  | escReaping sig sig2 => exact .escReaping sig sig2 trivial
  | returned he => cases he

/-- A grace expires only where `terminate` waits for the child, and leaves it waiting. -/
theorem Served.expire {aw : Await} {d : ℕ} (h : Served cfg p sigs es (some aw) pr log)
    (hf : .sleep d ∈ aw.awaits.branches) :
    Served cfg p sigs (es ++ [d]) (TokioChildHandle.resume aw (.sleep d)).await pr
      (log ++ (TokioChildHandle.resume aw (.sleep d)).killpg.map .killpg) := by
  cases h with
  | killing hw hp =>
    obtain rfl : d = cfg.grace := by simpa [Await.awaits] using hf
    exact .reaping hw hp
  | terminating sig sig2 hp =>
    obtain rfl : d = cfg.grace := by simpa [Await.awaits] using hf
    rw [List.append_assoc]
    exact .escReaping sig sig2 hp
  | watching | reaping | draining | plain | racing | escReaping | escDraining =>
    simp [Await.awaits] at hf

/-- A step on a future that is not the handle's. -/
theorem Served.other (h : Served cfg p sigs es m.await m.proc m.log)
    (hm : Move cfg cmd t p ev p') (ho : ev.op? = none) :
    Served cfg p' (sigs ++ ev.sig?.toList) es ((m.spawned ev).enter cfg cmd ⟨p', t⟩).await
      ((m.spawned ev).enter cfg cmd ⟨p', t⟩).proc ((m.spawned ev).enter cfg cmd ⟨p', t⟩).log := by
  obtain ⟨s, a, pr, log⟩ := m
  simp only at h
  cases hm with
  | gatePass => cases h; exact .spawning
  | gateFail reason => cases h; exact .returned .skipped
  | gateSignal sig => cases h; exact .returned (.signalled sig)
  | spawnFail err => cases h; exact .returned (.spawnFailed err)
  | spawnWatch hk => cases h; exact .watching hk none trivial
  | spawnPlain hk => cases h; exact .plain trivial
  | watchSignal fs sig => cases h with | watching hw _ hp => exact .forwarding sig hp
  | watchTick fs => cases h with | watching hw _ hp => exact .evaluating hw fs hp
  | evalPass fs => cases h with | evaluating hw _ hp => exact .watching hw none hp
  | evalWait fs reason hd => cases h with | evaluating hw _ hp => exact .watching hw _ hp
  | evalKill fs reason hd => cases h with | evaluating hw _ hp => exact .killing hw hp
  | plainSignal sig => cases h with | plain hp => exact .forwarding sig hp
  | escSignal sig2 => cases h with | racing sig hp => exact .terminating sig sig2 hp
  | _ => cases ho

/-- A method whose wait completes returns, and the child is reaped. -/
theorem run_reap (m : Machine) (aw : Await) (st : ExitStatus) :
    (m.reap st).run (TokioChildHandle.resume aw .wait) =
      ⟨m.sup, none, .reaped st, m.log ++ [.waited]⟩ := by
  cases aw <;> simp [Machine.run, Machine.reap, TokioChildHandle.resume]

/-- A step on a wait of the handle that completed. -/
theorem Served.waited {aw : Await} (h : Served cfg p sigs es m.await m.proc m.log)
    (ha : m.await = some aw) (hp : m.proc.status? = some st)
    (he : ev = .exited st ∨ ∃ grace, ev = .terminated grace (.ok ()))
    (hm : Move cfg cmd t p ev p') :
    let m' := ((m.reap st).run (TokioChildHandle.resume aw .wait)).enter cfg cmd ⟨p', t⟩
    Served cfg p' (sigs ++ ev.sig?.toList) es m'.await m'.proc m'.log := by
  rw [run_reap]
  obtain ⟨s, a, pr, log⟩ := m
  simp only at h ha hp ⊢
  subst ha
  cases hm with
  | watchExit fs st' | plainExit st' =>
    obtain rfl := Event.exited.inj (he.resolve_right (by simp))
    cases h
    exact .returned (.exited st')
  | escExit st' =>
    obtain rfl := Event.exited.inj (he.resolve_right (by simp))
    cases h with
    | racing sig => exact .returned (.forwarded sig st')
  | killOk =>
    cases h with
    | killing hw => exact .draining hw st .graceful
    | reaping hw => exact .draining hw st .forced
  | escTerminated res =>
    cases h with
    | terminating sig sig2 => exact .escDraining sig sig2 st .graceful
    | escReaping sig sig2 => exact .escDraining sig sig2 st .forced
  | drained st' =>
    cases h with
    | @draining hw _ es ks hk =>
      obtain rfl := Option.some.inj hp
      show Served cfg (.returned (.ok 3)) [] es none _ (ks ++ [.waited] ++ [.waited])
      rw [List.append_assoc]
      exact .returned (.killed hw _ hk)
  | escDrained st' =>
    cases h with
    | @escDraining sig sig2 _ es ks hk =>
      obtain rfl := Option.some.inj hp
      show Served cfg (.returned (.ok 3)) [sig, sig2] es none _
        (forwardLog sig ++ ks ++ [.waited] ++ [.waited])
      rw [List.append_assoc _ [Sys.waited]]
      exact .returned (.escalated sig sig2 _ hk)
  | _ => rcases he with he | ⟨grace, he⟩ <;> cases he

theorem served_step (h : Served cfg m.sup.phase sigs es m.await m.proc m.log)
    (hst : MachineStep cfg cmd m b m') : Served cfg m'.sup.phase (sigs ++ b.sig?.toList)
      (es ++ b.expiry?.toList) m'.await m'.proc m'.log := by
  cases hst with
  | exit st hp =>
    rw [hp] at h
    simp only [Beat.sig?, Beat.expiry?, Option.toList_none, List.append_nil]
    exact h.exit st
  | @expire aw d ha hf =>
    rw [ha] at h
    simp only [Beat.sig?, Option.toList_none, List.append_nil]
    exact h.expire hf
  | @other en s ho hst =>
    rw [(enter_spec cfg cmd _ s).1, hst.target]
    simp only [Beat.expiry?, Option.toList_none, List.append_nil]
    exact h.other hst.move ho
  | @atOnce en s kind ha he hst =>
    have hm := hst.move
    rw [(enter_spec cfg cmd _ s).1, hst.target]
    obtain ⟨⟨p, now⟩, a, pr, log⟩ := m
    obtain ⟨t, ev, p'⟩ := en
    simp only [Beat.expiry?, Option.toList_none, List.append_nil] at h hm he ⊢
    subst he
    cases hm with
    | forwarded sig =>
      cases h with
      | forwarding _ hp => exact .racing kind hp
  | @waited en s aw st ha hf hp he hst =>
    rw [(enter_spec cfg cmd _ s).1, hst.target]
    simp only [Beat.expiry?, Option.toList_none, List.append_nil]
    exact h.waited ha hp he hst.move

theorem run_served (h : (machine cfg cmd).Run ls m) :
    Served cfg m.sup.phase (taken ls) (expired ls) m.await m.proc m.log := by
  induction h with
  | nil hi =>
    obtain ⟨hp, ha, hproc, hl⟩ := hi
    rw [hp, ha, hproc, hl]
    exact .preflight
  | snoc _ hst ih =>
    rw [taken, List.filterMap_snoc, expired, List.filterMap_snoc]
    exact served_step ih hst

/-! A `SIGKILL` is the mark of an expired grace. -/

theorem kill_notMem_forwardLog (kind : SignalKind) : Sys.killpg .kill ∉ forwardLog kind := by
  cases kind <;> decide

theorem KillLog.kill_iff {grace : ℕ} {ks : List Sys} (h : KillLog grace es ks) :
    .killpg .kill ∈ ks ↔ es = [grace] := by
  cases h <;> simp

theorem KernelEnding.kill_iff (h : KernelEnding cfg sigs es r pr log) :
    .killpg .kill ∈ log ↔ es = [cfg.grace] := by
  cases h with
  | signalled | skipped | spawnFailed | exited => simp
  | forwarded sig => simp [kill_notMem_forwardLog]
  | escalated _ _ _ hk | killed _ _ hk => simp [kill_notMem_forwardLog, hk.kill_iff]

theorem Served.kill_iff (h : Served cfg p sigs es a pr log) :
    .killpg .kill ∈ log ↔ es = [cfg.grace] := by
  cases h with
  | preflight | spawning | watching | evaluating | killing | reaping | plain => simp
  | forwarding | racing | terminating | escReaping => simp [kill_notMem_forwardLog]
  | draining _ _ hk | escDraining _ _ _ hk => simp [kill_notMem_forwardLog, hk.kill_iff]
  | returned he => exact he.kill_iff

theorem KillLog.expired {grace : ℕ} {ks : List Sys} (h : KillLog grace es ks) :
    es = [] ∨ es = [grace] := by
  cases h <;> simp

theorem Served.expired (h : Served cfg p sigs es a pr log) : es = [] ∨ es = [cfg.grace] := by
  cases h with
  | draining _ _ hk | escDraining _ _ _ hk => exact hk.expired
  | returned he =>
    cases he with
    | escalated _ _ _ hk | killed _ _ hk => exact hk.expired
    | _ => exact Or.inl rfl
  | reaping | escReaping => exact Or.inr rfl
  | _ => exact Or.inl rfl

theorem KernelEnding.reaped (h : KernelEnding cfg sigs es r pr log) :
    pr = .absent ∧ log = [] ∨ ∃ st, pr = .reaped st ∧ .waited ∈ log := by
  cases h with
  | signalled | skipped | spawnFailed => exact Or.inl ⟨rfl, rfl⟩
  | exited st | forwarded _ st | escalated _ _ st | killed _ st => exact Or.inr ⟨st, rfl, by simp⟩

/-- At any point of a run the group has been sent a `SIGKILL` if and only if the grace of a
`terminate` has expired. A run that returned has sent what its ending lists, and in that order; it
has waited for any child it spawned, and leaves no zombie. -/
theorem kernel_protocol (h : (machine cfg cmd).Run ls m) :
    (.killpg .kill ∈ m.log ↔ expired ls = [cfg.grace]) ∧
    (expired ls = [] ∨ expired ls = [cfg.grace]) ∧
    ∀ r, m.sup.phase = .returned r → KernelEnding cfg (taken ls) (expired ls) r m.proc m.log ∧
      (m.proc = .absent ∧ m.log = [] ∨ ∃ st, m.proc = .reaped st ∧ .waited ∈ m.log) := by
  have hs := run_served h
  refine ⟨hs.kill_iff, hs.expired, fun r hr => ?_⟩
  rw [hr] at hs
  have he : KernelEnding cfg (taken ls) (expired ls) r m.proc m.log := by
    generalize m.await = a at hs
    cases hs with
    | returned he => exact he
  exact ⟨he, he.reaped⟩

/-- The predicates fail at the first tick, and the child outlives the grace. -/
def outlived : List Beat :=
  [.resume ⟨0, .evaluated .pass, .spawning⟩,
    .resume ⟨0, .spawned ⟨"echo", ["hello"]⟩ (.ok ()), .watching none⟩,
    .resume ⟨1, .elapsed 1, .evaluating none⟩,
    .resume ⟨1, .evaluated (.fail "expensive"), .killing⟩,
    .expire 1, .exit ⟨9⟩,
    .resume ⟨1, .terminated 1 (.ok ()), .draining⟩,
    .resume ⟨1, .exited ⟨9⟩, .returned (.ok 3)⟩]

def outlivedEnd : Machine :=
  ⟨⟨.returned (.ok 3), 1⟩, none, .reaped ⟨9⟩, [.killpg .term, .killpg .kill, .waited, .waited]⟩

theorem outlived_run :
    (machine ⟨false, true, 1, 1, 0⟩ ⟨"echo", ["hello"]⟩).Run outlived outlivedEnd := by
  have h0 : (machine ⟨false, true, 1, 1, 0⟩ ⟨"echo", ["hello"]⟩).Run []
      ⟨⟨.preflight, 0⟩, none, .absent, []⟩ := .nil ⟨rfl, rfl, rfl, rfl⟩
  have h1 := h0.snoc (.other rfl (Move.gatePass.step le_rfl))
  have h2 := h1.snoc (.other rfl ((Move.spawnWatch rfl).step le_rfl))
  have h3 := h2.snoc (.other rfl ((Move.watchTick none).step (Nat.le_add_right 0 1)))
  have h4 := h3.snoc (.other rfl ((Move.evalKill none "expensive" (Nat.zero_le _)).step le_rfl))
  have h5 := h4.snoc (.expire rfl (by decide : OsFut.sleep 1 ∈ (Await.racing 1).awaits.branches))
  have h6 := h5.snoc (.exit ⟨9⟩ rfl)
  have h7 := h6.snoc (.waited rfl (by decide) rfl (Or.inr ⟨1, rfl⟩) (Move.killOk.step le_rfl))
  have h8 := h7.snoc (.waited rfl (by decide) rfl (Or.inl rfl) ((Move.drained ⟨9⟩).step le_rfl))
  exact h8

theorem kernel_protocol_killed :
    (machine ⟨false, true, 1, 1, 0⟩ ⟨"echo", ["hello"]⟩).Run outlived outlivedEnd ∧
    (.killpg .kill ∈ outlivedEnd.log ↔ expired outlived = [1]) ∧
    KernelEnding ⟨false, true, 1, 1, 0⟩ (taken outlived) (expired outlived) (.ok 3)
      outlivedEnd.proc outlivedEnd.log := by
  obtain ⟨hkill, -, hend⟩ := kernel_protocol outlived_run
  exact ⟨outlived_run, hkill, (hend _ rfl).1⟩

end Condrun
