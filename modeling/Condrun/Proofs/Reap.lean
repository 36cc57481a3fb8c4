import Condrun.Proofs.Moves
import Condrun.Spec.Machine

/-! Signals to the process group and the wait that reaps it. -/

namespace Condrun

open TokioChildHandle (Await)

variable {cfg : SupervisorConfig} {cmd : CommandSpec} {m m' : Machine} {s : State}
  {p p' : Phase} {ev : Event} {t : ℕ} {log : List Sys} {b : Beat} {ls : List Beat}

/-- No signal to the group comes after a completed wait. -/
def SignalsFirst (log : List Sys) : Prop :=
  log.Pairwise fun a b => a = .waited → ∀ sig, b ≠ .killpg sig

theorem SignalsFirst.killpg (h : SignalsFirst log) (hn : .waited ∉ log) (sigs : List Sig) :
    SignalsFirst (log ++ sigs.map .killpg) := by
  refine List.pairwise_append.mpr ⟨h, ?_, ?_⟩
  · refine List.pairwise_of_forall_mem_list fun a ha b _ hw => ?_
    obtain ⟨sig, -, rfl⟩ := List.mem_map.1 ha
    cases hw
  · rintro a ha b - rfl
    exact absurd ha hn

theorem SignalsFirst.waited (h : SignalsFirst log) : SignalsFirst (log ++ [.waited]) := by
  refine List.pairwise_append.mpr ⟨h, List.pairwise_singleton _ _, ?_⟩
  intro a _ b hb _ sig
  rw [List.mem_singleton.1 hb]
  simp

theorem waited_notMem_map (sigs : List Sig) : Sys.waited ∉ sigs.map .killpg := by
  simp

/-- The phases from which no method that signals is called any more. -/
def Quiet : Phase → Prop
  | .draining | .escalating .draining | .returned _ => True
  | _ => False

/-- Where the handle's method may be suspended in each phase. -/
def AwaitIn (a : Option Await) : Phase → Prop
  | .watching _ | .plain | .draining | .escalating .racing | .escalating .draining =>
    a = some .waiting
  | .killing | .escalating .terminating => (∃ grace, a = some (.racing grace)) ∨ a = some .reaping
  | .preflight | .spawning | .evaluating _ | .forwarding _ | .returned _ => a = none

structure ReapInv (m : Machine) : Prop where
  await : AwaitIn m.await m.sup.phase
  quiet : .waited ∈ m.log → Quiet m.sup.phase
  order : SignalsFirst m.log

/-- Entering a phase calls its method; in the quiet phases that sends nothing. -/
theorem enter_spec (cfg : SupervisorConfig) (cmd : CommandSpec) (m : Machine) (s : State) :
    (m.enter cfg cmd s).sup = s ∧ AwaitIn (m.enter cfg cmd s).await s.phase ∧
    ∃ sigs, (m.enter cfg cmd s).log = m.log ++ sigs.map .killpg ∧ (Quiet s.phase → sigs = []) := by
  obtain ⟨p, now⟩ := s
  cases p with
  | killing => exact ⟨rfl, Or.inl ⟨cfg.grace, rfl⟩, [.term], rfl, False.elim⟩
  | forwarding kind => exact ⟨rfl, rfl, _, rfl, False.elim⟩
  | escalating e =>
    cases e with
    | terminating => exact ⟨rfl, Or.inl ⟨cfg.grace, rfl⟩, [.term], rfl, False.elim⟩
    | racing | draining => exact ⟨rfl, rfl, [], rfl, fun _ => rfl⟩
  | watching | plain | draining => exact ⟨rfl, rfl, [], rfl, fun _ => rfl⟩
  | preflight | spawning | evaluating | returned =>
    exact ⟨rfl, rfl, [], (List.append_nil _).symm, fun _ => rfl⟩

theorem reapInv_enter (ho : SignalsFirst m.log) (hq : .waited ∈ m.log → Quiet s.phase) :
    ReapInv (m.enter cfg cmd s) := by
  obtain ⟨hs, ha, sigs, hlog, hsigs⟩ := enter_spec cfg cmd m s
  refine ⟨by rw [hs]; exact ha, ?_, ?_⟩
  · intro hw
    rw [hlog, List.mem_append] at hw
    rw [hs]
    exact hq (hw.resolve_right (waited_notMem_map sigs))
  · rw [hlog]
    by_cases hw : .waited ∈ m.log
    · rw [hsigs (hq hw), List.map_nil, List.append_nil]
      exact ho
    · exact ho.killpg hw sigs

/-- Only a wait leads out of a quiet phase. -/
theorem quiet_move (hq : Quiet p) (hm : Move cfg cmd t p ev p') : ∃ st, ev = .exited st := by
  cases hm with
  | drained st | escDrained st => exact ⟨st, rfl⟩
  | _ => exact hq.elim

/-- A wait of the handle that completes leads into a quiet phase. -/
theorem waited_move (hm : Move cfg cmd t p ev p')
    (he : (∃ st, ev = .exited st) ∨ ∃ grace, ev = .terminated grace (.ok ())) : Quiet p' := by
  cases hm with
  | watchExit | plainExit | escExit | drained | escDrained => exact trivial
  | killOk | escTerminated | killFail => exact trivial
  | _ => rcases he with ⟨st, he⟩ | ⟨grace, he⟩ <;> cases he

theorem reapInv_step (h : ReapInv m) (hst : MachineStep cfg cmd m b m') : ReapInv m' := by
  cases hst with
  | exit st hp => exact ⟨h.await, h.quiet, h.order⟩
  | @expire a d ha hf =>
    have hrace : ∃ grace, a = .racing grace := by
      cases a with
      | racing grace => exact ⟨grace, rfl⟩
      | waiting | reaping => simp [Await.awaits] at hf
    obtain ⟨grace, rfl⟩ := hrace
    have haw := h.await
    rw [ha] at haw
    have hn : .waited ∉ m.log := by
      intro hw
      have hq := h.quiet hw
      generalize m.sup.phase = p at haw hq
      cases p with
      | escalating e => cases e <;> simp [AwaitIn, Quiet] at haw hq
      | _ => simp [AwaitIn, Quiet] at haw hq
    refine ⟨?_, ?_, h.order.killpg hn [.kill]⟩
    · show AwaitIn (some .reaping) m.sup.phase
      generalize m.sup.phase = p at haw
      cases p with
      | escalating e => cases e <;> simp [AwaitIn] at haw ⊢
      | _ => simp [AwaitIn] at haw ⊢
    · intro hw
      rcases List.mem_append.1 hw with hw | hw
      · exact absurd hw hn
      · exact absurd hw (waited_notMem_map [.kill])
  | @other en s ho hst =>
    have hlog : (m.spawned en.event).log = m.log := by
      unfold Machine.spawned
      split <;> rfl
    refine reapInv_enter (by rw [hlog]; exact h.order) fun hw => ?_
    rw [hlog] at hw
    obtain ⟨st, he⟩ := quiet_move (h.quiet hw) hst.move
    rw [he] at ho
    cases ho
  | @atOnce en s kind ha he hst =>
    refine reapInv_enter h.order fun hw => ?_
    obtain ⟨st, he'⟩ := quiet_move (h.quiet hw) hst.move
    rw [he] at he'
    cases he'
  | @waited en s a st ha hf hp he hst =>
    have hnone : (TokioChildHandle.resume a .wait).killpg = [] := by cases a <;> rfl
    have hlog : ((m.reap st).run (TokioChildHandle.resume a .wait)).log = m.log ++ [.waited] := by
      simp [Machine.run, Machine.reap, hnone]
    have hq : Quiet s.phase := by
      rw [hst.target]
      exact waited_move hst.move (he.imp_left fun he => ⟨st, he⟩)
    exact reapInv_enter (by rw [hlog]; exact h.order.waited) fun _ => hq

theorem run_reapInv (h : (machine cfg cmd).Run ls m) : ReapInv m := by
  refine Lts.Run.invariant ?_ ?_ h
  · rintro m ⟨hp, ha, -, hl⟩
    refine ⟨?_, ?_, ?_⟩
    · rw [hp, ha]
      rfl
    · rw [hl]
      simp
    · rw [hl]
      exact List.Pairwise.nil
  · intro m b m' hi hst
    exact reapInv_step hi hst

/-- Every signal to the group is sent before a wait on the child has completed. -/
theorem no_signal_after_reap (h : (machine cfg cmd).Run ls m) : SignalsFirst m.log :=
  (run_reapInv h).order

/-- Two signals, and a child that is dead when the grace expires: three signals to the group, and
two waits that return the same status. -/
theorem no_signal_after_reap_escalated :
    SignalsFirst [.killpg .int, .killpg .term, .killpg .kill, .waited, .waited] := by
  have h0 : (machine ⟨false, false, 1, 1, 0⟩ ⟨"echo", ["hello"]⟩).Run []
      ⟨⟨.preflight, 0⟩, none, .absent, []⟩ := .nil ⟨rfl, rfl, rfl, rfl⟩
  have h1 := h0.snoc (.other rfl (Move.gatePass.step le_rfl))
  have h2 := h1.snoc (.other rfl ((Move.spawnPlain rfl).step le_rfl))
  have h3 := h2.snoc (.other rfl ((Move.plainSignal .interrupt).step le_rfl))
  have h4 := h3.snoc (.atOnce rfl rfl ((Move.forwarded _ (.ok ())).step le_rfl))
  have h5 := h4.snoc (.other rfl ((Move.escSignal .interrupt).step le_rfl))
  have h6 := h5.snoc (.exit ⟨0⟩ rfl)
  have h7 := h6.snoc (.expire rfl (by decide : OsFut.sleep 1 ∈ (Await.racing 1).awaits.branches))
  have h8 := h7.snoc (.waited rfl (by decide) rfl (Or.inr ⟨1, rfl⟩)
    ((Move.escTerminated (.ok ())).step le_rfl))
  have h9 := h8.snoc (.waited rfl (by decide) rfl (Or.inl rfl)
    ((Move.escDrained ⟨0⟩).step le_rfl))
  exact no_signal_after_reap h9

end Condrun
