import Condrun.Spec.Fake
import Condrun.Spec.Timed
import Condrun.Spec.Tokio

/-! The child of a timed run behind either handle: the fake one, and `TokioChildHandle` over a child
of one process. -/

namespace Condrun

/-- The instant of the last operation. -/
def lastAt (acts : Acts) : ℕ := (acts.getLast?.map Prod.fst).getD 0

namespace FakeChildHandle

def act (h : FakeChildHandle) : Act → FakeChildHandle
  | .call op => h.onCall op
  | .done ev => (ev.op?.map h.onReturn).getD h

/-- The handle after some operations. -/
def after (h : FakeChildHandle) (acts : Acts) : FakeChildHandle :=
  acts.foldl (fun h a => h.act a.2) h

/-- `env` with the fake for its child. -/
def env (h : FakeChildHandle) (env : Env) : Env where
  set := env.set
  network := env.network
  arrivals := env.arrivals
  wait acts created :=
    let c := (h.after acts).wait
    some (c.resolvesAt created, c.output)
  reply acts
    | .signal kind =>
      let c := (h.after acts).signal kind
      some (c.resolvesAt (lastAt acts), c.output)
    | .terminate grace =>
      let c := (h.after acts).terminate grace
      some (c.resolvesAt (lastAt acts), c.output)
    | .wait => none

end FakeChildHandle

/-- A child of one process: when and how it ends, under the signals sent to its group. What is sent
once it has ended changes nothing, nothing ends it sooner than it is sent, and a `SIGKILL` ends it
at once. -/
structure RealChild where
  ends : List (ℕ × Sig) → Option (ℕ × ExitStatus)
  ended : ∀ sent t sig x status, ends sent = some (x, status) → x ≤ t →
    ends (sent ++ [(t, sig)]) = some (x, status)
  later : ∀ sent t sig x status, ends (sent ++ [(t, sig)]) = some (x, status) → x < t →
    ends sent = some (x, status)
  killed : ∀ sent t, (∀ x status, ends sent = some (x, status) → t < x) →
    ends (sent ++ [(t, .kill)]) = some (t, ⟨9⟩)

namespace RealChild

def dies (c : RealChild) (sent : List (ℕ × Sig)) : Option ℕ := (c.ends sent).map Prod.fst

/-- A method under way goes on from its await, if what it awaits completes at all. -/
def advance (c : RealChild) (u : Under) : Under :=
  match u.await with
  | none => u
  | some a =>
    match a.awaits.first (u.readyAt c.dies) with
    | none => u
    | some (f, t) => .after t u.sent (TokioChildHandle.resume a f)

/-- The handle after one more operation. No method has more than two awaits. -/
def act (c : RealChild) (u : Under) : ℕ × Act → Under
  | (t, .call op) => c.advance (c.advance (.after t u.sent (TokioChildHandle.call op)))
  | (_, .done _) => u

/-- The handle after some operations. -/
def after (c : RealChild) (acts : Acts) : Under := acts.foldl c.act ⟨none, 0, []⟩

/-- When and how the child ends, under what the operations send. -/
def fate (c : RealChild) (acts : Acts) : Option (ℕ × ExitStatus) := c.ends (c.after acts).sent

/-- `env` with `c` for its child, behind a `TokioChildHandle`. -/
def env (c : RealChild) (env : Env) : Env where
  set := env.set
  network := env.network
  arrivals := env.arrivals
  wait acts _ := c.fate acts
  reply acts _ :=
    if (c.after acts).await = none then some ((c.after acts).now, .ok ()) else none

end RealChild

/-! Children that can be computed with: one that exits by itself, or not, and that after each signal
exits with a delay or goes on. -/

/-- The end that comes first. -/
def sooner : Option (ℕ × ExitStatus) → Option (ℕ × ExitStatus) → Option (ℕ × ExitStatus)
  | some e, some e' => some (if e'.1 < e.1 then e' else e)
  | none, e' => e'
  | e, none => e

/-- `on` is the delay after a signal and the status then. -/
structure Script where
  exit : Option (ℕ × ExitStatus)
  on : Sig → Option (ℕ × ExitStatus)

namespace Script

def reaction (s : Script) : ℕ × Sig → Option (ℕ × ExitStatus)
  | (t, .kill) => some (t, ⟨9⟩)
  | (t, sig) => (s.on sig).map fun e => (t + e.1, e.2)

def ends (s : Script) (sent : List (ℕ × Sig)) : Option (ℕ × ExitStatus) :=
  sent.foldl (fun e l => sooner e (s.reaction l)) s.exit

theorem ends_snoc (s : Script) (sent : List (ℕ × Sig)) (l : ℕ × Sig) :
    s.ends (sent ++ [l]) = sooner (s.ends sent) (s.reaction l) := by
  simp [ends]

theorem reaction_ge {s : Script} {t x : ℕ} {sig : Sig} {status : ExitStatus}
    (h : s.reaction (t, sig) = some (x, status)) : t ≤ x := by
  cases sig with
  | kill =>
    obtain ⟨rfl, -⟩ := Prod.mk.inj (Option.some.inj h)
    exact le_rfl
  | int | term | quit | hup =>
    obtain ⟨e, -, he⟩ := Option.map_eq_some_iff.mp h
    obtain ⟨rfl, -⟩ := Prod.mk.inj he
    exact Nat.le_add_right _ _

/-- The child that keeps to the script. -/
def child (s : Script) : RealChild where
  ends := s.ends
  ended sent t sig x status h hle := by
    rw [ends_snoc, h]
    cases hr : s.reaction (t, sig) with
    | none => rfl
    | some e =>
      have := reaction_ge hr
      rw [sooner, if_neg (by omega)]
  later sent t sig x status h hlt := by
    rw [ends_snoc] at h
    cases hr : s.reaction (t, sig) with
    | none =>
      rw [hr] at h
      cases he : s.ends sent with
      | none => rwa [he] at h
      | some e => rwa [he] at h
    | some e =>
      have hge := reaction_ge hr
      rw [hr] at h
      cases he : s.ends sent with
      | none =>
        rw [he] at h
        obtain rfl := Option.some.inj h
        exact absurd hlt (Nat.not_lt.mpr hge)
      | some e' =>
        rw [he, sooner] at h
        split_ifs at h with hcmp
        · obtain rfl := Option.some.inj h
          exact absurd hlt (Nat.not_lt.mpr hge)
        · exact h
  killed sent t h := by
    rw [ends_snoc]
    cases he : s.ends sent with
    | none => rfl
    | some e => exact congrArg some (if_pos (h e.1 e.2 he))

end Script

end Condrun
