import Mathlib.Data.Nat.Notation
import Mathlib.Data.Int.Notation

/-! The types of `src/process` and `src/signal` that the supervisor handles. A `Duration` or
`Instant` is the natural number of its nanoseconds. -/

namespace Condrun

/-- `anyhow::Error`, of which the supervisor only prints the message. -/
structure Error where
  message : String
  deriving DecidableEq, Repr

inductive SignalKind
  | interrupt
  | terminate
  | quit
  | hup
  deriving DecidableEq, Repr

structure CommandSpec where
  program : String
  args : List String
  deriving DecidableEq, Repr

/-- A unix wait status word: the low seven bits name the killing signal, the second byte is the
exit code. -/
structure ExitStatus where
  raw : BitVec 32
  deriving DecidableEq, Repr

namespace ExitStatus

def success (status : ExitStatus) : Bool := status.raw == 0

def code (status : ExitStatus) : Option ℤ :=
  if status.raw &&& 0x7f = 0 then some ((status.raw >>> 8) &&& 0xff).toInt else none

/-- A child that died by a signal has no code and is no success. -/
theorem not_success_of_code_eq_none {status : ExitStatus} (h : status.code = none) :
    status.success = false := by
  obtain ⟨raw⟩ := status
  rw [Bool.eq_false_iff]
  intro hs
  obtain rfl : raw = 0 := by simpa [success] using hs
  simp [code] at h

end ExitStatus

/-- The fallible or blocking methods of `ChildHandle`. -/
inductive ChildOp
  | wait
  | signal (kind : SignalKind)
  | terminate (grace : ℕ)
  deriving DecidableEq, Repr

end Condrun
