import Condrun.Spec.System

/-! `RealSignals` of `src/signal/real.rs`, and the supervisor over it. A stream of
`tokio::signal::unix` shows that a signal of its kind has come since the last `recv`, and no more:
several of a kind are one, and the order of two kinds is not kept. A `recv` that is dropped takes
nothing. -/

namespace Condrun

structure TokioSignal where
  kind : SignalKind
  notified : Bool
  deriving DecidableEq, Repr

structure RealSignals where
  int : TokioSignal
  term : TokioSignal
  quit : TokioSignal
  hup : TokioSignal
  deriving DecidableEq, Repr

/-- The futures that `next` awaits, one for each field. -/
inductive Recv
  | int
  | term
  | quit
  | hup
  deriving DecidableEq, Repr

/-- `tokio::signal::unix::signal`, with the result of registering the handler. -/
def tokioSignal (register : SignalKind → Except Error Unit) (kind : SignalKind) :
    Except Error TokioSignal := do
  register kind
  pure ⟨kind, false⟩

/-- What the arrival of a signal does to a stream. -/
def TokioSignal.notify (t : TokioSignal) (sig : SignalKind) : TokioSignal :=
  if t.kind = sig then { t with notified := true } else t

namespace RealSignals

def new (register : SignalKind → Except Error Unit) : Except Error RealSignals := do
  let int ← tokioSignal register .interrupt
  let term ← tokioSignal register .terminate
  let quit ← tokioSignal register .quit
  let hup ← tokioSignal register .hup
  pure ⟨int, term, quit, hup⟩

def arrive (s : RealSignals) (sig : SignalKind) : RealSignals :=
  ⟨s.int.notify sig, s.term.notify sig, s.quit.notify sig, s.hup.notify sig⟩

def stream (s : RealSignals) : Recv → TokioSignal
  | .int => s.int
  | .term => s.term
  | .quit => s.quit
  | .hup => s.hup

/-- The `select!` of `next`. -/
def next : Select Recv := ⟨false, [.int, .term, .quit, .hup]⟩

/-- What `next` returns when a `recv` completes. -/
def output : Recv → SignalKind
  | .int => .interrupt
  | .term => .terminate
  | .quit => .quit
  | .hup => .hup

/-- A `recv` that completes. -/
def recv (s : RealSignals) : Recv → RealSignals
  | .int => { s with int := { s.int with notified := false } }
  | .term => { s with term := { s.term with notified := false } }
  | .quit => { s with quit := { s.quit with notified := false } }
  | .hup => { s with hup := { s.hup with notified := false } }

/-- What `next` may return now, and what it leaves: the `recv` that wins its poll completes. -/
def nexts (s : RealSignals) : List (SignalKind × RealSignals) :=
  (next.branches.filter fun f => next.Wins (fun g => (s.stream g).notified = true) f).map
    fun f => (output f, s.recv f)

instance : Source RealSignals where
  Fresh s := ∃ register, new register = .ok s
  arrive := arrive
  offers s := s.nexts.map Prod.fst
  take s sig := (s.nexts.lookup sig).getD s

end RealSignals

/-- The supervisor over these signals, once `RealSignals::new` succeeded. -/
def realSystem (cfg : SupervisorConfig) (cmd : CommandSpec) : Lts (System RealSignals) Happening :=
  systemOver RealSignals cfg cmd

end Condrun
