import Condrun.Lib.Utf8
import Mathlib.Algebra.Ring.Nat

/-! `parse_duration` of `src/cli.rs`. A `str` is text in the UTF-8 encoding, and a `u64` is a
natural number below `2 ^ 64`. -/

namespace Condrun

/-- The ways in which `str::parse::<u64>` fails. -/
inductive IntErrorKind
  | empty
  | invalidDigit
  | posOverflow
  deriving DecidableEq, Repr

instance : ToString IntErrorKind where
  toString
    | .empty => "cannot parse integer from empty string"
    | .invalidDigit => "invalid digit found in string"
    | .posOverflow => "number too large to fit in target type"

def checkedAdd (a b : ℕ) : Option ℕ := if a + b < 2 ^ 64 then some (a + b) else none

def checkedMul (a b : ℕ) : Option ℕ := if a * b < 2 ^ 64 then some (a * b) else none

def toDigit (c : Char) : Option ℕ := if c.isDigit then some (c.toNat - '0'.toNat) else none

/-- The loop of `str::parse::<u64>` over the digits, with the value so far. -/
def parseDigits : ℕ → List Char → Except IntErrorKind ℕ
  | result, [] => .ok result
  | result, c :: digits =>
    match toDigit c with
    | none => .error .invalidDigit
    | some x =>
      match (checkedMul result 10).bind (checkedAdd · x) with
      | none => .error .posOverflow
      | some result => parseDigits result digits

/-- `str::parse::<u64>`, which takes a `+` before the digits. -/
def parseU64 : List Char → Except IntErrorKind ℕ
  | [] => .error .empty
  | ['+'] | ['-'] => .error .invalidDigit
  | '+' :: digits => parseDigits 0 digits
  | digits => parseDigits 0 digits

def isAsciiDigit (n : ℕ) : Bool := 48 ≤ n && n ≤ 57

/-- `Duration::from_secs`, in nanoseconds. -/
def fromSecs (secs : ℕ) : ℕ := secs * 10 ^ 9

/-- The index where the suffix begins: the first byte that is no digit, or the end. -/
def suffixStart (s : String) : ℕ :=
  (Utf8.encode s.toList).findIdx fun b => !isAsciiDigit b.toNat

/-- The `match unit`. `debug` is the output of `{:?}`. -/
def toSecs (debug : String → String) (s unit : String) (n : ℕ) : Except String ℕ :=
  match unit with
  | "" | "s" => .ok n
  | "m" => (checkedMul n 60).elim (.error s!"duration overflow: {s}") .ok
  | "h" => (checkedMul n 3600).elim (.error s!"duration overflow: {s}") .ok
  | other => .error s!"invalid duration unit {debug other} (expected s, m, or h)"

/-- The code after `split_at`. -/
def durationOf (debug : String → String) (s numStr unit : String) : Except String ℕ := do
  let n ← (parseU64 numStr.toList).mapError fun e =>
    s!"invalid duration number {debug numStr}: {e}"
  let secs ← toSecs debug s unit n
  pure (fromSecs secs)

/-- Parse a duration string like `30s`, `5m`, `1h`. The result is `none` where `split_at` panics. -/
def parseDuration (debug : String → String) (s : String) : Option (Except String ℕ) :=
  if s.isEmpty then some (throw "empty duration")
  else
    let split := suffixStart s
    if split = 0 then some (throw s!"missing numeric prefix in duration: {s}")
    else
      (Utf8.splitAt s.toList split).map fun (numStr, unit) =>
        durationOf debug s (.ofList numStr) (.ofList unit)

end Condrun
