import Mathlib.Data.List.TakeWhile
import Mathlib.Data.Nat.Digits.Defs
import Mathlib.Tactic.Positivity
import Mathlib.Tactic.Ring
import Condrun.Spec.Cli

/-! The texts that `parse_duration` accepts, and that it cuts each between two characters. -/

namespace Condrun

/-- The seconds a unit stands for. -/
def unitSecs : String → Option ℕ
  | "" | "s" => some 1
  | "m" => some 60
  | "h" => some 3600
  | _ => none

def digitValue (c : Char) : ℕ := c.toNat - '0'.toNat

/-- The number that digits write, with the most significant one first. -/
def decimal (ds : List Char) : ℕ := Nat.ofDigits 10 (ds.map digitValue).reverse

/-- `s` is the digits `ds` and a unit, which stand for `d`, and neither the number nor the seconds
exceed a `u64`. -/
structure Reads (s : String) (ds : List Char) (unit : String) (mult d : ℕ) : Prop where
  text : s.toList = ds ++ unit.toList
  nonempty : ds ≠ []
  digits : ∀ c ∈ ds, c.isDigit = true
  unit_eq : unitSecs unit = some mult
  number : decimal ds < 2 ^ 64
  seconds : decimal ds * mult < 2 ^ 64
  duration : d = fromSecs (decimal ds * mult)

def IsDuration (s : String) (d : ℕ) : Prop := ∃ ds unit mult, Reads s ds unit mult d

variable {debug : String → String} {s unit : String} {c : Char} {ds rest : List Char} {n d : ℕ}

theorem isAsciiDigit_lt (n : ℕ) (h : isAsciiDigit n = true) : n < 128 := by
  simp only [isAsciiDigit, Bool.and_eq_true, decide_eq_true_eq] at h
  omega

/-- A digit byte is a digit character. -/
theorem isAsciiDigit_toNat (c : Char) : isAsciiDigit c.toNat = c.isDigit := by
  unfold isAsciiDigit Char.isDigit
  have h : c.val.toNat = c.toNat := rfl
  simp only [ge_iff_le, UInt32.le_iff_toNat_le, h]
  rfl

/-! The value of the digits. -/

theorem decimal_cons (c : Char) (ds : List Char) :
    decimal (c :: ds) = digitValue c * 10 ^ ds.length + decimal ds := by
  unfold decimal
  rw [List.map_cons, List.reverse_cons, Nat.ofDigits_append, Nat.ofDigits_singleton,
    List.length_reverse, List.length_map, Nat.add_comm, Nat.mul_comm]

theorem toDigit_eq (h : c.isDigit = true) : toDigit c = some (digitValue c) := if_pos h

/-- One more digit, unless the value outgrows a `u64`. -/
theorem push_digit (r x : ℕ) : (checkedMul r 10).bind (checkedAdd · x) =
    if r * 10 + x < 2 ^ 64 then some (r * 10 + x) else none := by
  unfold checkedMul
  split_ifs with h1 h2 h2
  · exact if_pos h2
  · exact if_neg h2
  · omega
  · rfl

/-- The loop computes the value, or sees that it does not fit. -/
theorem parseDigits_eq (hds : ∀ c ∈ ds, c.isDigit = true) {r : ℕ} (hr : r < 2 ^ 64) :
    parseDigits r ds = if r * 10 ^ ds.length + decimal ds < 2 ^ 64
      then .ok (r * 10 ^ ds.length + decimal ds) else .error .posOverflow := by
  induction ds generalizing r with
  | nil =>
    have h : r * 10 ^ ([] : List Char).length + decimal [] = r := by simp [decimal]
    rw [h, if_pos hr]
    rfl
  | cons c ds ih =>
    have hc := toDigit_eq (hds c List.mem_cons_self)
    have ih := fun {r : ℕ} => ih (r := r) fun c hc => hds c (List.mem_cons_of_mem _ hc)
    have hval : r * 10 ^ (c :: ds).length + decimal (c :: ds) =
        (r * 10 + digitValue c) * 10 ^ ds.length + decimal ds := by
      rw [decimal_cons, List.length_cons, pow_succ]
      ring
    rw [hval]
    simp only [parseDigits, hc, push_digit]
    by_cases hfit : r * 10 + digitValue c < 2 ^ 64
    · rw [if_pos hfit]
      exact ih hfit
    · -- what is too large stays so with more digits
      have hle : r * 10 + digitValue c ≤ (r * 10 + digitValue c) * 10 ^ ds.length :=
        Nat.le_mul_of_pos_right _ (by positivity)
      rw [if_neg hfit, if_neg (by omega)]

theorem parseU64_eq (hne : ds ≠ []) (hds : ∀ c ∈ ds, c.isDigit = true) :
    parseU64 ds = if decimal ds < 2 ^ 64 then .ok (decimal ds) else .error .posOverflow := by
  obtain ⟨c, ds, rfl⟩ := List.exists_cons_of_ne_nil hne
  have hc := hds c List.mem_cons_self
  have h : parseU64 (c :: ds) = parseDigits 0 (c :: ds) := by
    unfold parseU64
    split
    · next heq => cases heq
    · next heq => obtain ⟨rfl, -⟩ := List.cons.inj heq; cases hc
    · next heq => obtain ⟨rfl, -⟩ := List.cons.inj heq; cases hc
    · next heq => obtain ⟨rfl, -⟩ := List.cons.inj heq; cases hc
    · rfl
  rw [h, parseDigits_eq hds (by decide), Nat.zero_mul, Nat.zero_add]

/-! The cut into digits and unit. -/

def digitsOf (s : String) : List Char := s.toList.takeWhile Char.isDigit

def unitOf (s : String) : List Char := s.toList.dropWhile Char.isDigit

theorem isDigit_eq : (fun c : Char => isAsciiDigit c.toNat) = Char.isDigit :=
  funext isAsciiDigit_toNat

theorem splitAt_suffixStart (s : String) :
    Utf8.splitAt s.toList (suffixStart s) = some (digitsOf s, unitOf s) := by
  unfold digitsOf unitOf suffixStart
  rw [Utf8.splitAt_findIdx isAsciiDigit_lt, isDigit_eq]

theorem suffixStart_boundary (s : String) : Utf8.IsBoundary s.toList (suffixStart s) := by
  apply Utf8.splitAt_isSome.mp
  rw [splitAt_suffixStart]
  rfl

theorem suffixStart_eq_zero : suffixStart s = 0 ↔ digitsOf s = [] := by
  have h := Utf8.splitAt_eq_some (splitAt_suffixStart s)
  refine ⟨fun h0 => ?_, fun h0 => ?_⟩
  · rw [h0] at h
    exact Utf8.encode_length_eq_zero.mp h.2
  · rw [← h.2, h0]
    rfl

theorem digitsOf_digits (s : String) : ∀ c ∈ digitsOf s, c.isDigit = true :=
  fun _ h => List.mem_takeWhile_imp h

/-- No unit starts with a digit, so a duration is cut where its digits end. -/
theorem Reads.cut {mult : ℕ} (h : Reads s ds unit mult d) :
    digitsOf s = ds ∧ unitOf s = unit.toList := by
  have hunit : unit.toList.takeWhile Char.isDigit = [] ∧
      unit.toList.dropWhile Char.isDigit = unit.toList := by
    have hu := h.unit_eq
    unfold unitSecs at hu
    split at hu
    · exact ⟨rfl, rfl⟩
    · exact ⟨rfl, rfl⟩
    · exact ⟨rfl, rfl⟩
    · exact ⟨rfl, rfl⟩
    · cases hu
  unfold digitsOf unitOf
  rw [h.text, List.takeWhile_append_of_pos h.digits, List.dropWhile_append_of_pos h.digits, hunit.1,
    hunit.2, List.append_nil]
  exact ⟨rfl, rfl⟩

theorem checkedMul_elim {e : String} {n m secs : ℕ} :
    (checkedMul n m).elim (.error e) .ok = Except.ok secs ↔ n * m < 2 ^ 64 ∧ secs = n * m := by
  unfold checkedMul
  by_cases h : n * m < 2 ^ 64
  · rw [if_pos h, Option.elim_some, Except.ok.injEq]
    exact ⟨fun he => ⟨h, he.symm⟩, fun he => he.2.symm⟩
  · rw [if_neg h]
    exact iff_of_false (by simp) fun h' => h h'.1

theorem toSecs_eq_ok {secs : ℕ} (hn : n < 2 ^ 64) : toSecs debug s unit n = .ok secs ↔
    ∃ mult, unitSecs unit = some mult ∧ n * mult < 2 ^ 64 ∧ secs = n * mult := by
  have hone : Except.ok n = (.ok secs : Except String ℕ) ↔ n * 1 < 2 ^ 64 ∧ secs = n * 1 := by
    rw [Nat.mul_one, Except.ok.injEq]
    exact ⟨fun h => ⟨hn, h.symm⟩, fun h => h.2.symm⟩
  unfold toSecs unitSecs
  split
  · simpa using hone
  · simpa using hone
  · simpa using checkedMul_elim
  · simpa using checkedMul_elim
  · simp

theorem durationOf_eq_ok (hne : ds ≠ []) (hds : ∀ c ∈ ds, c.isDigit = true) :
    durationOf debug s (.ofList ds) unit = .ok d ↔ ∃ mult, unitSecs unit = some mult ∧
      decimal ds < 2 ^ 64 ∧ decimal ds * mult < 2 ^ 64 ∧ d = fromSecs (decimal ds * mult) := by
  unfold durationOf
  rw [String.toList_ofList, parseU64_eq hne hds]
  by_cases hn : decimal ds < 2 ^ 64
  · have hmap : ∀ x : Except String ℕ, (x >>= fun secs => pure (fromSecs secs)) = .ok d ↔
        ∃ secs, x = .ok secs ∧ d = fromSecs secs := by
      intro x
      rcases x with e | secs
      · exact iff_of_false (fun h => nomatch h) (by simp)
      · simp only [bind, Except.bind, pure, Except.pure, Except.ok.injEq, exists_eq_left']
        exact eq_comm
    rw [if_pos hn]
    refine (hmap (toSecs debug s unit (decimal ds))).trans ?_
    simp only [toSecs_eq_ok hn]
    refine ⟨?_, ?_⟩
    · rintro ⟨_, ⟨mult, hu, hm, rfl⟩, hd⟩
      exact ⟨mult, hu, hn, hm, hd⟩
    · rintro ⟨mult, hu, -, hm, hd⟩
      exact ⟨_, ⟨mult, hu, hm, rfl⟩, hd⟩
  · rw [if_neg hn]
    refine iff_of_false (fun h => nomatch h) ?_
    rintro ⟨_, _, h, _⟩
    exact hn h

theorem parseDuration_eq (debug : String → String) (s : String) : parseDuration debug s = some
    (if s.isEmpty then .error "empty duration"
    else if digitsOf s = [] then .error s!"missing numeric prefix in duration: {s}"
    else durationOf debug s (.ofList (digitsOf s)) (.ofList (unitOf s))) := by
  unfold parseDuration
  simp only [suffixStart_eq_zero, splitAt_suffixStart, Option.map_some]
  split_ifs <;> rfl

/-- The durations accepted are the texts of the grammar, each with its value. -/
theorem parseDuration_eq_ok (debug : String → String) (s : String) (d : ℕ) :
    parseDuration debug s = some (.ok d) ↔ IsDuration s d := by
  have hcut : s.toList = digitsOf s ++ unitOf s := (Utf8.splitAt_eq_some (splitAt_suffixStart s)).1
  rw [parseDuration_eq, Option.some.injEq]
  by_cases hdigits : digitsOf s = []
  · refine iff_of_false ?_ ?_
    · rw [if_pos hdigits]
      split_ifs <;> exact fun h => nomatch h
    · rintro ⟨ds, unit, mult, h⟩
      exact h.nonempty (h.cut.1.symm.trans hdigits)
  · have hempty : ¬ s.isEmpty = true := by
      intro h
      rw [String.isEmpty_iff] at h
      subst h
      exact hdigits rfl
    rw [if_neg hempty, if_neg hdigits, durationOf_eq_ok hdigits (digitsOf_digits s)]
    refine ⟨?_, ?_⟩
    · rintro ⟨mult, hu, hn, hm, hd⟩
      exact ⟨digitsOf s, .ofList (unitOf s), mult, by rw [String.toList_ofList, hcut], hdigits,
        digitsOf_digits s, hu, hn, hm, hd⟩
    · rintro ⟨ds, unit, mult, h⟩
      obtain ⟨rfl, hu⟩ := h.cut
      rw [hu, String.ofList_toList]
      exact ⟨mult, h.unit_eq, h.number, h.seconds, h.duration⟩

/-- Every text is either a duration of the grammar or an error, and none makes `split_at` panic. -/
theorem parse_duration_grammar (debug : String → String) (s : String) :
    (∃ res, parseDuration debug s = some res ∧ ∀ d, res = .ok d ↔ IsDuration s d) ∧
    Utf8.IsBoundary s.toList (suffixStart s) := by
  refine ⟨⟨_, parseDuration_eq debug s, fun d => ?_⟩, suffixStart_boundary s⟩
  rw [← parseDuration_eq_ok debug s d, parseDuration_eq, Option.some.injEq]

/-! The errors, in the order in which they are found. -/

/-- `s` is the digits `ds` and what comes after them. -/
structure Cut (s : String) (ds : List Char) (unit : String) : Prop where
  text : s.toList = ds ++ unit.toList
  nonempty : ds ≠ []
  digits : ∀ c ∈ ds, c.isDigit = true
  stops : ∀ c ∈ unit.toList.head?, c.isDigit = false

/-- What is wrong with `s`. A number that is too large is found before a wrong unit. -/
inductive Fault (debug : String → String) (s : String) : String → Prop
  | empty (h : s = "") : Fault debug s "empty duration"
  | noNumber (hne : s ≠ "") (h : ∀ c ∈ s.toList.head?, c.isDigit = false) :
      Fault debug s s!"missing numeric prefix in duration: {s}"
  | number (ds : List Char) (unit : String) (hc : Cut s ds unit) (h : 2 ^ 64 ≤ decimal ds) :
      Fault debug s s!"invalid duration number {debug (.ofList ds)}: {IntErrorKind.posOverflow}"
  | unit (ds : List Char) (unit : String) (hc : Cut s ds unit) (hn : decimal ds < 2 ^ 64)
      (h : unitSecs unit = none) :
      Fault debug s s!"invalid duration unit {debug unit} (expected s, m, or h)"
  | seconds (ds : List Char) (unit : String) (mult : ℕ) (hc : Cut s ds unit)
      (hn : decimal ds < 2 ^ 64) (hu : unitSecs unit = some mult)
      (h : 2 ^ 64 ≤ decimal ds * mult) : Fault debug s s!"duration overflow: {s}"

theorem cut_digitsOf (h : digitsOf s ≠ []) : Cut s (digitsOf s) (.ofList (unitOf s)) := by
  refine ⟨?_, h, digitsOf_digits s, ?_⟩
  · rw [String.toList_ofList]
    exact (Utf8.splitAt_eq_some (splitAt_suffixStart s)).1
  · intro c hc
    rw [String.toList_ofList, unitOf, ← List.find?_not_eq_head?_dropWhile] at hc
    simpa using List.find?_some hc

/-- The digits end in one place. -/
theorem Cut.eq (h : Cut s ds unit) : digitsOf s = ds ∧ unitOf s = unit.toList := by
  have hunit : unit.toList.takeWhile Char.isDigit = [] ∧
      unit.toList.dropWhile Char.isDigit = unit.toList := by
    have hstops := h.stops
    cases hu : unit.toList with
    | nil => exact ⟨rfl, rfl⟩
    | cons c rest =>
      rw [hu] at hstops
      simp [hstops c rfl]
  unfold digitsOf unitOf
  rw [h.text, List.takeWhile_append_of_pos h.digits, List.dropWhile_append_of_pos h.digits, hunit.1,
    hunit.2, List.append_nil]
  exact ⟨rfl, rfl⟩

theorem digitsOf_eq_nil : digitsOf s = [] ↔ ∀ c ∈ s.toList.head?, c.isDigit = false := by
  unfold digitsOf
  cases s.toList with
  | nil => simp
  | cons c rest => cases hc : c.isDigit <;> simp [hc]

theorem checkedMul_elim_error {e msg : String} {m : ℕ} :
    (checkedMul n m).elim (.error e) .ok = Except.error (α := ℕ) msg ↔
      2 ^ 64 ≤ n * m ∧ e = msg := by
  unfold checkedMul
  by_cases h : n * m < 2 ^ 64
  · rw [if_pos h]
    exact iff_of_false (fun he => nomatch he) fun h' => Nat.not_le.2 h h'.1
  · rw [if_neg h, Option.elim_none, Except.error.injEq]
    exact (and_iff_right (Nat.not_lt.1 h)).symm

theorem toSecs_eq_error {msg : String} (hn : n < 2 ^ 64) : toSecs debug s unit n = .error msg ↔
    (unitSecs unit = none ∧ s!"invalid duration unit {debug unit} (expected s, m, or h)" = msg) ∨
    ∃ mult, unitSecs unit = some mult ∧ 2 ^ 64 ≤ n * mult ∧ s!"duration overflow: {s}" = msg := by
  have hone : Except.ok n = (.error msg : Except String ℕ) ↔
      2 ^ 64 ≤ n * 1 ∧ s!"duration overflow: {s}" = msg := by
    rw [Nat.mul_one]
    exact iff_of_false (fun h => nomatch h) fun h => Nat.not_le.2 hn h.1
  unfold toSecs unitSecs
  split
  · simpa using hone
  · simpa using hone
  · simpa using checkedMul_elim_error
  · simpa using checkedMul_elim_error
  · simp

theorem durationOf_eq_error {msg : String} (hne : ds ≠ []) (hds : ∀ c ∈ ds, c.isDigit = true) :
    durationOf debug s (.ofList ds) unit = .error msg ↔
      (2 ^ 64 ≤ decimal ds ∧
        s!"invalid duration number {debug (.ofList ds)}: {IntErrorKind.posOverflow}" = msg) ∨
      (decimal ds < 2 ^ 64 ∧ toSecs debug s unit (decimal ds) = .error msg) := by
  unfold durationOf
  rw [String.toList_ofList, parseU64_eq hne hds]
  by_cases hn : decimal ds < 2 ^ 64
  · have hmap : ∀ x : Except String ℕ,
        (x >>= fun secs => pure (fromSecs secs)) = .error msg ↔ x = .error msg := by
      intro x
      rcases x with e | secs
      · exact Iff.rfl
      · exact iff_of_false (fun h => nomatch h) fun h => nomatch h
    rw [if_pos hn]
    refine (hmap (toSecs debug s unit (decimal ds))).trans ?_
    rw [and_iff_right hn, or_iff_right fun h => Nat.not_le.2 hn h.1]
  · rw [if_neg hn, or_iff_left fun h => hn h.1, and_iff_right (Nat.not_lt.1 hn)]
    exact ⟨fun h => Except.error.inj h, fun h => congrArg Except.error h⟩

theorem fault_of_number {msg : String} (hc : Cut s ds unit)
    (h : durationOf debug s (.ofList ds) unit = .error msg) : Fault debug s msg := by
  rcases (durationOf_eq_error hc.nonempty hc.digits).mp h with ⟨hn, rfl⟩ | ⟨hn, hsecs⟩
  · exact .number ds unit hc hn
  · rcases (toSecs_eq_error hn).mp hsecs with ⟨hu, rfl⟩ | ⟨mult, hu, hm, rfl⟩
    · exact .unit ds unit hc hn hu
    · exact .seconds ds unit mult hc hn hu hm

theorem Cut.parse (h : Cut s ds unit) :
    parseDuration debug s = some (durationOf debug s (.ofList ds) unit) := by
  obtain ⟨hds, hunit⟩ := h.eq
  have hempty : ¬ s.isEmpty = true := by
    intro he
    rw [String.isEmpty_iff] at he
    subst he
    exact h.nonempty hds.symm
  rw [parseDuration_eq, if_neg hempty, hds, if_neg h.nonempty, hunit, String.ofList_toList]

/-- A text is refused with the error that names what is wrong with it, and no other text is. -/
theorem parse_duration_faults (debug : String → String) (s msg : String) :
    parseDuration debug s = some (.error msg) ↔ Fault debug s msg := by
  refine ⟨fun h => ?_, fun h => ?_⟩
  · rw [parseDuration_eq, Option.some.injEq] at h
    split_ifs at h with hempty hdigits
    · obtain rfl := Except.error.inj h
      exact .empty (String.isEmpty_iff.mp hempty)
    · obtain rfl := Except.error.inj h
      exact .noNumber (fun he => hempty (String.isEmpty_iff.mpr he)) (digitsOf_eq_nil.mp hdigits)
    · exact fault_of_number (cut_digitsOf hdigits) h
  · cases h with
    | empty h =>
      subst h
      rfl
    | noNumber hne h =>
      rw [parseDuration_eq, if_neg fun he => hne (String.isEmpty_iff.mp he),
        if_pos (digitsOf_eq_nil.mpr h)]
    | number ds unit hc h =>
      rw [hc.parse, (durationOf_eq_error hc.nonempty hc.digits).mpr (Or.inl ⟨h, rfl⟩)]
    | unit ds unit hc hn h =>
      have hsecs : toSecs debug s unit (decimal ds) = .error _ :=
        (toSecs_eq_error hn).mpr (Or.inl ⟨h, rfl⟩)
      rw [hc.parse, (durationOf_eq_error hc.nonempty hc.digits).mpr (Or.inr ⟨hn, hsecs⟩)]
    | seconds ds unit mult hc hn hu h =>
      have hsecs : toSecs debug s unit (decimal ds) = .error s!"duration overflow: {s}" :=
        (toSecs_eq_error hn).mpr (Or.inr ⟨mult, hu, h, rfl⟩)
      rw [hc.parse, (durationOf_eq_error hc.nonempty hc.digits).mpr (Or.inr ⟨hn, hsecs⟩)]

end Condrun
