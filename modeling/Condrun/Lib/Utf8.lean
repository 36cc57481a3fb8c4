import Mathlib.Data.List.Basic
import Mathlib.Data.Nat.Notation

/-! Text as characters and as the bytes of its UTF-8 encoding. A scan of the bytes for the end of a
run of ASCII characters stops between two characters. -/

namespace Utf8

def encode (cs : List Char) : List UInt8 := cs.flatMap String.utf8EncodeChar

/-- Some characters of `cs` take up the first `i` bytes. -/
def IsBoundary (cs : List Char) (i : ℕ) : Prop :=
  ∃ pre post, cs = pre ++ post ∧ (encode pre).length = i

/-- Split at a byte, or fail off a boundary. -/
def splitAt : List Char → ℕ → Option (List Char × List Char)
  | cs, 0 => some ([], cs)
  | [], _ + 1 => none
  | c :: cs, i + 1 =>
    if c.utf8Size ≤ i + 1 then
      (splitAt cs (i + 1 - c.utf8Size)).map fun (pre, post) => (c :: pre, post)
    else none

variable {c : Char} {cs pre post : List Char} {i : ℕ} {q : ℕ → Bool}

@[simp] theorem encode_cons (c : Char) (cs : List Char) :
    encode (c :: cs) = String.utf8EncodeChar c ++ encode cs := List.flatMap_cons

theorem length_encode_cons (c : Char) (cs : List Char) :
    (encode (c :: cs)).length = c.utf8Size + (encode cs).length := by
  rw [encode_cons, List.length_append, String.length_utf8EncodeChar]

theorem encode_length_eq_zero : (encode cs).length = 0 ↔ cs = [] := by
  cases cs with
  | nil => simp [encode]
  | cons c cs =>
    have hpos := c.utf8Size_pos
    refine iff_of_false ?_ (List.cons_ne_nil _ _)
    rw [length_encode_cons]
    omega

theorem splitAt_append (pre post : List Char) :
    splitAt (pre ++ post) (encode pre).length = some (pre, post) := by
  induction pre with
  | nil => cases post <;> rfl
  | cons c pre ih =>
    have hpos := c.utf8Size_pos
    obtain ⟨n, hn⟩ : ∃ n, c.utf8Size + (encode pre).length = n + 1 :=
      ⟨c.utf8Size + (encode pre).length - 1, by omega⟩
    rw [length_encode_cons, hn, List.cons_append, splitAt, if_pos (by omega),
      show n + 1 - c.utf8Size = (encode pre).length by omega, ih]
    rfl

theorem splitAt_eq_some (h : splitAt cs i = some (pre, post)) :
    cs = pre ++ post ∧ (encode pre).length = i := by
  induction cs generalizing i pre with
  | nil =>
    cases i with
    | zero =>
      obtain ⟨rfl, rfl⟩ := Prod.mk.inj (Option.some.inj h)
      exact ⟨rfl, rfl⟩
    | succ i => cases h
  | cons c cs ih =>
    cases i with
    | zero =>
      obtain ⟨rfl, rfl⟩ := Prod.mk.inj (Option.some.inj h)
      exact ⟨rfl, rfl⟩
    | succ i =>
      rw [splitAt] at h
      split_ifs at h with hle
      obtain ⟨⟨pre', post'⟩, hs, he⟩ := Option.map_eq_some_iff.mp h
      obtain ⟨rfl, rfl⟩ := Prod.mk.inj he
      obtain ⟨rfl, hl⟩ := ih hs
      exact ⟨rfl, by rw [length_encode_cons]; omega⟩

/-- A split fails nowhere else than off the boundaries. -/
theorem splitAt_isSome : (splitAt cs i).isSome ↔ IsBoundary cs i := by
  refine ⟨fun h => ?_, ?_⟩
  · obtain ⟨⟨pre, post⟩, hs⟩ := Option.isSome_iff_exists.mp h
    exact ⟨pre, post, splitAt_eq_some hs⟩
  · rintro ⟨pre, post, rfl, rfl⟩
    rw [splitAt_append]
    rfl

/-- A character is either one byte of its own value, or it starts with a byte that is no ASCII. -/
theorem encode_head (c : Char) : ∃ b bs, String.utf8EncodeChar c = b :: bs ∧
    (c.toNat < 128 ∧ b.toNat = c.toNat ∧ bs = [] ∨ 128 ≤ c.toNat ∧ 128 ≤ b.toNat) := by
  have hv : c.val.toNat = c.toNat := rfl
  unfold String.utf8EncodeChar
  simp only [hv]
  split_ifs with h1 h2 h3
  · refine ⟨_, _, rfl, Or.inl ⟨by omega, ?_, rfl⟩⟩
    rw [UInt8.toNat_ofNat']
    omega
  all_goals
    refine ⟨_, _, rfl, Or.inr ⟨by omega, ?_⟩⟩
    rw [UInt8.toNat_ofNat']
    omega

/-- With a class of ASCII characters, the first byte outside it is where the first character outside
it starts. -/
theorem findIdx_encode (hq : ∀ n, q n = true → n < 128) (cs : List Char) :
    (encode cs).findIdx (fun b => !q b.toNat) =
      (encode (cs.takeWhile fun c => q c.toNat)).length := by
  induction cs with
  | nil => rfl
  | cons c cs ih =>
    obtain ⟨b, bs, hb, hc⟩ := encode_head c
    by_cases hqc : q c.toNat = true
    · rcases hc with ⟨-, hbc, rfl⟩ | ⟨hge, -⟩
      · rw [List.takeWhile_cons, if_pos hqc, encode_cons, encode_cons, hb, List.singleton_append,
          List.singleton_append, List.findIdx_cons, hbc, hqc, ih]
        rfl
      · exact absurd (hq _ hqc) (by omega)
    · have hqb : q b.toNat = false := by
        rcases hc with ⟨-, hbc, -⟩ | ⟨-, hge⟩
        · rw [hbc]
          exact Bool.eq_false_iff.mpr hqc
        · exact Bool.eq_false_iff.mpr fun h => absurd (hq _ h) (by omega)
      rw [List.takeWhile_cons, if_neg hqc, encode_cons, hb, List.cons_append, List.findIdx_cons,
        hqb]
      rfl

theorem splitAt_findIdx (hq : ∀ n, q n = true → n < 128) (cs : List Char) :
    splitAt cs ((encode cs).findIdx fun b => !q b.toNat) =
      some (cs.takeWhile (fun c => q c.toNat), cs.dropWhile fun c => q c.toNat) := by
  rw [findIdx_encode hq]
  have h := splitAt_append (cs.takeWhile fun c => q c.toNat) (cs.dropWhile fun c => q c.toNat)
  rw [List.takeWhile_append_dropWhile] at h
  exact h

end Utf8
