/-
  Texts.

  A `Text` is a sequence of code points. Names, messages, paths and arguments
  are texts and not strings, because half of a surrogate pair can stand alone in
  them: an escape in a JSON document can name one, and file names use them for
  octets that are no UTF-8. Strings are for the fixed words of the program, and
  count as texts wherever one is expected.

  Texts are ordered by code point: the first difference decides, and a text
  comes before those that it begins.
-/
namespace Sendability

/-- A code point of a text; surrogates are allowed. -/
abbrev CodePoint := Nat

/-- A sequence of code points. -/
structure Text where
  points : List CodePoint := []
  deriving DecidableEq, Inhabited

namespace Text

/-- The text with some characters. -/
def ofChars (cs : List Char) : Text := ⟨cs.map Char.toNat⟩

/-- The text that a string spells. -/
def ofString (s : String) : Text := ofChars s.toList

instance : Coe String Text := ⟨ofString⟩

instance : Append Text := ⟨fun s t => ⟨s.points ++ t.points⟩⟩

/-- A number in decimal. -/
def ofInt (i : Int) : Text := toString i

/-- Whether a text has no code points. -/
def isEmpty (t : Text) : Bool := t.points.isEmpty

/-- Some texts one after the other. -/
def concat (l : List Text) : Text := ⟨l.flatMap points⟩

/-- Some texts with `sep` between them. -/
def joined (sep : Text) (l : List Text) : Text := ⟨sep.points.intercalate (l.map points)⟩

@[simp] theorem points_append (s t : Text) : (s ++ t).points = s.points ++ t.points := rfl

/-! ## Order -/

/-- Whether some code points come before others. -/
def before : List CodePoint → List CodePoint → Bool
  | _, [] => false
  | [], _ :: _ => true
  | a :: as, b :: bs => a < b || (a = b && before as bs)

instance : LT Text := ⟨fun s t => before s.points t.points = true⟩

instance : LE Text := ⟨fun s t => ¬ t < s⟩

instance (s t : Text) : Decidable (s < t) :=
  inferInstanceAs (Decidable (before s.points t.points = true))

instance (s t : Text) : Decidable (s ≤ t) := inferInstanceAs (Decidable (¬ t < s))

instance : Ord Text := ⟨fun s t => compareOfLessAndEq s t⟩

/-- No text comes before itself. -/
theorem before_self (as : List CodePoint) : before as as = false := by
  induction as with
  | nil => rfl
  | cons a as ih => simp [before, ih]

/-- What comes before something comes before everything after that. -/
theorem before_trans {as bs cs : List CodePoint} (hab : before as bs) (hbc : before bs cs) :
    before as cs := by
  induction as generalizing bs cs with
  | nil =>
    cases cs with
    | nil => cases bs <;> simp [before] at hbc
    | cons c cs => rfl
  | cons a as ih =>
    cases bs with
    | nil => simp [before] at hab
    | cons b bs =>
      cases cs with
      | nil => simp [before] at hbc
      | cons c cs =>
        simp only [before, Bool.or_eq_true, Bool.and_eq_true, decide_eq_true_eq] at hab hbc ⊢
        rcases hab with hab | ⟨rfl, hab⟩
        · rcases hbc with hbc | ⟨rfl, -⟩
          · exact .inl (Nat.lt_trans hab hbc)
          · exact .inl hab
        · rcases hbc with hbc | ⟨rfl, hbc⟩
          · exact .inl hbc
          · exact .inr ⟨rfl, ih hab hbc⟩

/-- Of two different sequences one comes before the other. -/
theorem before_or_eq_or_before (as bs : List CodePoint) :
    before as bs ∨ as = bs ∨ before bs as := by
  induction as generalizing bs with
  | nil => cases bs <;> simp [before]
  | cons a as ih =>
    cases bs with
    | nil => simp [before]
    | cons b bs =>
      simp only [before, Bool.or_eq_true, Bool.and_eq_true, decide_eq_true_eq, List.cons.injEq]
      rcases Nat.lt_trichotomy a b with h | rfl | h
      · exact .inl (.inl h)
      · rcases ih bs with h | rfl | h
        · exact .inl (.inr ⟨rfl, h⟩)
        · exact .inr (.inl ⟨rfl, rfl⟩)
        · exact .inr (.inr (.inr ⟨rfl, h⟩))
      · exact .inr (.inr (.inl h))

/-- Of two texts one does not come after the other. -/
theorem le_total (s t : Text) : s ≤ t ∨ t ≤ s := by
  by_cases h : t < s
  · exact .inr fun h' => by
      have := before_trans h h'
      rw [before_self] at this
      cases this
  · exact .inl h

/-- Two texts neither of which comes before the other are one. -/
theorem le_antisymm {s t : Text} (hst : s ≤ t) (hts : t ≤ s) : s = t := by
  rcases before_or_eq_or_before s.points t.points with h | h | h
  · exact absurd h hts
  · cases s; cases t; exact congrArg _ h
  · exact absurd h hst

end Text

end Sendability
