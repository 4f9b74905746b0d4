/-!
# Text — blanks

The characters that separate lexemes, and what is left of a text when they are dropped.  A
source text is a `List Char`; the place a reader stands at is the text still ahead of it.
-/

namespace InfixArith.Text

/-- The code points with the Unicode property `White_Space`, as closed ranges in ascending
order. -/
def blankRanges : List (Nat × Nat) :=
  [(0x09, 0x0D), (0x20, 0x20), (0x85, 0x85), (0xA0, 0xA0), (0x1680, 0x1680), (0x2000, 0x200A),
   (0x2028, 0x2029), (0x202F, 0x202F), (0x205F, 0x205F), (0x3000, 0x3000)]

/-- Whether `c` is a blank: a character with the Unicode property `White_Space`. -/
def isBlank (c : Char) : Bool :=
  blankRanges.any fun (first, last) => first ≤ c.toNat && c.toNat ≤ last

/-- The text from its first character that is not a blank. -/
def skipBlanks (s : List Char) : List Char := s.dropWhile isBlank

/-- The text without the blanks at its end. -/
def dropTrailingBlanks (s : List Char) : List Char := (skipBlanks s.reverse).reverse

/-- The text without the blanks at either end. -/
def trim (s : List Char) : List Char := dropTrailingBlanks (skipBlanks s)

/-- The first run of characters that are not blanks; empty when every character is a blank. -/
def firstWord (s : List Char) : List Char := (skipBlanks s).takeWhile fun c => !isBlank c

theorem skipBlanks_nil : skipBlanks [] = [] := rfl

theorem skipBlanks_cons (c : Char) (s : List Char) :
    skipBlanks (c :: s) = if isBlank c then skipBlanks s else c :: s := by
  simp only [skipBlanks, List.dropWhile_cons]

theorem length_skipBlanks_le (s : List Char) : (skipBlanks s).length ≤ s.length := by
  induction s with
  | nil => exact Nat.le_refl _
  | cons c s ih =>
      rw [skipBlanks_cons]
      split
      · exact Nat.le_succ_of_le ih
      · exact Nat.le_refl _

/-- What is left after skipping starts with no blank. -/
theorem isBlank_of_skipBlanks_eq_cons {s r : List Char} {c : Char}
    (h : skipBlanks s = c :: r) : isBlank c = false := by
  induction s with
  | nil => cases h
  | cons d s ih =>
      rw [skipBlanks_cons] at h
      split at h
      · exact ih h
      · next hd => cases h; exact Bool.eq_false_iff.mpr hd

theorem skipBlanks_idem (s : List Char) : skipBlanks (skipBlanks s) = skipBlanks s := by
  cases h : skipBlanks s with
  | nil => rfl
  | cons c r => rw [skipBlanks_cons, isBlank_of_skipBlanks_eq_cons h]; rfl

end InfixArith.Text
