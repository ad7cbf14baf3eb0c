/-!
# Blank characters

Two classes of white space are in use. The **blank** characters are the twenty-five that
carry the Unicode property White_Space, in ten runs, `JsonQuery.Text.blankRuns`: an
expression of blanks alone is empty, and a text is trimmed of them at both ends. The
**spaces** are four of them, and they are the only ones that may stand between tokens,
in a document and in an expression alike.
-/

namespace JsonQuery.Text

/-- The code points with the property White_Space, as runs from a first to a last one,
in increasing order. -/
def blankRuns : List (Nat × Nat) :=
  [(0x09, 0x0d), (0x20, 0x20), (0x85, 0x85), (0xa0, 0xa0), (0x1680, 0x1680), (0x2000, 0x200a),
    (0x2028, 0x2029), (0x202f, 0x202f), (0x205f, 0x205f), (0x3000, 0x3000)]

/-- Whether a character has the property White_Space. -/
def isBlank (c : Char) : Bool :=
  blankRuns.any fun (first, last) => first ≤ c.toNat && c.toNat ≤ last

/-- Whether a character is a space, a tab, a line feed or a carriage return. -/
def isSpace (c : Char) : Bool :=
  c == ' ' || c == '\t' || c == '\n' || c == '\r'

/-- A text without the blanks at its two ends. -/
def trim (cs : List Char) : List Char :=
  ((cs.dropWhile isBlank).reverse.dropWhile isBlank).reverse

/-- Every space is blank. -/
theorem isBlank_of_isSpace {c : Char} (h : isSpace c = true) : isBlank c = true := by
  simp only [isSpace, Bool.or_eq_true, beq_iff_eq] at h
  rcases h with ((rfl | rfl) | rfl) | rfl <;> decide

end JsonQuery.Text
