import SimpleBinary.Text.Ranges

/-!
Blank characters, and text without the blanks at its two ends.

A blank is a character of Unicode's white space together with the four information separators
U+001C to U+001F. The zero-width space U+200B and the byte order mark U+FEFF are no blanks.
-/

set_option autoImplicit false

namespace SimpleBinary.Text

/-- The code points of the blank characters. -/
def blanks : Ranges :=
  [(9, 13), (28, 32), (133, 133), (160, 160), (5760, 5760), (8192, 8202), (8232, 8233),
    (8239, 8239), (8287, 8287), (12288, 12288)]

/-- Whether a code point is blank. -/
def isBlank (p : CodePoint) : Bool :=
  blanks.contains p

/-- The text without the blanks at both ends. -/
def trim (t : Text) : Text :=
  ((t.dropWhile isBlank).reverse.dropWhile isBlank).reverse

/-- What core calls white space is blank. -/
theorem isBlank_of_isWhitespace {c : Char} (h : c.isWhitespace = true) : isBlank (.char c) = true := by
  simp only [Char.isWhitespace, Bool.or_eq_true, decide_eq_true_eq] at h
  rcases h with ((h | h) | h) | h <;> subst h <;> decide

end SimpleBinary.Text
