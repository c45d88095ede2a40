import SimpleBinary.Fault

/-!
A place in the text of a YAML document.

A cursor holds what is left of the text and where that begins. NUL, which no document may hold,
stands for what comes after the end, so the next character can always be looked at.
-/

set_option autoImplicit false

namespace SimpleBinary.Yaml

/-- The character that stands after the end of a text. -/
def finish : Char := '\x00'

/-- Whether a document may hold a character. -/
def isAdmitted (c : Char) : Bool :=
  let n := c.toNat
  n = 0x9 || n = 0xa || n = 0xd || (0x20 ≤ n && n ≤ 0x7e) || n = 0x85 ||
    (0xa0 ≤ n && n ≤ 0xd7ff) || (0xe000 ≤ n && n ≤ 0xfffd) || 0x10000 ≤ n

/-- Whether a character ends a line. -/
def isBreak (c : Char) : Bool :=
  c = '\n' || c = '\r' || c = '\x85' || c = '\u2028' || c = '\u2029'

/-- Whether a character ends a line or the text. -/
def isLineEnd (c : Char) : Bool :=
  isBreak c || c = finish

/-- Whether a character is a space or a tab, or ends a line or the text. -/
def isGap (c : Char) : Bool :=
  c = ' ' || c = '\t' || isLineEnd c

/-- Whether a character may stand in the name of an anchor or a directive. -/
def isNameChar (c : Char) : Bool :=
  c.isAlphanum || c = '-' || c = '_'

/-- Fails: the text is no YAML document. -/
def malformed {α : Type} : Except Fault α :=
  .error .notYaml

/-- What is left of a text, with the number of characters before it and its line and column. -/
structure Cursor where
  rest : List Char
  index : Nat := 0
  line : Nat := 0
  column : Nat := 0

namespace Cursor

/-- The character `n` places on. -/
def peekAt (c : Cursor) (n : Nat) : Char :=
  c.rest[n]?.getD finish

/-- The next character. -/
def peek (c : Cursor) : Char :=
  c.peekAt 0

/-- The cursor one character on. A byte order mark takes no column, and a carriage return before a
line feed does not end its line yet. -/
def step (c : Cursor) : Cursor :=
  match c.rest with
  | [] => c
  | ch :: rest =>
    if isBreak ch && !(ch = '\r' && rest.head? == some '\n') then
      ⟨rest, c.index + 1, c.line + 1, 0⟩
    else
      ⟨rest, c.index + 1, c.line, if ch = '\ufeff' then c.column else c.column + 1⟩

/-- The cursor `n` characters on. -/
def advance (c : Cursor) (n : Nat) : Cursor :=
  n.repeat step c

/-- The characters at the front that have a property, and the cursor after them. -/
def takeWhile (c : Cursor) (p : Char → Bool) : List Char × Cursor :=
  let cs := c.rest.takeWhile p
  (cs, c.advance cs.length)

/-- The cursor after the characters that have a property. -/
def skipWhile (c : Cursor) (p : Char → Bool) : Cursor :=
  (c.takeWhile p).2

/-- The cursor after the comment at the front, if there is one. -/
def skipComment (c : Cursor) : Cursor :=
  if c.peek = '#' then c.skipWhile (!isLineEnd ·) else c

/-- The line break at the front as the text it stands for, which is empty if there is none. -/
def lineBreak (c : Cursor) : List Char × Cursor :=
  let ch := c.peek
  if ch = '\r' && c.peekAt 1 = '\n' then (['\n'], c.advance 2)
  else if ch = '\u2028' || ch = '\u2029' then ([ch], c.step)
  else if isBreak ch then (['\n'], c.step)
  else ([], c)

/-- Whether the front is a line of three equal characters that parts documents. -/
def isMark (c : Cursor) (mark : Char) : Bool :=
  [mark, mark, mark].isPrefixOf c.rest && isGap (c.peekAt 3)

/-- Whether a document starts or ends at the front. -/
def isSeparator (c : Cursor) : Bool :=
  c.isMark '-' || c.isMark '.'

/-- The cursor after spaces and a comment that fill the line, and after its end. -/
def skipLine (c : Cursor) : Except Fault Cursor :=
  let c := (c.skipWhile (· = ' ')).skipComment
  if isLineEnd c.peek then .ok c.lineBreak.2 else malformed

end Cursor

end SimpleBinary.Yaml
