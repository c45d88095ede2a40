import SimpleBinary.Document.Yaml.Cursor
import SimpleBinary.Numeral.Integer

/-!
The texts of scalars: plain, quoted and block.

Lines are folded. Where a scalar goes on over several lines, one line end becomes a space, and of
several the first is left out. In a block the literal style keeps all line ends, and the folded one
keeps them beside lines that begin with a space.

While a scalar is read, `done` holds what it stands for so far, the last character first. Every step
takes a character at the least, so what is left of the text is fuel enough.
-/

set_option autoImplicit false

namespace SimpleBinary.Yaml

/-- A row of characters or code points that was read, and the cursor after it. -/
abbrev Scanned (α : Type) := List α × Cursor

/-- What a line end and the line ends after it stand for inside a flowing text. -/
def fold (first more : List Char) : List Char :=
  (if first ≠ ['\n'] then first else if more.isEmpty then [' '] else []) ++ more

/-! ## Plain scalars -/

/-- The characters of a plain scalar up to a space or an indicator. -/
def plainWord (inFlow : Bool) : List Char → List Char
  | [] => []
  | c :: rest =>
    let next := rest.head?.getD finish
    if isGap c || (c = ':' && (isGap next || (inFlow && [',', '[', ']', '\x7b', '\x7d'].contains next)))
        || (inFlow && [',', '?', '[', ']', '\x7b', '\x7d'].contains c) then
      []
    else
      c :: plainWord inFlow rest

/-- The line ends and spaces at the front of a plain scalar's next line: none if a document starts
or ends there. -/
def plainBreaks : (fuel done : List Char) → Cursor → Option (List Char) × Cursor
  | [], done, c => (some done.reverse, c)
  | _ :: fuel, done, c =>
    if c.peek = ' ' then
      plainBreaks fuel done c.step
    else if isBreak c.peek then
      let (br, c) := c.lineBreak
      if c.isSeparator then (none, c) else plainBreaks fuel (br ++ done) c
    else
      (some done.reverse, c)

/-- The white space between two words of a plain scalar: what it stands for, and whether a line ends
in it. -/
def plainSpaces (c : Cursor) : List Char × Bool × Cursor :=
  let (spaces, c) := c.takeWhile (· = ' ')
  if isBreak c.peek then
    let (first, c) := c.lineBreak
    if c.isSeparator then
      ([], true, c)
    else
      match plainBreaks c.rest [] c with
      | (some more, c) => (fold first more, true, c)
      | (none, c) => ([], true, c)
  else
    (spaces, false, c)

/-- The words of a plain scalar, the white space before the first one already read. The flag tells
whether a line has ended since the last word. -/
def plainWords (inFlow : Bool) (indent : Int) :
    (fuel done spaces : List Char) → (broken : Bool) → Cursor → List Char × Bool × Cursor
  | [], done, _, broken, c => (done.reverse, broken, c)
  | _ :: fuel, done, spaces, broken, c =>
    let word := if c.peek = '#' then [] else plainWord inFlow c.rest
    if word.isEmpty then
      (done.reverse, broken, c)
    else
      let done := word.reverseAux (spaces.reverseAux done)
      let (spaces, broken, c) := plainSpaces (c.advance word.length)
      if spaces.isEmpty || c.peek = '#' || (!inFlow && (c.column : Int) < indent) then
        (done.reverse, broken, c)
      else
        plainWords inFlow indent fuel done spaces broken c

/-- A plain scalar that stands to the right of `indent`. -/
def plainScalar (inFlow : Bool) (indent : Int) (c : Cursor) : List Char × Bool × Cursor :=
  plainWords inFlow indent (finish :: c.rest) [] [] false c

/-! ## Quoted scalars -/

/-- The characters that one character after a backslash stands for. -/
def shortEscapes : List (Char × Char) :=
  [('0', '\x00'), ('a', '\x07'), ('b', '\x08'), ('t', '\t'), ('\t', '\t'), ('n', '\n'),
    ('v', '\x0b'), ('f', '\x0c'), ('r', '\r'), ('e', '\x1b'), (' ', ' '), ('"', '"'),
    ('\\', '\\'), ('/', '/'), ('N', '\x85'), ('_', '\xa0'), ('L', '\u2028'), ('P', '\u2029')]

/-- The numbers of hexadecimal digits that three letters after a backslash announce. -/
def longEscapes : List (Char × Nat) :=
  [('x', 2), ('u', 4), ('U', 8)]

/-- The line ends at the front of a quoted scalar's next line. -/
def quotedBreaks : (fuel done : List Char) → Cursor → Except Fault (Scanned Char)
  | [], done, c => .ok (done.reverse, c)
  | _ :: fuel, done, c =>
    if c.isSeparator then
      malformed
    else
      let c := c.skipWhile fun ch => ch = ' ' || ch = '\t'
      if isBreak c.peek then
        let (br, c) := c.lineBreak
        quotedBreaks fuel (br ++ done) c
      else
        .ok (done.reverse, c)

/-- White space inside a quoted scalar: what it stands for. -/
def quotedSpaces (c : Cursor) : Except Fault (Scanned Char) := do
  let (spaces, c) := c.takeWhile fun ch => ch = ' ' || ch = '\t'
  if isBreak c.peek then
    let (first, c) := c.lineBreak
    let (more, c) ← quotedBreaks c.rest [] c
    return (fold first more, c)
  else
    return (spaces, c)

/-- The number that hexadecimal digits at the front stand for, if there are as many as asked. -/
def hexadecimal? (width : Nat) (cs : List Char) : Option Nat := do
  let ds ← (cs.take width).mapM (Numeral.digitIn? 16)
  if ds.length = width then some (Numeral.ofDigits 16 ds) else none

/-- The code point that an escaped number stands for. Halves of surrogate pairs stay apart, also when
one follows the other. -/
def codePointOf (n : Nat) : Except Fault CodePoint :=
  match CodePoint.ofNat? n with
  | some p => .ok p
  | none => .error (.notCharacter (0x7fffffff < n))

/-- An escape inside double quotes, its backslash already read: what it stands for. -/
def escape (c : Cursor) : Except Fault (Scanned CodePoint) := do
  match shortEscapes.lookup c.peek, longEscapes.lookup c.peek with
  | some ch, _ => return ([.char ch], c.step)
  | none, some width =>
    match hexadecimal? width c.step.rest with
    | some n => return ([← codePointOf n], c.advance (width + 1))
    | none => malformed
  | none, none =>
    if isBreak c.peek then
      let (_, c) := c.lineBreak
      let (more, c) ← quotedBreaks c.rest [] c
      return (Text.ofChars more, c)
    else
      malformed

/-- A quoted scalar up to its closing quote, after what is already read. -/
def quotedTail (quote : Char) :
    (fuel : List Char) → (done : Text) → Cursor → Except Fault (Scanned CodePoint)
  | [], _, _ => malformed
  | _ :: fuel, done, c => do
    let ch := c.peek
    if ch = finish then
      malformed
    else if ch = quote then
      if quote = '\'' && c.peekAt 1 = '\'' then quotedTail quote fuel (.char '\'' :: done) (c.advance 2)
      else return (done.reverse, c.step)
    else if isGap ch then
      let (more, c) ← quotedSpaces c
      quotedTail quote fuel ((Text.ofChars more).reverseAux done) c
    else if quote = '"' && ch = '\\' then
      let (more, c) ← escape c.step
      quotedTail quote fuel (more.reverseAux done) c
    else
      quotedTail quote fuel (.char ch :: done) c.step

/-- A quoted scalar. -/
def quotedScalar (c : Cursor) : Except Fault (Scanned CodePoint) :=
  quotedTail c.peek c.rest [] c.step

/-! ## Block scalars -/

/-- What becomes of the line ends after the last line of a block. -/
inductive Chomping
  | clip
  | strip
  | keep
  deriving DecidableEq

/-- The sign that says what becomes of the last line ends. -/
def chomping? (c : Char) : Option Chomping :=
  if c = '+' then some .keep else if c = '-' then some .strip else none

/-- The indentation that a digit asks for; zero is refused. -/
def increment? (c : Char) : Option Nat :=
  if c.isDigit then some (c.toNat - '0'.toNat) else none

/-- The two indicators after the sign of a block, in either order. -/
def blockIndicators (c : Cursor) : Except Fault (Chomping × Option Nat × Cursor) := do
  let (chomp, inc, c) := match chomping? c.peek, increment? c.peek with
    | some chomp, _ =>
      match increment? c.step.peek with
      | some inc => (chomp, some inc, c.advance 2)
      | none => (chomp, none, c.step)
    | none, some inc =>
      match chomping? c.step.peek with
      | some chomp => (chomp, some inc, c.advance 2)
      | none => (.clip, some inc, c.step)
    | none, none => (.clip, none, c)
  if inc = some 0 || !(c.peek = ' ' || isLineEnd c.peek) then
    malformed
  else
    return (chomp, inc, c)

/-- The empty lines at the front of a block, and the furthest column that their spaces reach. -/
def blockMargin : (fuel done : List Char) → (furthest : Nat) → Cursor → List Char × Nat × Cursor
  | [], done, furthest, c => (done.reverse, furthest, c)
  | _ :: fuel, done, furthest, c =>
    if c.peek = ' ' then
      blockMargin fuel done (max furthest c.step.column) c.step
    else if isBreak c.peek then
      let (br, c) := c.lineBreak
      blockMargin fuel (br ++ done) furthest c
    else
      (done.reverse, furthest, c)

/-- The cursor after the spaces in front of a block's column. -/
def skipIndent (indent : Nat) (c : Cursor) : Cursor :=
  let spaces := (c.rest.takeWhile (· = ' ')).length
  c.advance (min spaces (indent - c.column))

/-- The empty lines between two lines of a block. -/
def blockBreaks (indent : Nat) : (fuel done : List Char) → Cursor → Scanned Char
  | [], done, c => (done.reverse, c)
  | _ :: fuel, done, c =>
    let c := skipIndent indent c
    if isBreak c.peek then
      let (br, c) := c.lineBreak
      blockBreaks indent fuel (br ++ done) c
    else
      (done.reverse, c)

/-- The lines of a block after those already read, and the line ends after the last of them. -/
def blockLines (folded : Bool) (indent : Nat) :
    (fuel done last more : List Char) → Cursor → List Char × List Char × List Char × Cursor
  | [], done, last, more, c => (done.reverse, last, more, c)
  | _ :: fuel, done, _, more, c =>
    let indented := c.peek = ' ' || c.peek = '\t'
    let (line, c) := c.takeWhile (!isLineEnd ·)
    let done := line.reverseAux (more.reverseAux done)
    let (last, c) := c.lineBreak
    let (more, c) := blockBreaks indent (finish :: c.rest) [] c
    if c.column = indent && c.peek ≠ finish then
      let joint :=
        if folded && last = ['\n'] && !indented && !(c.peek = ' ' || c.peek = '\t') then
          if more.isEmpty then [' '] else []
        else
          last
      blockLines folded indent fuel (joint ++ done) last more c
    else
      (done.reverse, last, more, c)

/-- A block scalar inside a collection that stands at column `parent`. -/
def blockScalar (folded : Bool) (parent : Int) (c : Cursor) : Except Fault (Scanned Char) := do
  let (chomp, inc, c) ← blockIndicators c.step
  let c ← c.skipLine
  let least := max 1 (parent + 1).toNat
  let (more, indent, c) := match inc with
    | some inc =>
      let indent := least + inc - 1
      let (more, c) := blockBreaks indent (finish :: c.rest) [] c
      (more, indent, c)
    | none =>
      let (more, furthest, c) := blockMargin c.rest [] 0 c
      (more, max least furthest, c)
  let (done, last, more, c) :=
    if c.column = indent && c.peek ≠ finish then
      blockLines folded indent (finish :: c.rest) [] [] more c
    else
      ([], [], more, c)
  let tail := match chomp with
    | .strip => []
    | .clip => last
    | .keep => last ++ more
  return (done ++ tail, c)

end SimpleBinary.Yaml
