import SimpleBinary.Document.Yaml.Scalar
import SimpleBinary.Document.Yaml.Tag

/-!
The lexemes of a YAML document.

Indentation is made explicit: a block collection begins with a lexeme of its own and ends with
another. A mapping may begin at a scalar that only its colon shows to be a key, so a place where a
key may have begun is kept until the line ends or 1024 characters have gone by, and when the colon
comes the lexemes of the key are put in at that place.

A text may go wrong after lexemes that stand for themselves. Those before the first place where a key
may have begun are known by then, and the fault is met where the next one is asked for.
-/

set_option autoImplicit false

namespace SimpleBinary.Yaml

/-- A lexeme. -/
inductive Lexeme
  /-- A version directive, with the number before the point. -/
  | version (major : Nat)
  /-- A directive for a handle of tags, with the beginning of a name that it stands for. -/
  | tagHandle (handle start : String)
  | otherDirective
  | documentStart
  | documentEnd
  | blockSequenceStart
  | blockMappingStart
  | blockEnd
  | flowSequenceStart
  | flowSequenceEnd
  | flowMappingStart
  | flowMappingEnd
  | blockEntry
  | flowEntry
  | key
  | value
  | reference (name : String)
  | anchor (name : String)
  | tag (written : WrittenTag)
  | scalar (text : Text) (plain : Bool)

/-- A place where a key may have begun: the number of lexemes before it, whether only a key may
stand there, and its place in the text. -/
structure KeyPlace where
  lexemes : Nat
  required : Bool
  index : Nat
  line : Nat
  column : Nat

/-- How far a document has been read. `lexemes` holds the lexemes so far, the last first, and `count`
their number. `keys` holds at most one place for each depth of flow collections, and `indents` the
columns of the block collections around the current one. -/
structure Lexer where
  cursor : Cursor
  lexemes : List Lexeme := []
  count : Nat := 0
  flowDepth : Nat := 0
  indent : Int := -1
  indents : List Int := []
  keyAllowed : Bool := true
  keys : List (Nat × KeyPlace) := []

namespace Lexer

/-- The lexer with a lexeme more. -/
def emit (lx : Lexer) (lexeme : Lexeme) : Lexer :=
  { lx with lexemes := lexeme :: lx.lexemes, count := lx.count + 1 }

/-- The lexer with a lexeme put in after a number of lexemes. -/
def insert (lx : Lexer) (place : Nat) (lexeme : Lexeme) : Lexer :=
  { lx with
    lexemes := lx.lexemes.insertIdx (lx.count - place) lexeme
    count := lx.count + 1 }

/-- The lexer with its cursor moved. -/
def move (lx : Lexer) (c : Cursor) : Lexer :=
  { lx with cursor := c }

/-- The column of the cursor. -/
def column (lx : Lexer) : Int :=
  lx.cursor.column

/-- Whether the cursor is outside all flow collections. -/
def inBlock (lx : Lexer) : Bool :=
  lx.flowDepth = 0

/-- Forgets the places whose line has ended or that are too far back. -/
def dropStaleKeys (lx : Lexer) : Except Fault Lexer :=
  let isStale (place : KeyPlace) :=
    place.line ≠ lx.cursor.line || 1024 < lx.cursor.index - place.index
  if lx.keys.any fun (_, place) => isStale place && place.required then
    malformed
  else
    .ok { lx with keys := lx.keys.filter fun (_, place) => !isStale place }

/-- Forgets the place at the current depth. -/
def dropKey (lx : Lexer) : Except Fault Lexer :=
  match lx.keys.lookup lx.flowDepth with
  | some place =>
    if place.required then malformed
    else .ok { lx with keys := lx.keys.filter fun (depth, _) => depth ≠ lx.flowDepth }
  | none => .ok lx

/-- Keeps the place of the cursor, where a key may begin. -/
def saveKey (lx : Lexer) : Except Fault Lexer := do
  if lx.keyAllowed then
    let required := lx.inBlock && lx.indent = lx.column
    let lx ← lx.dropKey
    let c := lx.cursor
    return { lx with keys := (lx.flowDepth, ⟨lx.count, required, c.index, c.line, c.column⟩)
                        :: lx.keys }
  else
    return lx

/-- Ends the block collections that stand to the right of a column. -/
def unwind (lx : Lexer) (column : Int) : Lexer :=
  if lx.inBlock then go lx.indents lx else lx
where
  go : List Int → Lexer → Lexer
    | [], lx => lx
    | outer :: rest, lx =>
      if column < lx.indent then
        go rest { (lx.emit .blockEnd) with indent := outer, indents := rest }
      else
        lx

/-- Whether a block collection begins at a column, and the lexer inside it if so. -/
def enter (lx : Lexer) (column : Int) : Bool × Lexer :=
  if lx.indent < column then
    (true, { lx with indents := lx.indent :: lx.indents, indent := column })
  else
    (false, lx)

/-- Begins a block collection at the cursor, unless one begins there already. -/
def enterHere (lx : Lexer) (lexeme : Lexeme) : Lexer :=
  match lx.enter lx.column with
  | (true, lx) => lx.emit lexeme
  | (false, lx) => lx

/-- Passes over white space, comments and line ends. A key may begin on a new line of a block. Every
round but the last ends a line, so what is left of the text is fuel enough. -/
def skipGaps (lx : Lexer) : Lexer :=
  let start := if lx.cursor.index = 0 && lx.cursor.peek = '\ufeff' then lx.cursor.step else lx.cursor
  go (finish :: start.rest) (lx.move start)
where
  go : (fuel : List Char) → Lexer → Lexer
    | [], lx => lx
    | _ :: fuel, lx =>
      let c := (lx.cursor.skipWhile (· = ' ')).skipComment
      if isBreak c.peek then
        go fuel { (lx.move c.lineBreak.2) with keyAllowed := lx.keyAllowed || lx.inBlock }
      else
        lx.move c

/-- The digits of a number in a version, and the cursor after them. -/
def versionNumber (c : Cursor) : Except Fault (Nat × Cursor) :=
  let (ds, c) := c.takeWhile Char.isDigit
  match Numeral.inBaseTen ds with
  | .ok n => .ok (n, c)
  | .error (.long digits) => .error (.longNumeral digits)
  | .error .malformed => malformed

/-- A directive. -/
def directive (lx : Lexer) : Except Fault Lexer := do
  let (name, c) := lx.cursor.step.takeWhile isNameChar
  if name.isEmpty || !c.isBeforeSpace then
    malformed
  else if name = ['Y', 'A', 'M', 'L'] then
    let (major, c) ← versionNumber (c.skipWhile (· = ' '))
    if c.peek ≠ '.' then
      malformed
    else
      let (_, c) ← versionNumber c.step
      if c.isBeforeSpace then
        return (lx.emit (.version major)).move (← c.skipLine)
      else
        malformed
  else if name = ['T', 'A', 'G'] then
    let (handle, c) ← (c.skipWhile (· = ' ')).tagHandle
    if c.peek ≠ ' ' then
      malformed
    else
      let (start, c) ← (c.skipWhile (· = ' ')).tagName
      if c.isBeforeSpace then
        return (lx.emit (.tagHandle handle start)).move (← c.skipLine)
      else
        malformed
  else
    return (lx.emit .otherDirective).move (← (c.skipWhile (!isLineEnd ·)).skipLine)

/-- An anchor or a reference to one. -/
def named (lx : Lexer) (lexeme : String → Lexeme) : Except Fault Lexer := do
  let lx ← lx.saveKey
  let (name, c) := lx.cursor.step.takeWhile isNameChar
  let ends := isGap c.peek || ['?', ':', ',', ']', '\x7d', '%', '@', '\x60'].contains c.peek
  if name.isEmpty || !ends then
    malformed
  else
    return { (lx.emit (lexeme (String.ofList name))).move c with keyAllowed := false }

/-- A tag. -/
def tagged (lx : Lexer) : Except Fault Lexer := do
  let lx ← lx.saveKey
  let (written, c) ← lx.cursor.tag
  return { (lx.emit (.tag written)).move c with keyAllowed := false }

/-- The start of a flow collection. -/
def flowStart (lx : Lexer) (lexeme : Lexeme) : Except Fault Lexer := do
  let lx ← lx.saveKey
  return { (lx.emit lexeme).move lx.cursor.step with
            flowDepth := lx.flowDepth + 1, keyAllowed := true }

/-- The end of a flow collection. -/
def flowEnd (lx : Lexer) (lexeme : Lexeme) : Except Fault Lexer := do
  let lx ← lx.dropKey
  return { (lx.emit lexeme).move lx.cursor.step with
            flowDepth := lx.flowDepth - 1, keyAllowed := false }

/-- A comma in a flow collection. -/
def flowEntry (lx : Lexer) : Except Fault Lexer := do
  let lx ← lx.dropKey
  return { (lx.emit .flowEntry).move lx.cursor.step with keyAllowed := true }

/-- A dash in front of an item of a block sequence. -/
def blockEntry (lx : Lexer) : Except Fault Lexer := do
  if lx.inBlock && !lx.keyAllowed then
    malformed
  else
    let lx := if lx.inBlock then lx.enterHere .blockSequenceStart else lx
    let lx ← lx.dropKey
    return { (lx.emit .blockEntry).move lx.cursor.step with keyAllowed := true }

/-- A question mark in front of a key. -/
def complexKey (lx : Lexer) : Except Fault Lexer := do
  if lx.inBlock && !lx.keyAllowed then
    malformed
  else
    let lx := if lx.inBlock then lx.enterHere .blockMappingStart else lx
    let lx ← lx.dropKey
    return { (lx.emit .key).move lx.cursor.step with keyAllowed := lx.inBlock }

/-- A colon between a key and its value. -/
def value (lx : Lexer) : Except Fault Lexer := do
  match lx.keys.lookup lx.flowDepth with
  | some place =>
    let lx := { lx.insert place.lexemes .key with
      keys := lx.keys.filter fun (depth, _) => depth ≠ lx.flowDepth
      keyAllowed := false }
    let lx := if lx.inBlock then
        match lx.enter place.column with
        | (true, lx) => lx.insert place.lexemes .blockMappingStart
        | (false, lx) => lx
      else
        lx
    return (lx.emit .value).move lx.cursor.step
  | none =>
    if lx.inBlock && !lx.keyAllowed then
      malformed
    else
      let lx := if lx.inBlock then lx.enterHere .blockMappingStart else lx
      return { (lx.emit .value).move lx.cursor.step with keyAllowed := lx.inBlock }

/-- The start or end of a document. -/
def separator (lx : Lexer) (lexeme : Lexeme) : Except Fault Lexer := do
  let lx ← (lx.unwind (-1)).dropKey
  return { (lx.emit lexeme).move (lx.cursor.advance 3) with keyAllowed := false }

/-- A block scalar. -/
def block (lx : Lexer) (folded : Bool) : Except Fault Lexer := do
  let lx ← lx.dropKey
  let (text, c) ← blockScalar folded lx.indent lx.cursor
  return { (lx.emit (.scalar (.ofChars text) false)).move c with keyAllowed := true }

/-- A quoted scalar. -/
def quoted (lx : Lexer) : Except Fault Lexer := do
  let lx ← lx.saveKey
  let (text, c) ← quotedScalar lx.cursor
  return { (lx.emit (.scalar text false)).move c with keyAllowed := false }

/-- A plain scalar. A key may begin after it if its line has ended. -/
def plain (lx : Lexer) : Except Fault Lexer := do
  let lx ← lx.saveKey
  let (text, broken, c) := plainScalar (!lx.inBlock) (lx.indent + 1) lx.cursor
  return { (lx.emit (.scalar (.ofChars text) true)).move c with keyAllowed := broken }

/-- Whether a plain scalar may begin at the cursor. -/
def startsPlain (lx : Lexer) : Bool :=
  let ch := lx.cursor.peek
  let indicators := ['-', '?', ':', ',', '[', ']', '\x7b', '\x7d', '#', '&', '*', '!', '|', '>',
    '\'', '"', '%', '@', '\x60']
  (!isGap ch && !indicators.contains ch) ||
    (!isGap (lx.cursor.peekAt 1) && (ch = '-' || (lx.inBlock && (ch = '?' || ch = ':'))))

/-- The next lexeme and those that come with it. -/
def next (lx : Lexer) : Except Fault Lexer :=
  let c := lx.cursor
  let ch := c.peek
  let gapFollows := !lx.inBlock || isGap (c.peekAt 1)
  if ch = '%' && c.column = 0 then do ((lx.unwind (-1)).dropKey >>= fun lx =>
    directive { lx with keyAllowed := false })
  else if c.column = 0 && c.isMark '-' then lx.separator .documentStart
  else if c.column = 0 && c.isMark '.' then lx.separator .documentEnd
  else if ch = '[' then lx.flowStart .flowSequenceStart
  else if ch = '\x7b' then lx.flowStart .flowMappingStart
  else if ch = ']' then lx.flowEnd .flowSequenceEnd
  else if ch = '\x7d' then lx.flowEnd .flowMappingEnd
  else if ch = ',' then lx.flowEntry
  else if ch = '-' && isGap (c.peekAt 1) then lx.blockEntry
  else if ch = '?' && gapFollows then lx.complexKey
  else if ch = ':' && gapFollows then lx.value
  else if ch = '*' then lx.named .reference
  else if ch = '&' then lx.named .anchor
  else if ch = '!' then lx.tagged
  else if ch = '|' && lx.inBlock then lx.block false
  else if ch = '>' && lx.inBlock then lx.block true
  else if ch = '\'' || ch = '"' then lx.quoted
  else if lx.startsPlain then lx.plain
  else malformed

/-- The lexer at the front of the next lexeme, with the block collections ended that end there. -/
def settle (lx : Lexer) : Except Fault Lexer := do
  let lx ← lx.skipGaps.dropStaleKeys
  return lx.unwind lx.column

/-- The lexer after the last lexeme. -/
def ended (lx : Lexer) : Except Fault Lexer :=
  (lx.unwind (-1)).dropKey

/-- The number of lexemes that no key can be put in before any more. -/
def settled (lx : Lexer) : Nat :=
  lx.keys.foldl (fun n (_, place) => min n place.lexemes) lx.count

end Lexer

/-- The lexemes of a text that are known, and the fault after them, if there is one. -/
structure Lexemes where
  items : List Lexeme
  ending : Option Fault := none

namespace Lexer

/-- The lexemes that are known when the text goes wrong. -/
def broken (lx : Lexer) (fault : Fault) : Lexemes where
  items := lx.lexemes.reverse.take lx.settled
  ending := some fault

/-- All lexemes up to the end of the text. -/
def run : (fuel : Nat) → Lexer → Lexemes
  | 0, lx => lx.broken .notYaml
  | fuel + 1, lx =>
    match lx.dropStaleKeys with
    | .error fault => lx.broken fault
    | .ok lx =>
      match lx.settle with
      | .error fault => lx.broken fault
      | .ok next =>
        if next.cursor.peek = finish then
          match next.ended with
          | .ok next => { items := next.lexemes.reverse }
          | .error fault => lx.broken fault
        else
          match next.next with
          | .ok next => run fuel next
          | .error fault => lx.broken fault

end Lexer

/-- The lexemes of a document. Each takes a character at the least, so the fuel lasts. -/
def Lexemes.ofText (text : List Char) : Lexemes :=
  if text.all isAdmitted then
    Lexer.run (text.length + 1) { cursor := { rest := text } }
  else
    { items := [], ending := some .notYaml }

end SimpleBinary.Yaml
