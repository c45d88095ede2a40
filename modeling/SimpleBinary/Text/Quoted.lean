import SimpleBinary.Text.Printable

/-!
Quoted text and quoted bytes, in the notation of the generated source.

Text stands between single quotes, or between double quotes where it holds a single quote and no
double one. Inside, the backslash and the quote in use are written after a backslash, the tab and
the two line ends as `\t`, `\n` and `\r`, and what is not printable as `\x`, `\u` or `\U` with two,
four or eight hexadecimal digits. So quoted text holds characters only. Bytes are written alike after
a `b`, each byte that is not printable ASCII as `\x` with two digits.
-/

set_option autoImplicit false

namespace SimpleBinary.Text

/-- The number in hexadecimal, its last `width` digits. -/
def hex : (width : Nat) → Nat → List Char
  | 0, _ => []
  | width + 1, n => hex width (n / 16) ++ [Nat.digitChar (n % 16)]

theorem length_hex (width n : Nat) : (hex width n).length = width := by
  induction width generalizing n with
  | zero => rfl
  | succ width ih => simp [hex, ih]

/-- The quote that a text is written between. -/
def quoteFor (cs : List Char) : Char :=
  if cs.contains '\'' && !cs.contains '"' then '"' else '\''

/-- A number as it is written where its code point is not shown. -/
def escapeNumber (n : Nat) : List Char :=
  if n ≤ 0xff then '\\' :: 'x' :: hex 2 n
  else if n ≤ 0xffff then '\\' :: 'u' :: hex 4 n
  else '\\' :: 'U' :: hex 8 n

/-- One code point inside quoted text. -/
def escapePoint (quote : Char) (p : CodePoint) : List Char :=
  let c := p.toChar
  if c = quote || c = '\\' then ['\\', c]
  else if c = '\t' then ['\\', 't']
  else if c = '\n' then ['\\', 'n']
  else if c = '\r' then ['\\', 'r']
  else if (0x20 ≤ p.toNat && p.toNat < 0x7f) || isPrintable p then [c]
  else escapeNumber p.toNat

/-- The characters of a text in quotes. -/
def quotedChars (t : Text) : List Char :=
  let quote := quoteFor t.chars
  quote :: (t.flatMap (escapePoint quote) ++ [quote])

/-- A text in quotes. -/
def quoted (t : Text) : String :=
  String.ofList (quotedChars t)

/-- One byte inside quoted bytes. -/
def escapeByte (quote : Char) (b : UInt8) : List Char :=
  let c := Char.ofNat b.toNat
  if c = quote || c = '\\' then ['\\', c]
  else if c = '\t' then ['\\', 't']
  else if c = '\n' then ['\\', 'n']
  else if c = '\r' then ['\\', 'r']
  else if b.toNat < 0x20 || 0x7f ≤ b.toNat then '\\' :: 'x' :: hex 2 b.toNat
  else [c]

/-- Bytes in quotes. A byte of ASCII is its character in the choice between the two quotes. -/
def quotedBytes (bytes : List UInt8) : String :=
  let quote := quoteFor (bytes.map fun b => Char.ofNat b.toNat)
  String.ofList ('b' :: quote :: (bytes.flatMap (escapeByte quote) ++ [quote]))

end SimpleBinary.Text
