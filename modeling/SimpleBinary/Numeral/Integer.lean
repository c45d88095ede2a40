import SimpleBinary.Text.Blank
import SimpleBinary.Text.Digit

/-!
Reading integers.

A numeral may stand between blanks, may begin with a sign, may be written in the decimal digits of
any script, and may hold single underscores between its digits. A *literal* may name its base by a
prefix, `0x`, `0o` or `0b`, which one underscore may follow, and has no leading zeros otherwise; a
*decimal* numeral has no prefix, and leading zeros mean nothing. The base can also be known from
elsewhere, and its prefix need not be there then.

Reading and writing in base ten take time that grows with the square of the number of digits, so both
stop at a limit. A text that begins with a longer run of digits is refused for its length, whatever
comes after the run.
-/

set_option autoImplicit false

namespace SimpleBinary.Numeral

open SimpleBinary.Text

/-- The greatest number of decimal digits of an integer that is read or written. -/
def digitLimit : Nat := 4300

/-- Whether an integer can be written in base ten. -/
def isWritable (n : Int) : Bool :=
  n.natAbs < Nat.pow 10 digitLimit

/-- The decimal digits of an integer with its sign, if it can be written. -/
def written? (n : Int) : Option String :=
  if isWritable n then some (toString n) else none

/-- Why a text stands for no integer. -/
inductive Problem
  | malformed
  /-- There are more decimal digits than are read. -/
  | long (digits : Nat)
  deriving DecidableEq, Repr

/-- The spellings of an integer. -/
inductive Notation
  /-- Decimal digits only, as an attribute that counts is given. -/
  | decimal
  /-- A prefix may name the base, as a value is given in a schema. -/
  | literal
  /-- Digits of a base, whose prefix may come first. -/
  | based (base : Nat)
  deriving DecidableEq, Repr

/-- Whether a blank may stand beside a numeral: all but the four information separators. -/
def isMargin (p : CodePoint) : Bool :=
  isBlank p && !(0x1c ≤ p.toNat && p.toNat ≤ 0x1f)

/-- The numeral without the blanks beside it. -/
def trimMargin (t : Text) : Text :=
  ((t.dropWhile isMargin).reverse.dropWhile isMargin).reverse

/-- The ASCII digit of the same value for a decimal digit, and any other character unchanged. -/
def plainDigit (p : CodePoint) : Char :=
  match decimalValue? p with
  | some d => Nat.digitChar d
  | none => p.toChar

/-- What is between the blanks, in ASCII digits. -/
def plain (t : Text) : List Char :=
  (trimMargin t).map plainDigit

/-- The value of an ASCII digit or letter as a digit. -/
def digitOf? (c : Char) : Option Nat :=
  if '0' ≤ c && c ≤ '9' then some (c.toNat - '0'.toNat)
  else if 'a' ≤ c && c ≤ 'z' then some (c.toNat - 'a'.toNat + 10)
  else if 'A' ≤ c && c ≤ 'Z' then some (c.toNat - 'A'.toNat + 10)
  else none

/-- The value of a character as a digit of the base. -/
def digitIn? (base : Nat) (c : Char) : Option Nat :=
  (digitOf? c).filter (· < base)

/-- The digits of a numeral that holds at least one of them, and single underscores between them. -/
def digits? (base : Nat) : List Char → Option (List Nat)
  | [] => none
  | [c] => (digitIn? base c).map ([·])
  | c :: '_' :: rest => do
    let d ← digitIn? base c
    let ds ← digits? base rest
    some (d :: ds)
  | c :: c' :: rest => do
    let d ← digitIn? base c
    let ds ← digits? base (c' :: rest)
    some (d :: ds)

/-- The number that digits stand for, the most significant first. -/
def ofDigits (base : Nat) (ds : List Nat) : Nat :=
  ds.foldl (fun n d => n * base + d) 0

/-- The number that a run of digits stands for. -/
def inBase? (base : Nat) (cs : List Char) : Option Nat :=
  (digits? base cs).map (ofDigits base)

/-- The base that the letter of a prefix names. -/
def baseOf? (c : Char) : Option Nat :=
  if c = 'x' || c = 'X' then some 16
  else if c = 'o' || c = 'O' then some 8
  else if c = 'b' || c = 'B' then some 2
  else none

/-- The digits after a prefix, without the underscore that may come first. -/
def afterPrefix : List Char → List Char
  | '_' :: rest => rest
  | rest => rest

/-- The number of digits in the run at the front of a text: digits of base ten, with single
underscores between them. There is none if an underscore stands elsewhere in the run. -/
def runLength? (afterDigit : Bool) : List Char → Option Nat
  | [] => if afterDigit then some 0 else none
  | c :: rest =>
    if (digitIn? 10 c).isSome then (runLength? true rest).map (· + 1)
    else if c = '_' then if afterDigit then runLength? false rest else none
    else if afterDigit then some 0
    else none

/-- The number that a run of decimal digits stands for. -/
def inBaseTen (cs : List Char) : Except Problem Nat :=
  let length := (runLength? false cs).getD 0
  if digitLimit < length then
    .error (.long length)
  else
    match inBase? 10 cs with
    | some n => .ok n
    | none => .error .malformed

/-- An unsigned literal. A zero in front is the start of a prefix or a digit of a numeral that holds
zeros alone. -/
def unsignedLiteral : List Char → Except Problem Nat
  | '0' :: c :: rest =>
    match baseOf? c with
    | some base =>
      match inBase? base (afterPrefix rest) with
      | some n => .ok n
      | none => .error .malformed
    | none => do
      let n ← inBaseTen ('0' :: c :: rest)
      if n = 0 then return 0 else throw .malformed
  | cs => inBaseTen cs

/-- The text after the prefix of a base, if that comes first. -/
def withoutPrefix (base : Nat) : List Char → List Char
  | '0' :: c :: rest => if baseOf? c = some base then afterPrefix rest else '0' :: c :: rest
  | cs => cs

/-- An unsigned numeral in a notation. -/
def unsigned : Notation → List Char → Except Problem Nat
  | .decimal, cs => inBaseTen cs
  | .literal, cs => unsignedLiteral cs
  | .based base, cs =>
    match inBase? base (withoutPrefix base cs) with
    | some n => .ok n
    | none => .error .malformed

/-- A numeral with or without a sign. -/
def signed (style : Notation) : List Char → Except Problem Int
  | '-' :: rest => (unsigned style rest).map fun n => -(n : Int)
  | '+' :: rest => (unsigned style rest).map Int.ofNat
  | cs => (unsigned style cs).map Int.ofNat

/-- The integer that a numeral stands for. -/
def integer (style : Notation) (t : Text) : Except Problem Int :=
  signed style (plain t)

end SimpleBinary.Numeral
