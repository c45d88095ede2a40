import SimpleBinary.Text.Basic

/-!
Texts as bytes.

A text is encoded in UTF-8 as far as its code points are characters. The halves of surrogate pairs
have no bytes, and the first of them that stand together are what keeps a text from being encoded. In
the name of a file the halves U+DC80 to U+DCFF stand for single bytes that are no UTF-8, so that every
row of bytes is the name of some text, and the text of a name is found again from its bytes.
-/

set_option autoImplicit false

namespace SimpleBinary

/-- Code points that cannot be encoded: the number of those before them, the first of them, and how
many stand together. -/
structure Unencodable where
  start : Nat
  first : CodePoint
  count : Nat
  deriving DecidableEq, Repr

namespace CodePoint

/-- The byte that a half stands for in the name of a file. -/
def loneByte? : CodePoint → Option UInt8
  | .char _ => none
  | .half offset =>
    let n := firstHalf + offset
    if 0xdc80 ≤ n && n ≤ 0xdcff then some (n - 0xdc00).toUInt8 else none

/-- The half that stands for a byte. -/
def ofLoneByte (b : UInt8) : CodePoint :=
  .half ⟨0x400 + b.toNat, by have := b.toNat_lt; omega⟩

/-- The bytes of a code point in the name of a file. A half that stands for no byte has none. -/
def nameBytes : CodePoint → List UInt8
  | .char c => String.utf8EncodeChar c
  | .half offset => (loneByte? (.half offset)).toList

end CodePoint

namespace Text

/-- The bytes of the characters of a text. -/
def utf8 (t : Text) : List UInt8 :=
  t.chars.flatMap String.utf8EncodeChar

/-- The first code points that cannot be encoded, after the given number of others. The halves for
which `isByte` holds are no such, unless they stand behind one that is. -/
def unencodableFrom (isByte : CodePoint → Bool) (start : Nat) : Text → Option Unencodable
  | [] => none
  | p :: rest =>
    if p.isHalf && !isByte p then
      some ⟨start, p, (rest.takeWhile CodePoint.isHalf).length + 1⟩
    else
      unencodableFrom isByte (start + 1) rest

/-- What keeps a text from being encoded. -/
def unencodable? (t : Text) : Option Unencodable :=
  unencodableFrom (fun _ => false) 0 t

/-- What keeps a text from being the name of a file. -/
def unencodableName? (t : Text) : Option Unencodable :=
  unencodableFrom (fun p => p.loneByte?.isSome) 0 t

/-- The bytes of a text, or what keeps it from being encoded. -/
def encode (t : Text) : Except Unencodable (List UInt8) :=
  match t.unencodable? with
  | some problem => .error problem
  | none => .ok t.utf8

/-- The bytes of the name of a file. -/
def nameBytes (t : Text) : List UInt8 :=
  t.flatMap CodePoint.nameBytes

/-- A character at the front of some bytes, with the number of its bytes. -/
def charAt? (bytes : List UInt8) : Option (Char × Nat) :=
  [1, 2, 3, 4].findSome? fun n => do
    let s ← String.fromUTF8? ⟨(bytes.take n).toArray⟩
    match s.toList with
    | [c] => some (c, n)
    | _ => none

/-- The text that the bytes of a name stand for. Every step takes a byte at the least, so the bytes
are fuel enough. -/
def ofNameBytes : (fuel bytes : List UInt8) → Text
  | [], _ => []
  | _, [] => []
  | _ :: fuel, b :: rest =>
    match charAt? (b :: rest) with
    | some (c, n) => .char c :: ofNameBytes fuel ((b :: rest).drop n)
    | none => .ofLoneByte b :: ofNameBytes fuel rest

/-- The text by which the name of a file is shown: another text may have the same bytes. -/
def asName (t : Text) : Text :=
  if t.isPlain then t else ofNameBytes t.nameBytes t.nameBytes

theorem unencodableFrom_ofChars (isByte : CodePoint → Bool) (start : Nat) (cs : List Char) :
    unencodableFrom isByte start (ofChars cs) = none := by
  induction cs generalizing start with
  | nil => rfl
  | cons c cs ih => simpa [ofChars, unencodableFrom, CodePoint.isHalf] using ih (start + 1)

end Text

end SimpleBinary
