/-!
Texts.

A text is a row of code points. Nearly all of them are characters, but an escape in a document may
also name one half of a surrogate pair. A half is a code point and no character: it can be kept,
compared and spelled, it belongs to no class of characters, and it cannot be encoded. So a text whose
code points are all characters is a `String`, and `toString?` says which texts are.
-/

set_option autoImplicit false

namespace SimpleBinary

/-- A code point: a character, or half of a surrogate pair by its distance from the first one. -/
inductive CodePoint
  | char (c : Char)
  | half (offset : Fin 2048)
  deriving DecidableEq, Repr

namespace CodePoint

instance : Coe Char CodePoint := ⟨.char⟩

/-- The number of the first half. -/
def firstHalf : Nat := 0xd800

/-- The number of a code point. -/
def toNat : CodePoint → Nat
  | .char c => c.toNat
  | .half offset => firstHalf + offset

/-- The code point of a number. The numbers from 0x110000 on have none. -/
def ofNat? (n : Nat) : Option CodePoint :=
  if h : firstHalf ≤ n ∧ n < firstHalf + 2048 then some (.half ⟨n - firstHalf, by omega⟩)
  else if h : n.isValidChar then some (.char (Char.ofNatAux n h))
  else none

/-- Whether a code point is half of a surrogate pair. -/
def isHalf : CodePoint → Bool
  | .char _ => false
  | .half _ => true

/-- The character of a code point. A half has none, and the replacement character, which belongs to
no class either, stands in for it. -/
def toChar : CodePoint → Char
  | .char c => c
  | .half _ => '\ufffd'

theorem toNat_char (c : Char) : (char c).toNat = c.toNat := rfl

end CodePoint

/-- A text. -/
abbrev Text := List CodePoint

namespace Text

/-- The text of some characters. -/
def ofChars (cs : List Char) : Text :=
  cs.map .char

/-- A string as a text. -/
def ofString (s : String) : Text :=
  ofChars s.toList

instance : Coe String Text := ⟨ofString⟩

/-- The characters of a text, with replacement characters for the halves. -/
def chars (t : Text) : List Char :=
  t.map CodePoint.toChar

/-- A text as a string, with replacement characters for the halves. -/
def plain (t : Text) : String :=
  String.ofList t.chars

/-- Whether all code points of a text are characters. -/
def isPlain (t : Text) : Bool :=
  t.all fun p => !p.isHalf

/-- A text as a string, if all its code points are characters. -/
def toString? (t : Text) : Option String :=
  if t.isPlain then some t.plain else none

/-- Texts with another one between them. -/
def join (between : Text) (texts : List Text) : Text :=
  between.intercalate texts

/-- Whether a text is another one or comes before it, by the numbers of their code points. -/
def isAtMost : Text → Text → Bool
  | [], _ => true
  | _ :: _, [] => false
  | p :: s, q :: t => p.toNat < q.toNat || (p == q && isAtMost s t)

theorem chars_ofChars (cs : List Char) : (ofChars cs).chars = cs := by
  induction cs with
  | nil => rfl
  | cons c cs ih =>
    show c :: (ofChars cs).chars = c :: cs
    rw [ih]

theorem isPlain_ofChars (cs : List Char) : (ofChars cs).isPlain = true := by
  simp [isPlain, ofChars, CodePoint.isHalf]

theorem plain_ofString (s : String) : (ofString s).plain = s := by
  simp [plain, ofString, chars_ofChars]

theorem toString?_ofString (s : String) : (ofString s).toString? = some s := by
  rw [toString?, if_pos (show (ofString s).isPlain = true from isPlain_ofChars _), plain_ofString]

/-- Strings are told apart as texts. -/
theorem ofString_inj {s t : String} : ofString s = ofString t ↔ s = t := by
  constructor
  · intro h
    rw [← plain_ofString s, h, plain_ofString]
  · rintro rfl
    rfl

end Text

end SimpleBinary
