import SimpleBinary.Text.Case.Table

/-!
Upper and lower case of whole texts.

A character becomes the characters that the case tables give, so a text may grow: `ß` becomes `SS`.
One letter looks at its neighbours. A capital sigma becomes `ς` where it closes a word, that is,
where a cased letter stands before it and none stands after it, and `σ` elsewhere. Characters that
the standard calls case-ignorable are passed over on both sides.
-/

set_option autoImplicit false

namespace SimpleBinary.Text

/-- What the tables make of one character. A character below U+0080 has at most the one
counterpart that ASCII knows, and is decided without the tables. -/
def mapCase (ascii : Char → Char) (runs : List CaseRun) (specials : List (Nat × List Nat))
    (c : Char) : List Char :=
  if c.toNat < 128 then
    [ascii c]
  else
    match specials.lookup c.toNat with
    | some codes => codes.map Char.ofNat
    | none => [Char.ofNat ((runs.findSome? (·.image? c.toNat)).getD c.toNat)]

/-- The upper case of one character. -/
def upperChar (c : Char) : List Char :=
  mapCase Char.toUpper upperRuns upperSpecials c

/-- The lower case of one character, its neighbours left aside. -/
def lowerChar (c : Char) : List Char :=
  mapCase Char.toLower lowerRuns lowerSpecials c

/-- Whether the first code point that counts, of those given, is a cased letter. -/
def startsCased (t : Text) : Bool :=
  match t.dropWhile caseIgnorables.contains with
  | [] => false
  | p :: _ => casedLetters.contains p

/-- The lower case of a text. `before` holds the code points already passed, the nearest first. -/
def lowerFrom (before : Text) : Text → Text
  | [] => []
  | .half offset :: rest => .half offset :: lowerFrom (.half offset :: before) rest
  | .char c :: rest =>
    ofChars (if c = 'Σ' then [if startsCased before && !startsCased rest then 'ς' else 'σ']
      else lowerChar c) ++ lowerFrom (.char c :: before) rest

/-- The lower case of a text. -/
def lower (t : Text) : Text :=
  lowerFrom [] t

/-- The upper case of a text. -/
def upper (t : Text) : Text :=
  t.flatMap fun
    | .char c => ofChars (upperChar c)
    | .half offset => [.half offset]

theorem upperChar_of_ascii {c : Char} (h : c.toNat < 128) : upperChar c = [c.toUpper] := by
  simp [upperChar, mapCase, h]

theorem lowerChar_of_ascii {c : Char} (h : c.toNat < 128) : lowerChar c = [c.toLower] := by
  simp [lowerChar, mapCase, h]

end SimpleBinary.Text
