import Mathlib
import SimpleBinary.Numeral.Integer
import SimpleBinary.Text.Quoted

/-!
Literals of texts and bytes, read as the generated source is read.

A literal stands between two quotes of one kind, single or tripled, and bytes have the letter `b` in front.
Where it ends is found first: the first closing quotes that no backslash stands before close it, and
between single quotes the line must not end before. What stands between the quotes is then read from left
to right. A backslash and what follows it, up to eight digits or a name in braces, may stand for one
number; all other characters stand for themselves. Halves of surrogate pairs can be denoted, too.

Names of characters belong to the Unicode standard. They are a parameter here.
-/

set_option autoImplicit false

namespace SimpleBinary

/-- What a literal denotes. -/
inductive Literal
  | text (value : Text)
  | bytes (value : List UInt8)
  deriving DecidableEq, Repr

namespace Literal

/-! ## Where a literal ends -/

/-- Whether a character is one of the two quotes. -/
def isQuote (c : Char) : Bool :=
  c = '\'' || c = '"'

/-- Whether a character ends a line of source. -/
def isBreak (c : Char) : Bool :=
  c = '\n' || c = '\r'

/-- The quotes that close what begins with the given source, and what stands after the opening ones. -/
def opening? : List Char → Option (List Char × List Char)
  | [] => none
  | q :: rest =>
    if isQuote q then
      if [q, q].isPrefixOf rest then some ([q, q, q], rest.drop 2) else some ([q], rest)
    else none

/-- Adds more source in front of what stands inside the quotes. -/
def further (piece : List Char) (found : List Char × List Char) : List Char × List Char :=
  (piece ++ found.1, found.2)

/-- What stands in front of the closing quotes, and what stands behind them. -/
def scan (closing : List Char) : List Char → Option (List Char × List Char)
  | [] => none
  | c :: rest =>
    if closing.isPrefixOf (c :: rest) then some ([], (c :: rest).drop closing.length)
    else if c = '\\' then
      -- A backslash keeps what follows it inside, also where that is a quote or the end of a line.
      match rest with
      | [] => none
      | d :: rest => (scan closing rest).map (further [c, d])
    else if isBreak c && closing.length = 1 then none
    else (scan closing rest).map (further [c])

/-- What stands inside the quotes at the front of some source, and what stands behind them. -/
def extent? (cs : List Char) : Option (List Char × List Char) := do
  let (closing, rest) ← opening? cs
  scan closing rest

/-! ## What a literal denotes -/

/-- The escapes of one character. -/
def shortEscapes : List (Char × Nat) :=
  [('\\', 92), ('\'', 39), ('"', 34), ('a', 7), ('b', 8), ('f', 12), ('n', 10), ('r', 13), ('t', 9),
    ('v', 11)]

/-- The number that digits stand for, and how many characters they are with the letter before them. -/
def coded? (width : Nat) (cs : List Char) : Option (List Nat × Nat) := do
  let ds ← (cs.take width).mapM (Numeral.digitIn? 16)
  if ds.length = width then some ([Numeral.ofDigits 16 ds], width + 1) else none

/-- The number of up to three octal digits, and how many they are. -/
def octal? (cs : List Char) : Option (List Nat × Nat) :=
  match (cs.take 3).map (Numeral.digitIn? 8) |>.takeWhile Option.isSome |>.filterMap id with
  | [] => none
  | ds => some ([Numeral.ofDigits 8 ds], ds.length)

/-- The number of a name in braces, and how many characters it takes with the letter before it. -/
def named? (names : List Char → Option Nat) (cs : List Char) : Option (List Nat × Nat) :=
  let name := (cs.drop 1).takeWhile (· != '\x7d')
  if cs.head? = some '\x7b' && name.length + 1 < cs.length then
    (names name).map fun n => ([n], name.length + 3)
  else none

/-- What a backslash and the source behind it stand for, and how much of the source that is. Only texts
have the escapes of two widths and the names; elsewhere their letters are as any other character. -/
def escape? (names : List Char → Option Nat) (isText : Bool) (cs : List Char) :
    Option (List Nat × Nat) :=
  match cs with
  | [] => none
  | c :: rest =>
    match shortEscapes.lookup c with
    | some n => some ([n], 1)
    | none =>
      if c = '\n' then some ([], 1)
      else if c = 'x' then coded? 2 rest
      else if isText && c = 'u' then coded? 4 rest
      else if isText && c = 'U' then coded? 8 rest
      else if isText && c = 'N' then named? names rest
      else (octal? cs).or (some (['\\'.toNat, c.toNat], 1))

/-- The numbers that stand between quotes. -/
def numbers? (names : List Char → Option Nat) (isText : Bool) (cs : List Char) : Option (List Nat) :=
  match cs with
  | [] => some []
  | c :: rest =>
    if c = '\\' then
      match escape? names isText rest with
      | none => none
      | some (numbers, width) => (numbers? names isText (rest.drop width)).map (numbers ++ ·)
    else (numbers? names isText rest).map ([c.toNat] ++ ·)
termination_by cs.length
decreasing_by
  · simp only [List.length_cons, List.length_drop]
    omega
  · simp

/-- The text that stands between quotes. -/
def textOf? (names : List Char → Option Nat) (inside : List Char) : Option Literal := do
  let ns ← numbers? names true inside
  return .text (← ns.mapM CodePoint.ofNat?)

/-- The bytes that stand between quotes, in characters of ASCII. -/
def bytesOf? (names : List Char → Option Nat) (inside : List Char) : Option Literal :=
  if inside.all (·.toNat < 128) then
    (numbers? names false inside).map fun ns => .bytes (ns.map Nat.toUInt8)
  else none

/-- A value in quotes at the front of some source, and what stands behind it. -/
def between? (value? : List Char → Option Literal) (cs : List Char) :
    Option (Literal × List Char) := do
  let (inside, after) ← extent? cs
  return (← value? inside, after)

/-- The literal at the front of some source, and what stands behind it. -/
def read? (names : List Char → Option Nat) : List Char → Option (Literal × List Char)
  | [] => none
  | c :: rest =>
    if c = 'b' || c = 'B' then between? (bytesOf? names) rest
    else if c = 'u' || c = 'U' then between? (textOf? names) rest
    else between? (textOf? names) (c :: rest)

@[simp] theorem map_further_nil (found : Option (List Char × List Char)) :
    found.map (further []) = found := by
  cases found <;> rfl

@[simp] theorem map_further_map (first second : List Char) (found : Option (List Char × List Char)) :
    (found.map (further second)).map (further first) = found.map (further (first ++ second)) := by
  cases found <;> simp [further]

/-! ## Pieces of a literal

What stands in quotes is put together from pieces. Each is read by itself, whatever stands behind it. -/

/-- Whether some characters stand for a row of numbers between single quotes of the given kind. -/
structure Stands (names : List Char → Option Nat) (isText : Bool) (quote : Char) (piece : List Char)
    (numbers : List Nat) : Prop where
  /-- The quotes do not close in the piece. -/
  scan_append : ∀ rest, scan [quote] (piece ++ rest) = (scan [quote] rest).map (further piece)
  numbers?_append : ∀ rest,
    numbers? names isText (piece ++ rest) = (numbers? names isText rest).map (numbers ++ ·)
  /-- With another quote before the piece, the quotes are not tripled. -/
  head?_ne : piece.head? ≠ some quote

section

variable {names : List Char → Option Nat} {isText : Bool} {quote : Char}

theorem stands_nil : Stands names isText quote [] [] where
  scan_append rest := by
    simp
  numbers?_append rest := by
    simp
  head?_ne := by
    simp

theorem Stands.append {first second : List Char} {ms ns : List Nat}
    (hfirst : Stands names isText quote first ms) (hsecond : Stands names isText quote second ns) :
    Stands names isText quote (first ++ second) (ms ++ ns) where
  scan_append rest := by
    rw [List.append_assoc, hfirst.scan_append, hsecond.scan_append, map_further_map]
  numbers?_append rest := by
    rw [List.append_assoc, hfirst.numbers?_append, hsecond.numbers?_append, Option.map_map]
    simp [Function.comp_def]
  head?_ne := by
    cases first with
    | nil => exact hsecond.head?_ne
    | cons c first => exact hfirst.head?_ne

/-- If each of some values has a piece that stands for its number, all pieces together stand for all
numbers. -/
theorem stands_flatMap {α : Type} {piece : α → List Char} {number : α → Nat} (values : List α)
    (h : ∀ a ∈ values, Stands names isText quote (piece a) [number a]) :
    Stands names isText quote (values.flatMap piece) (values.map number) := by
  induction values with
  | nil => exact stands_nil
  | cons a values ih =>
    obtain ⟨ha, hvalues⟩ := List.forall_mem_cons.mp h
    exact ha.append (ih hvalues)

theorem scan_cons {c : Char} (hquote : c ≠ quote) (hslash : c ≠ '\\') (hbreak : isBreak c = false)
    (rest : List Char) : scan [quote] (c :: rest) = (scan [quote] rest).map (further [c]) := by
  have hclosing : [quote].isPrefixOf (c :: rest) = false := by
    simpa [List.isPrefixOf] using hquote.symm
  rw [scan.eq_def]
  simp [hclosing, hslash, hbreak]

theorem scan_slash (hquote : quote ≠ '\\') (d : Char) (rest : List Char) :
    scan [quote] ('\\' :: d :: rest) = (scan [quote] rest).map (further ['\\', d]) := by
  have hclosing : [quote].isPrefixOf ('\\' :: d :: rest) = false := by
    simpa [List.isPrefixOf] using hquote
  rw [scan.eq_def]
  simp [hclosing]

/-- A character that is not the quote, a backslash or the end of a line stands for itself. -/
theorem stands_self {c : Char} (hquote : c ≠ quote) (hslash : c ≠ '\\') (hbreak : isBreak c = false) :
    Stands names isText quote [c] [c.toNat] where
  scan_append := scan_cons hquote hslash hbreak
  numbers?_append rest := by
    rw [List.singleton_append, numbers?]
    simp [hslash]
  head?_ne := by
    simpa using hquote

/-- An escape stands for what is read behind its backslash. -/
theorem numbers?_slash {cs : List Char} {ns : List Nat} {width : Nat}
    (h : escape? names isText cs = some (ns, width)) :
    numbers? names isText ('\\' :: cs) = (numbers? names isText (cs.drop width)).map (ns ++ ·) := by
  rw [numbers?]
  simp [h]

theorem stands_short {c : Char} {n : Nat} (hquote : quote ≠ '\\') (h : shortEscapes.lookup c = some n) :
    Stands names isText quote ['\\', c] [n] where
  scan_append := scan_slash hquote c
  numbers?_append rest := by
    have hescape : escape? names isText (c :: rest) = some ([n], 1) := by
      rw [escape?, h]
    simp [numbers?_slash hescape]
  head?_ne := by
    simpa using hquote.symm

/-! ### Hexadecimal digits -/

theorem digitIn?_digitChar {n : Nat} (h : n < 16) :
    Numeral.digitIn? 16 (Nat.digitChar n) = some n := by
  interval_cases n <;> decide

theorem exists_of_mem_hex {width n : Nat} {c : Char} (h : c ∈ Text.hex width n) :
    ∃ d < 16, c = Nat.digitChar d := by
  induction width generalizing n with
  | zero => exact absurd h List.not_mem_nil
  | succ width ih =>
    rcases List.mem_append.mp h with h | h
    · exact ih h
    · exact ⟨n % 16, Nat.mod_lt n (by decide), List.mem_singleton.mp h⟩

/-- What is written in hexadecimal is read as the same number, if the digits are enough. -/
theorem mapM_hex (width n : Nat) : ∃ ds, (Text.hex width n).mapM (Numeral.digitIn? 16) = some ds ∧
    ds.length = width ∧ Numeral.ofDigits 16 ds = n % 16 ^ width := by
  induction width generalizing n with
  | zero => exact ⟨[], rfl, rfl, by simp [Numeral.ofDigits, Nat.mod_one]⟩
  | succ width ih =>
    obtain ⟨ds, hds, hlength, hvalue⟩ := ih (n / 16)
    have hlast := digitIn?_digitChar (Nat.mod_lt n (show 0 < 16 by decide))
    refine ⟨ds ++ [n % 16], ?_, by simp [hlength], ?_⟩
    · simp [Text.hex, List.mapM_append, hds, hlast]
    · have happend : Numeral.ofDigits 16 (ds ++ [n % 16]) = Numeral.ofDigits 16 ds * 16 + n % 16 := by
        simp [Numeral.ofDigits]
      rw [happend, hvalue, Nat.pow_succ', Nat.mod_mul]
      omega

theorem coded?_hex {width n : Nat} (h : n < 16 ^ width) (rest : List Char) :
    coded? width (Text.hex width n ++ rest) = some ([n], width + 1) := by
  obtain ⟨ds, hds, hlength, hvalue⟩ := mapM_hex width n
  have htake : (Text.hex width n ++ rest).take width = Text.hex width n := by
    rw [List.take_left' (Text.length_hex width n)]
  rw [coded?, htake, hds]
  simp [hlength, hvalue, Nat.mod_eq_of_lt h]

/-- A row of hexadecimal digits stays between the quotes. -/
theorem scan_hex (hquote : isQuote quote = true) (width n : Nat) (rest : List Char) :
    scan [quote] (Text.hex width n ++ rest) =
      (scan [quote] rest).map (further (Text.hex width n)) := by
  have hdigits : ∀ c ∈ Text.hex width n, isQuote c = false ∧ c ≠ '\\' ∧ isBreak c = false := by
    intro c hc
    obtain ⟨d, hd, rfl⟩ := exists_of_mem_hex hc
    interval_cases d <;> decide
  generalize Text.hex width n = digits at hdigits
  induction digits with
  | nil => simp
  | cons c digits ih =>
    obtain ⟨⟨hc, hslash, hbreak⟩, hdigits⟩ := List.forall_mem_cons.mp hdigits
    have hne : c ≠ quote := by
      rintro rfl
      rw [hquote] at hc
      cases hc
    rw [List.cons_append, scan_cons hne hslash hbreak, ih hdigits, map_further_map,
      List.singleton_append]

/-- The widths of the escapes by numbers, by their letters. -/
def codedWidth? (isText : Bool) (letter : Char) : Option Nat :=
  if letter = 'x' then some 2
  else if isText && letter = 'u' then some 4
  else if isText && letter = 'U' then some 8
  else none

theorem codedWidth?_cases {letter : Char} {width : Nat} (h : codedWidth? isText letter = some width) :
    letter = 'x' ∧ width = 2 ∨ isText = true ∧ letter = 'u' ∧ width = 4 ∨
      isText = true ∧ letter = 'U' ∧ width = 8 := by
  unfold codedWidth? at h
  grind

theorem escape?_coded {letter : Char} {width : Nat} (h : codedWidth? isText letter = some width)
    (rest : List Char) : escape? names isText (letter :: rest) = coded? width rest := by
  rcases codedWidth?_cases h with ⟨rfl, rfl⟩ | ⟨rfl, rfl, rfl⟩ | ⟨rfl, rfl, rfl⟩ <;>
    simp [escape?, shortEscapes, List.lookup]

theorem stands_coded {letter : Char} {width n : Nat} (hquote : isQuote quote = true)
    (hletter : codedWidth? isText letter = some width) (h : n < 16 ^ width) :
    Stands names isText quote ('\\' :: letter :: Text.hex width n) [n] where
  scan_append rest := by
    have hslash : quote ≠ '\\' := by
      rintro rfl
      exact absurd hquote (by decide)
    rw [List.cons_append, List.cons_append, scan_slash hslash, scan_hex hquote, map_further_map]
    simp
  numbers?_append rest := by
    have hescape : escape? names isText (letter :: (Text.hex width n ++ rest)) = some ([n], width + 1) := by
      rw [escape?_coded hletter, coded?_hex h]
    rw [List.cons_append, List.cons_append, numbers?_slash hescape, List.drop_succ_cons,
      List.drop_left' (Text.length_hex width n)]
  head?_ne := by
    intro hhead
    rw [← Option.some.inj hhead] at hquote
    exact absurd hquote (by decide)

/-- Single quotes around what stands for some numbers close where they are put. Were a third quote behind
them, the ones around nothing would count as one tripled. -/
theorem extent?_stands {inside rest : List Char} {ns : List Nat} (hquote : isQuote quote = true)
    (h : Stands names isText quote inside ns) (hrest : rest.head? ≠ some quote) :
    extent? (quote :: (inside ++ quote :: rest)) = some (inside, rest) := by
  have htripled : [quote, quote].isPrefixOf (inside ++ quote :: rest) = false := by
    have hinside := h.head?_ne
    cases inside with
    | nil =>
      cases rest with
      | nil => simp [List.isPrefixOf]
      | cons r rest =>
        have hne : quote ≠ r := fun heq => hrest (by rw [heq, List.head?_cons])
        simp [List.isPrefixOf, hne]
    | cons c inside =>
      have hne : quote ≠ c := fun heq => hinside (by rw [heq, List.head?_cons])
      simp [List.isPrefixOf, hne]
  have hscan : scan [quote] (inside ++ quote :: rest) = some (inside, rest) := by
    have hclosed : scan [quote] (quote :: rest) = some ([], rest) := by
      rw [scan.eq_def]
      simp [List.isPrefixOf]
    rw [h.scan_append, hclosed]
    simp [further]
  rw [extent?, opening?, if_pos hquote, htripled]
  exact hscan

/-- What stands inside single quotes is read by itself. -/
theorem between?_stands {inside rest : List Char} {ns : List Nat} (value? : List Char → Option Literal)
    (hquote : isQuote quote = true) (h : Stands names isText quote inside ns)
    (hrest : rest.head? ≠ some quote) :
    between? value? (quote :: (inside ++ quote :: rest)) = (value? inside).map (·, rest) := by
  rw [between?, extent?_stands hquote h hrest]
  cases hvalue : value? inside <;> simp [hvalue]

theorem Stands.numbers?_eq {inside : List Char} {ns : List Nat}
    (h : Stands names isText quote inside ns) : numbers? names isText inside = some ns := by
  have hinside := h.numbers?_append []
  rw [List.append_nil] at hinside
  simpa [numbers?] using hinside

end

end Literal

end SimpleBinary
