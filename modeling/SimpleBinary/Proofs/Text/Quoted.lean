import SimpleBinary.Proofs.Text.Literal
import SimpleBinary.Text.Utf8

/-!
Quoted text and quoted bytes read back.

Whatever a text holds, its quoted form is the literal of that text (`Literal.read?_quoted`), and bytes are
read back from theirs (`Literal.read?_quotedBytes`), also where other source follows. It does not matter which
characters quoted text shows as they are. So the escapes are stated for an arbitrary choice of them
(`quotedCharsBy`), of which quoted text is one case. Quotes, backslashes and controls never are left as
they are.
-/

set_option autoImplicit false

namespace SimpleBinary

namespace CodePoint

theorem toNat_lt (p : CodePoint) : p.toNat < 0x110000 := by
  cases p with
  | char c =>
    have hvalid : c.toNat.isValidChar := c.valid
    simp only [Nat.isValidChar] at hvalid
    rw [toNat_char]
    omega
  | half offset =>
    simp only [toNat, firstHalf]
    omega

/-- A code point is found again by its number. -/
theorem ofNat?_toNat (p : CodePoint) : ofNat? p.toNat = some p := by
  cases p with
  | char c =>
    have hvalid : c.toNat.isValidChar := c.valid
    have hhalf : ¬ (firstHalf ≤ c.toNat ∧ c.toNat < firstHalf + 2048) := by
      simp only [Nat.isValidChar, firstHalf] at hvalid ⊢
      omega
    rw [toNat, ofNat?, dif_neg hhalf, dif_pos hvalid]
    rfl
  | half offset =>
    have hhalf : firstHalf ≤ firstHalf + offset.val ∧ firstHalf + offset.val < firstHalf + 2048 := by
      omega
    rw [toNat, ofNat?, dif_pos hhalf]
    simp

end CodePoint

namespace Text

/-- The code points of a text are found again by their numbers. -/
theorem mapM_toNat (t : Text) : (t.map CodePoint.toNat).mapM CodePoint.ofNat? = some t := by
  induction t with
  | nil => rfl
  | cons p t ih => simp [CodePoint.ofNat?_toNat, ih]

/-! ## An arbitrary choice of characters that are shown -/

/-- Whether a character is a control of ASCII. -/
def isControl (c : Char) : Bool :=
  c.toNat < 0x20 || c.toNat = 0x7f

/-- A character inside quotes: the quote, the backslash and three controls have a short escape each, and any
other one is written as given. -/
def escapeShort (quote c : Char) (other : List Char) : List Char :=
  if c = quote || c = '\\' then ['\\', c]
  else if c = '\t' then ['\\', 't']
  else if c = '\n' then ['\\', 'n']
  else if c = '\r' then ['\\', 'r']
  else other

/-- One code point inside quoted text, given which characters that are no controls are left as they are. -/
def escapePointBy (shows : Char → Bool) (quote : Char) : CodePoint → List Char
  | .half offset => escapeNumber (CodePoint.half offset).toNat
  | .char c =>
    if c = quote || c = '\\' then ['\\', c]
    else if c = '\t' then ['\\', 't']
    else if c = '\n' then ['\\', 'n']
    else if c = '\r' then ['\\', 'r']
    else if shows c && !isControl c then [c]
    else escapeNumber c.toNat

/-- The characters of a text in quotes, given which of them are left as they are. -/
def quotedCharsBy (shows : Char → Bool) (t : Text) : List Char :=
  let quote := quoteFor t.chars
  quote :: (t.flatMap (escapePointBy shows quote) ++ [quote])

/-- Whether quoted text leaves a character as it is. -/
def isShown (c : Char) : Bool :=
  (0x20 ≤ c.toNat && c.toNat < 0x7f) || isPrintable (.char c)

theorem isQuote_quoteFor (cs : List Char) : Literal.isQuote (quoteFor cs) = true := by
  unfold quoteFor
  split <;> decide

/-- Controls and halves are among the intervals that are not printable. -/
theorem isPrintable_eq_false {p : CodePoint} (first last : Nat) (hrange : (first, last) ∈ unprintables)
    (hfirst : first ≤ p.toNat) (hlast : p.toNat ≤ last) : isPrintable p = false := by
  have hcontains := (Ranges.contains_eq_true_iff unprintables p).mpr ⟨(first, last), hrange, hfirst, hlast⟩
  rw [isPrintable, hcontains]
  rfl

theorem isShown_eq_false {c : Char} (h : isControl c = true) : isShown c = false := by
  have hcontrol : c.toNat < 32 ∨ c.toNat = 127 := by
    simpa [isControl] using h
  have hprintable : isPrintable (.char c) = false := by
    rcases hcontrol with hlow | hdelete
    · exact isPrintable_eq_false 0 31 (by decide) (Nat.zero_le _)
        (Nat.le_of_lt_succ hlow)
    · exact isPrintable_eq_false 127 160 (by decide) (Nat.le_of_eq hdelete.symm)
        (by rw [CodePoint.toNat_char, hdelete]; decide)
  simp only [isShown, hprintable, Bool.or_false, Bool.and_eq_false_iff, decide_eq_false_iff_not]
  omega

theorem escapePoint_eq {quote : Char} (hquote : Literal.isQuote quote = true) (p : CodePoint) :
    escapePoint quote p = escapePointBy isShown quote p := by
  cases p with
  | char c =>
    have hshown : isShown c = (isShown c && !isControl c) := by
      cases hcontrol : isControl c with
      | true => rw [isShown_eq_false hcontrol, Bool.false_and]
      | false => rw [Bool.not_false, Bool.and_true]
    rw [escapePointBy, ← hshown]
    rfl
  | half offset =>
    -- A half of a pair cannot be printed, so it is written by its number in both ways.
    have hprintable : isPrintable (.half offset) = false := by
      refine isPrintable_eq_false 55292 63743 (by decide) ?_ ?_ <;>
        · simp only [CodePoint.toNat, CodePoint.firstHalf]
          omega
    have hreplaced : '\ufffd' ≠ quote := by
      rintro rfl
      exact absurd hquote (by decide)
    have hlow : ¬ (CodePoint.half offset).toNat < 0x7f := by
      simp only [CodePoint.toNat, CodePoint.firstHalf]
      omega
    simp [escapePoint, escapePointBy, CodePoint.toChar, hprintable, hreplaced, hlow]

theorem quotedChars_eq (t : Text) : quotedChars t = quotedCharsBy isShown t := by
  have hpoints : t.flatMap (escapePoint (quoteFor t.chars)) =
      t.flatMap (escapePointBy isShown (quoteFor t.chars)) :=
    List.flatMap_congr fun p _ => escapePoint_eq (isQuote_quoteFor t.chars) p
  rw [quotedChars, quotedCharsBy, hpoints]

end Text

/-! ## The forms of a code point and of a byte -/

namespace Literal

open Text

/-- The forms that the number of a code point or of a byte has between quotes of the given kind. -/
inductive Form (isText : Bool) (quote : Char) (n : Nat) : List Char → Prop
  | short {c : Char} (h : shortEscapes.lookup c = some n) : Form isText quote n ['\\', c]
  | self {c : Char} (hquote : c ≠ quote) (hslash : c ≠ '\\') (hcontrol : isControl c = false)
    (hascii : isText = false → c.toNat < 0x7f) (h : c.toNat = n) : Form isText quote n [c]
  | coded {letter : Char} {width : Nat} (hletter : codedWidth? isText letter = some width)
    (h : n < 16 ^ width) : Form isText quote n ('\\' :: letter :: hex width n)

section

variable {isText : Bool} {quote : Char} {n : Nat} {piece : List Char}

theorem isBreak_eq_false {c : Char} (h : isControl c = false) : isBreak c = false := by
  cases hbreak : isBreak c with
  | false => rfl
  | true =>
    simp only [isBreak, Bool.or_eq_true, decide_eq_true_eq] at hbreak
    rcases hbreak with rfl | rfl <;> exact absurd h (by decide)

/-- Each form is read as the number that it is a form of. -/
theorem Form.stands (names : List Char → Option Nat) (hquote : isQuote quote = true)
    (h : Form isText quote n piece) : Stands names isText quote piece [n] := by
  cases h with
  | short h =>
    refine stands_short ?_ h
    rintro rfl
    exact absurd hquote (by decide)
  | self hne hslash hcontrol _ h =>
    rw [← h]
    exact stands_self hne hslash (isBreak_eq_false hcontrol)
  | coded hletter h => exact stands_coded hquote hletter h

/-- Whether a character is printable ASCII. -/
def IsAscii (c : Char) : Prop :=
  0x20 ≤ c.toNat ∧ c.toNat < 0x7f

theorem IsAscii.isControl_eq_false {c : Char} (h : IsAscii c) : isControl c = false := by
  unfold IsAscii at h
  simp only [isControl, Bool.or_eq_false_iff, decide_eq_false_iff_not]
  omega

theorem isAscii_of_isQuote {c : Char} (h : isQuote c = true) : IsAscii c := by
  simp only [isQuote, Bool.or_eq_true, decide_eq_true_eq] at h
  rcases h with rfl | rfl <;> simp [IsAscii]

theorem isAscii_of_mem_hex {width : Nat} {c : Char} (h : c ∈ hex width n) : IsAscii c := by
  obtain ⟨d, hd, rfl⟩ := exists_of_mem_hex h
  unfold IsAscii
  interval_cases d <;> decide

theorem isAscii_of_lookup {c : Char} (h : shortEscapes.lookup c = some n) : IsAscii c := by
  by_contra hnot
  have hnone : shortEscapes.lookup c = none := by
    refine List.lookup_eq_none_iff.mpr fun entry hentry => ?_
    have hascii : IsAscii entry.1 := by
      simp only [shortEscapes, List.mem_cons, List.not_mem_nil, or_false] at hentry
      unfold IsAscii
      rcases hentry with rfl | rfl | rfl | rfl | rfl | rfl | rfl | rfl | rfl | rfl <;> decide
    have hne : c ≠ entry.1 := fun heq => hnot (heq ▸ hascii)
    simpa using hne
  rw [hnone] at h
  cases h

/-- A form is made of ASCII, except where a character of a text stands for itself; and that is no
control. -/
theorem Form.isAscii_or {c : Char} (h : Form isText quote n piece) (hc : c ∈ piece) :
    IsAscii c ∨ isText = true ∧ isControl c = false := by
  cases h with
  | short h =>
    left
    simp only [List.mem_cons, List.not_mem_nil, or_false] at hc
    rcases hc with rfl | rfl
    · simp [IsAscii]
    · exact isAscii_of_lookup h
  | self _ _ hcontrol hascii _ =>
    obtain rfl := List.mem_singleton.mp hc
    by_cases htext : isText = true
    · exact .inr ⟨htext, hcontrol⟩
    · have hhigh := hascii (Bool.not_eq_true _ ▸ htext)
      simp only [isControl, Bool.or_eq_false_iff, decide_eq_false_iff_not] at hcontrol
      exact .inl ⟨by omega, hhigh⟩
  | coded hletter _ =>
    left
    rcases List.mem_cons.mp hc with rfl | hc
    · simp [IsAscii]
    · rcases List.mem_cons.mp hc with rfl | hc
      · rcases codedWidth?_cases hletter with ⟨rfl, -⟩ | ⟨-, rfl, -⟩ | ⟨-, rfl, -⟩ <;>
          simp [IsAscii]
      · exact isAscii_of_mem_hex hc

/-- The quote, the backslash and the three controls with a letter of their own, and how they are
written. -/
theorem form_escaped {c : Char} (hquote : isQuote quote = true) (h : c = quote ∨ c = '\\') :
    Form isText quote c.toNat ['\\', c] := by
  have hshort : shortEscapes.lookup c = some c.toNat := by
    simp only [isQuote, Bool.or_eq_true, decide_eq_true_eq] at hquote
    rcases h with rfl | rfl
    · rcases hquote with rfl | rfl <;> decide
    · decide
  exact .short hshort

theorem form_escapeNumber (h : n < 0x110000) : Form true quote n (escapeNumber n) := by
  unfold escapeNumber
  split
  · exact .coded (by decide : codedWidth? true 'x' = some 2) (by omega)
  · split
    · exact .coded (by decide : codedWidth? true 'u' = some 4) (by omega)
    · exact .coded (by decide : codedWidth? true 'U' = some 8) (by omega)

theorem form_escapeShort {c : Char} (hquote : isQuote quote = true) {other : List Char}
    (hother : c ≠ quote → c ≠ '\\' → Form isText quote c.toNat other) :
    Form isText quote c.toNat (escapeShort quote c other) := by
  unfold escapeShort
  split
  · rename_i h
    exact form_escaped hquote (by simpa using h)
  · rename_i h
    simp only [Bool.or_eq_true, decide_eq_true_eq, not_or] at h
    split
    · rename_i htab
      exact .short (by rw [htab]; decide)
    · split
      · rename_i hfeed
        exact .short (by rw [hfeed]; decide)
      · split
        · rename_i hreturn
          exact .short (by rw [hreturn]; decide)
        · exact hother h.1 h.2

theorem form_escapePointBy (shows : Char → Bool) (hquote : isQuote quote = true) (p : CodePoint) :
    Form true quote p.toNat (escapePointBy shows quote p) := by
  cases p with
  | half offset => exact form_escapeNumber (CodePoint.toNat_lt _)
  | char c =>
    refine form_escapeShort hquote fun hne hslash => ?_
    split
    · rename_i hshows
      simp only [Bool.and_eq_true, Bool.not_eq_true'] at hshows
      exact .self hne hslash hshows.2 (by simp) rfl
    · exact form_escapeNumber (CodePoint.toNat_lt (.char c))

theorem toNat_ofNat_byte (b : UInt8) : (Char.ofNat b.toNat).toNat = b.toNat := by
  have hlt := b.toNat_lt
  rw [Char.toNat_ofNat, if_pos]
  exact .inl (by omega)

theorem form_escapeByte (hquote : isQuote quote = true) (b : UInt8) :
    Form false quote b.toNat (escapeByte quote b) := by
  have hlt := b.toNat_lt
  have hnumber := toNat_ofNat_byte b
  have hform : Form false quote (Char.ofNat b.toNat).toNat (escapeByte quote b) := by
    refine form_escapeShort hquote fun hne hslash => ?_
    rw [hnumber]
    split
    · exact .coded (by decide : codedWidth? false 'x' = some 2) (by omega)
    · -- A byte that is left as it is is printable ASCII.
      rename_i hrange
      simp only [Bool.or_eq_true, decide_eq_true_eq, not_or, not_lt, not_le] at hrange
      rw [← hnumber] at hrange
      exact .self hne hslash (IsAscii.isControl_eq_false hrange) (fun _ => hrange.2) hnumber
  rwa [hnumber] at hform

end

/-! ## Reading back -/

section

variable (names : List Char → Option Nat) {rest : List Char}

theorem read?_quote {quote : Char} (hquote : isQuote quote = true) (cs : List Char) :
    read? names (quote :: cs) = between? (textOf? names) (quote :: cs) := by
  simp only [isQuote, Bool.or_eq_true, decide_eq_true_eq] at hquote
  rcases hquote with rfl | rfl <;> rfl

theorem head?_ne_quoteFor (hrest : ∀ c ∈ rest.head?, isQuote c = false) (cs : List Char) :
    rest.head? ≠ some (quoteFor cs) := by
  intro heq
  exact absurd (hrest _ heq) (by rw [isQuote_quoteFor]; decide)

/-- **Whatever is left as it is, a text is read back from its quoted form.** -/
theorem read?_quotedCharsBy (shows : Char → Bool) (t : Text)
    (hrest : ∀ c ∈ rest.head?, isQuote c = false) :
    read? names (quotedCharsBy shows t ++ rest) = some (.text t, rest) := by
  have hquote := isQuote_quoteFor t.chars
  have hinside : Stands names true (quoteFor t.chars)
      (t.flatMap (escapePointBy shows (quoteFor t.chars))) (t.map CodePoint.toNat) :=
    stands_flatMap t fun p _ => (form_escapePointBy shows hquote p).stands names hquote
  have hvalue : textOf? names (t.flatMap (escapePointBy shows (quoteFor t.chars))) = some (.text t) := by
    rw [textOf?, hinside.numbers?_eq, Option.bind_eq_bind, Option.bind_some, mapM_toNat]
    rfl
  have hbetween := between?_stands (textOf? names) hquote hinside (head?_ne_quoteFor hrest t.chars)
  rw [hvalue] at hbetween
  simp only [quotedCharsBy, List.cons_append, List.append_assoc, List.nil_append]
  rw [read?_quote names hquote]
  exact hbetween

theorem read?_quoted (t : Text) (hrest : ∀ c ∈ rest.head?, isQuote c = false) :
    read? names ((quoted t).toList ++ rest) = some (.text t, rest) := by
  rw [quoted, String.toList_ofList, quotedChars_eq]
  exact read?_quotedCharsBy names isShown t hrest

/-- **Bytes are read back from their quoted form.** -/
theorem read?_quotedBytes (bytes : List UInt8) (hrest : ∀ c ∈ rest.head?, isQuote c = false) :
    read? names ((quotedBytes bytes).toList ++ rest) = some (.bytes bytes, rest) := by
  rw [quotedBytes, String.toList_ofList]
  generalize hcs : (bytes.map fun b => Char.ofNat b.toNat) = cs
  have hquote := isQuote_quoteFor cs
  have hform (b : UInt8) := form_escapeByte hquote b
  have hinside : Stands names false (quoteFor cs) (bytes.flatMap (escapeByte (quoteFor cs)))
      (bytes.map UInt8.toNat) :=
    stands_flatMap bytes fun b _ => (hform b).stands names hquote
  -- Bytes literals are ASCII, so bytes beyond have to be written by their numbers.
  have hascii : (bytes.flatMap (escapeByte (quoteFor cs))).all (·.toNat < 128) = true := by
    refine List.all_eq_true.mpr fun c hc => ?_
    obtain ⟨b, -, hc⟩ := List.mem_flatMap.mp hc
    rcases (hform b).isAscii_or hc with h | ⟨h, -⟩
    · exact decide_eq_true (Nat.lt_succ_of_lt h.2)
    · cases h
  have hvalue : bytesOf? names (bytes.flatMap (escapeByte (quoteFor cs))) = some (.bytes bytes) := by
    rw [bytesOf?, if_pos hascii, hinside.numbers?_eq]
    simp [Function.comp_def]
  have hbetween := between?_stands (bytesOf? names) hquote hinside (head?_ne_quoteFor hrest cs)
  rw [hvalue] at hbetween
  simp only [List.cons_append, List.append_assoc, List.nil_append]
  rw [read?, if_pos (by decide)]
  exact hbetween

end

end Literal

namespace Text

/-- Whatever is left as it is, quoted text holds no controls, and so no ends of lines. -/
theorem isControl_of_mem_quotedCharsBy (shows : Char → Bool) (t : Text) :
    ∀ c ∈ quotedCharsBy shows t, isControl c = false := by
  have hquote := isQuote_quoteFor t.chars
  have hcontrol := (Literal.isAscii_of_isQuote hquote).isControl_eq_false
  intro c hc
  rcases List.mem_cons.mp hc with rfl | hc
  · exact hcontrol
  · rcases List.mem_append.mp hc with hc | hc
    · obtain ⟨p, -, hc⟩ := List.mem_flatMap.mp hc
      rcases (Literal.form_escapePointBy shows hquote p).isAscii_or hc with h | ⟨-, h⟩
      · exact h.isControl_eq_false
      · exact h
    · obtain rfl := List.mem_singleton.mp hc
      exact hcontrol

/-- Quoted bytes are printable ASCII. -/
theorem isAscii_of_mem_quotedBytes (bytes : List UInt8) :
    ∀ c ∈ (quotedBytes bytes).toList, Literal.IsAscii c := by
  rw [quotedBytes, String.toList_ofList]
  have hquote := isQuote_quoteFor (bytes.map fun b => Char.ofNat b.toNat)
  have hascii := Literal.isAscii_of_isQuote hquote
  intro c hc
  rcases List.mem_cons.mp hc with rfl | hc
  · simp [Literal.IsAscii]
  · rcases List.mem_cons.mp hc with rfl | hc
    · exact hascii
    · rcases List.mem_append.mp hc with hc | hc
      · obtain ⟨b, -, hc⟩ := List.mem_flatMap.mp hc
        rcases (Literal.form_escapeByte hquote b).isAscii_or hc with h | ⟨h, -⟩
        · exact h
        · cases h
      · obtain rfl := List.mem_singleton.mp hc
        exact hascii

/-- Texts of characters are told apart by their bytes. -/
theorem utf8_inj {s t : Text} (hs : s.isPlain = true) (ht : t.isPlain = true) (h : s.utf8 = t.utf8) :
    s = t := by
  have hchars : s.chars = t.chars := by
    have hencode : s.chars.utf8Encode = t.chars.utf8Encode := congrArg List.toByteArray h
    have hdecode := congrArg ByteArray.utf8Decode? hencode
    rw [List.utf8Decode?_utf8Encode, List.utf8Decode?_utf8Encode] at hdecode
    simpa using hdecode
  have hplain {u : Text} (hu : u.isPlain = true) : u = ofChars u.chars := by
    induction u with
    | nil => rfl
    | cons p u ih =>
      simp only [isPlain, List.all_cons, Bool.and_eq_true] at hu
      cases p with
      | half offset => exact absurd hu.1 (by simp [CodePoint.isHalf])
      | char c => exact congrArg (CodePoint.char c :: ·) (ih hu.2)
  rw [hplain hs, hplain ht, hchars]

end Text

end SimpleBinary
