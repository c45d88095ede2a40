import SimpleBinary.Proofs.Numeral.Spelling
import SimpleBinary.Proofs.Results

/-!
Literals of integers.

The source shows an integer by its decimal digits, whatever the schema has spelled it by. So a literal is
canonical: it stands for the same integer, and making a literal of it once more changes nothing. For characters
this holds although a single one may stand for its own number: a decimal text of one character is a digit, and
digits are read as numbers.

All of this has one limit. An integer of more than 4300 decimal digits can be read in the other bases, but it
is neither written nor read in base ten.
-/

set_option autoImplicit false

namespace SimpleBinary

open Text (isBlank)

/-! ## Decimal texts -/

namespace Numeral

/-- The digits that are written for a number are those that it has. -/
theorem toDigits_eq (base n : Nat) (hbase : 1 < base) :
    Nat.toDigits base n = (digitsOf base n).map Nat.digitChar := by
  induction n using Nat.strongRecOn with
  | ind n ih =>
    by_cases hlt : n < base
    · by_cases hn : n = 0
      · simp [digitsOf, hn]
      · rw [Nat.toDigits_of_lt_base hlt, digitsOf, if_neg hn, Nat.digits_of_lt base n hn hlt]
        rfl
    · -- The last digit is the remainder, and the others are those of the quotient.
      have hn : n ≠ 0 := by omega
      have hquotient : n / base ≠ 0 := by
        rw [Nat.div_ne_zero_iff]
        omega
      have hdigits : digitsOf base n = digitsOf base (n / base) ++ [n % base] := by
        rw [digitsOf, if_neg hn, digitsOf, if_neg hquotient, Nat.digits_of_two_le_of_pos hbase (by omega),
          List.reverse_cons]
      have hless : n / base < n := Nat.div_lt_self (by omega) hbase
      rw [Nat.toDigits_of_base_le hbase (by omega), ih _ hless, hdigits, List.map_append]
      rfl

/-- The decimal text of an integer: its sign, and its digits without zeros in front. -/
def decimal (n : Int) : String :=
  String.ofList ((if n < 0 then ['-'] else []) ++ (digitsOf 10 n.natAbs).map Nat.digitChar)

theorem toString_eq_decimal (n : Int) : toString n = decimal n := by
  have hdigits (m : Nat) : Nat.repr m = String.ofList ((digitsOf 10 m).map Nat.digitChar) := by
    rw [← toDigits_eq 10 m (by decide)]
    rfl
  cases n with
  | ofNat m =>
    show Nat.repr m = _
    have hpos : ¬ Int.ofNat m < 0 := Int.not_lt.mpr (Int.natCast_nonneg m)
    rw [hdigits, decimal, if_neg hpos]
    rfl
  | negSucc m =>
    show "-" ++ Nat.repr (m + 1) = _
    rw [hdigits, decimal, if_pos (Int.negSucc_lt_zero m), String.ofList_append]
    rfl

theorem isDigitFor_digitChar {d : Nat} (hd : d < 10) : IsDigitFor d (.char (Nat.digitChar d)) := by
  left
  interval_cases d <;> decide

theorem row_digitChars {ds : List Nat} (hne : ds ≠ []) (hds : ∀ d ∈ ds, d < 10) :
    Row ds (Text.ofChars (ds.map Nat.digitChar)) := by
  induction ds with
  | nil => exact absurd rfl hne
  | cons d rest ih =>
    obtain ⟨hd, hrest⟩ := List.forall_mem_cons.mp hds
    by_cases hlast : rest = []
    · subst hlast
      exact .last (isDigitFor_digitChar hd)
    · exact .next (isDigitFor_digitChar hd) (ih hlast hrest)

/-- The decimal text of an integer is one of its spellings. -/
theorem spells_decimal (n : Int) : Spells .decimal n (decimal n) := by
  have hrow := row_digitChars (digitsOf_ne_nil 10 n.natAbs) fun d hd => lt_of_mem_digitsOf (by decide) hd
  refine ⟨[], _, [], ?_, by simp, by simp, .decimal hrow⟩
  by_cases hn : n < 0 <;> simp [decimal, minus, hn, Text.ofString, Text.ofChars]

end Numeral

/-! ## Values -/

namespace Primitive

open Numeral

variable {p : Primitive}

/-- A text that is no single character, blanks aside, is read as an integer for integers and characters
alike. -/
theorem parse_of_not_character (hreal : p.isReal = false) {text : Text}
    (h : characterValue? text.trim = none) : p.parse text = (integerValue text.trim).map .int := by
  unfold parse
  by_cases hchar : p = .char
  · subst hchar
    simp only [isReal, h, if_true, Bool.false_eq_true, if_false]
  · simp only [hreal, hchar, Bool.false_eq_true, if_false]

/-- Values of integers and characters are integers. -/
theorem exists_int_of_parse (hreal : p.isReal = false) {text : Text} {v : Number}
    (h : p.parse text = .ok v) : ∃ n, v = .int n := by
  have hmap {x : Except Fault Int} (hx : x.map Number.int = .ok v) : ∃ n, v = .int n := by
    cases x with
    | ok n => exact ⟨n, (Except.ok.inj hx).symm⟩
    | error fault => cases hx
  unfold parse at h
  simp only [hreal, Bool.false_eq_true, if_false] at h
  split at h
  · split at h
    · exact ⟨_, (Except.ok.inj h).symm⟩
    · exact hmap h
  · exact hmap h

/-- No spelling of an integer stands for a character. -/
theorem characterValue?_spelling {radix : Radix} {n : Int} {number : Text}
    (h : SpellsNat radix n.natAbs number) : characterValue? (minus n ++ number) = none := by
  obtain ⟨d, q, after, rfl, -, -⟩ := h.exists_first
  by_cases hn : n < 0
  · rw [minus, if_pos hn]
    rfl
  · rw [minus, if_neg hn, List.nil_append]
    cases after with
    | nil => simp [characterValue?, h.isDigit_of_single]
    | cons q' after => rfl

/-- **Every spelling of an integer is read as that integer**, but for one with too many decimal digits. -/
theorem parse_spelling (hreal : p.isReal = false) {radix : Radix} {n : Int} {text : Text}
    (h : Spells radix n text) :
    p.parse text = if radix = .decimal ∧ ¬ isWritable n then
      .error (.longNumeral (digitsOf 10 n.natAbs).length) else .ok (.int n) := by
  obtain ⟨number, htrim, hnumber⟩ := h.exists_trim
  have hcharacter : characterValue? text.trim = none := by
    rw [htrim]
    exact characterValue?_spelling hnumber
  rw [parse_of_not_character hreal hcharacter, htrim, integerValue, hnumber.integer, withinLimit,
    isWritable_natAbs]
  split <;> rfl

/-- The literal of an integer is its decimal text, if it can be written. -/
theorem render_of_parse {text : Text} {n : Int} (h : p.parse text = .ok (.int n)) :
    p.render text = if isWritable n then .ok (decimal n) else .error .longInteger := by
  have hchecked : (Number.int n).checked = if isWritable n then .ok (.int n) else .error .longInteger := rfl
  rw [render, h]
  simp only [bind, Except.bind, pure, Except.pure]
  by_cases hn : isWritable n = true
  · rw [hchecked, if_pos hn, if_pos hn]
    exact congrArg Except.ok (toString_eq_decimal n)
  · rw [hchecked, if_neg hn, if_neg hn]

/-- Whether the literal of a text is canonical: it is the decimal text of the integer that the text stands
for, no zero is in front of it, and it stands for the integer and is its own literal. -/
structure IsCanonical (p : Primitive) (text : Text) (n : Int) : Prop where
  render : p.render text = .ok (decimal n)
  head?_ne : (digitsOf 10 n.natAbs).head? = some 0 → n = 0
  parse_again : p.parse (decimal n) = .ok (.int n)
  render_again : p.render (decimal n) = .ok (decimal n)

theorem isCanonical_of_parse (hreal : p.isReal = false) {text : Text} {n : Int}
    (h : p.parse text = .ok (.int n)) (hn : isWritable n = true) : p.IsCanonical text n := by
  -- The decimal text is one more spelling of the integer, so it is read like all others.
  have hagain : p.parse (decimal n) = .ok (.int n) := by
    rw [parse_spelling hreal (spells_decimal n), if_neg (by simp [hn])]
  constructor
  · rw [render_of_parse h, if_pos hn]
  · intro hzero
    exact Int.natAbs_eq_zero.mp (eq_zero_of_head?_digitsOf hzero)
  · exact hagain
  · rw [render_of_parse hagain, if_pos hn]

/-- **Literals of integers are canonical.** Whatever text stands for a value of an integer type or of
characters, the value is an integer, and its literal is canonical if it can be written; and every spelling of
an integer stands for it, unless it is a decimal one of an integer that cannot be written. -/
theorem literals_canonical (hreal : p.isReal = false) (text : Text) :
    (∀ v, p.parse text = .ok v → ∃ n, v = .int n ∧
      (isWritable n = true → p.IsCanonical text n) ∧
      (isWritable n = false → p.render text = .error .longInteger)) ∧
    ∀ radix n, Spells radix n text → p.parse text =
      if radix = .decimal ∧ ¬ isWritable n then .error (.longNumeral (digitsOf 10 n.natAbs).length)
      else .ok (.int n) := by
  constructor
  · intro v hv
    obtain ⟨n, rfl⟩ := exists_int_of_parse hreal hv
    refine ⟨n, rfl, fun hn => isCanonical_of_parse hreal hv hn, fun hn => ?_⟩
    rw [render_of_parse hv, hn]
    rfl
  · intro radix n hspells
    exact parse_spelling hreal hspells

/-- A negative number in hexadecimal digits, in mixed case, with an underscore between them, one of them from
another script, and with blanks around it. -/
def mixedText : Text :=
  " -0X1_f\u0663\u2003"

theorem spells_mixedText : Spells .hexadecimal (-499) mixedText := by
  have hdigits : digitsOf 16 499 = [1, 15, 3] := by simp [digitsOf]
  refine ⟨" ", "0X1_f\u0663", "\u2003", by decide, by decide, by decide, ?_⟩
  have hletter : Radix.hexadecimal.letter? = some 'x' := rfl
  have hmark : ([] : Text) = [] ∨ ([] : Text) = [.char '_'] := .inl rfl
  refine .prefixed hletter (.inl (by decide)) (.inr rfl) hmark ?_
  show Row (digitsOf 16 499) _
  rw [hdigits]
  exact .parted (.inl (by decide)) (.next (.inr (by decide)) (.last (.inl (by decide))))

theorem mixedText_canonical :
    Primitive.char.parse mixedText = .ok (.int (-499)) ∧ Primitive.char.IsCanonical mixedText (-499) := by
  obtain ⟨hvalues, hspellings⟩ := literals_canonical (p := .char) rfl mixedText
  have hparse := hspellings .hexadecimal (-499) spells_mixedText
  rw [if_neg (by decide)] at hparse
  obtain ⟨n, hn, hcanonical, -⟩ := hvalues _ hparse
  cases hn
  exact ⟨hparse, hcanonical (by decide +kernel)⟩

/-- The hexadecimal text of a power of sixteen. -/
def powerText (k : Nat) : Text :=
  Text.ofChars ('0' :: 'x' :: '1' :: List.replicate k '0')

theorem row_zeros (k : Nat) : Row (List.replicate (k + 1) 0) (Text.ofChars (List.replicate (k + 1) '0')) := by
  induction k with
  | zero => exact .last (.inl (by decide))
  | succ k ih => exact .next (.inl (by decide)) ih

theorem spells_powerText (k : Nat) : Spells .hexadecimal (16 ^ k) (powerText k) := by
  have habs : (16 ^ k : Int).natAbs = 16 ^ k * 1 := by
    rw [Int.natAbs_pow, Nat.mul_one]
    rfl
  -- A power of the base is a one and zeros.
  have hdigits : digitsOf 16 (16 ^ k * 1) = 1 :: List.replicate k 0 := by
    have hne : 16 ^ k * 1 ≠ 0 := by positivity
    rw [digitsOf, if_neg hne, Nat.digits_base_pow_mul (by decide) (by decide)]
    simp
  have hrow : Row (1 :: List.replicate k 0) (Text.ofChars ('1' :: List.replicate k '0')) := by
    have hone : IsDigitFor 1 (.char '1') := .inl (by decide)
    cases k with
    | zero => exact .last hone
    | succ k => exact .next hone (row_zeros k)
  have hpos : ¬ (16 ^ k : Int) < 0 := not_lt.mpr (by positivity)
  refine ⟨[], powerText k, [], by simp [minus, hpos], by simp, by simp, ?_⟩
  rw [habs]
  have hletter : Radix.hexadecimal.letter? = some 'x' := rfl
  have hmark : ([] : Text) = [] ∨ ([] : Text) = [.char '_'] := .inl rfl
  refine .prefixed hletter (.inl (by decide)) (.inl rfl) hmark ?_
  show Row (digitsOf 16 _) _
  rw [hdigits]
  exact hrow

/-- Where a power of sixteen cannot be written, its hexadecimal text is read and has no literal, and its
decimal text is not read. -/
theorem powerText_unwritten {k : Nat} (hk : isWritable (16 ^ k) = false) :
    Primitive.int8.parse (powerText k) = .ok (.int (16 ^ k)) ∧
      Primitive.int8.render (powerText k) = .error .longInteger ∧
      ∀ v, Primitive.int8.parse (decimal (16 ^ k)) ≠ .ok v := by
  have hparse : Primitive.int8.parse (powerText k) = .ok (.int (16 ^ k)) := by
    rw [parse_spelling rfl (spells_powerText k), if_neg (by simp)]
  refine ⟨hparse, ?_, fun v hv => ?_⟩
  · rw [render_of_parse hparse, hk]
    rfl
  · rw [parse_spelling rfl (spells_decimal _), if_pos (by simp [hk])] at hv
    cases hv

/-- The powers of sixteen from the 3600th on cannot be written. -/
theorem isWritable_pow_eq_false {k : Nat} (hk : 3600 ≤ k) : isWritable (16 ^ k) = false := by
  rw [Bool.eq_false_iff, Ne, isWritable_iff, Int.natAbs_pow, Nat.not_lt]
  -- The powers themselves are too large to be compared as they stand.
  have hgrowth (m : Nat) : 10 ^ (43 * m) ≤ 16 ^ (36 * m) := by
    rw [Nat.pow_mul, Nat.pow_mul]
    exact Nat.pow_le_pow_left (by norm_num) m
  calc 10 ^ digitLimit ≤ 10 ^ (43 * (k / 36)) := Nat.pow_le_pow_right (by decide) (by rw [digitLimit]; omega)
    _ ≤ 16 ^ (36 * (k / 36)) := hgrowth (k / 36)
    _ ≤ 16 ^ k := Nat.pow_le_pow_right (by decide) (by omega)

/-- **Not every integer has a literal.** The hexadecimal text of 16^3600 stands for an integer that cannot be
written, and the decimal text of that integer is not read. -/
theorem hugeText_unwritten :
    Primitive.int8.parse (powerText 3600) = .ok (.int (16 ^ 3600)) ∧
      Primitive.int8.render (powerText 3600) = .error .longInteger ∧
      ∀ v, Primitive.int8.parse (decimal (16 ^ 3600)) ≠ .ok v :=
  powerText_unwritten (isWritable_pow_eq_false (Nat.le_refl 3600))

end Primitive

end SimpleBinary
