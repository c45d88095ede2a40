import SimpleBinary.Number
import SimpleBinary.Proofs.Text.Parts

/-!
Integers and how they are spelled.

An integer is spelled by its digits in one of four bases, the most significant first and no zero in front of
them. A prefix names a base other than ten, and a minus sign comes before the digits of a negative integer.
Much is left open: a digit may be one of any script and a letter may be in either case, an underscore may
stand between two digits, and there may be blanks at both ends (`Spells`).

Whatever is left open, the integer is read back (`SpellsNat.integer`). Base ten alone has a limit: where there
are more digits than are read, their number is told.
-/

set_option autoImplicit false

namespace SimpleBinary.Numeral

open SimpleBinary.Text

/-! ## The digits of a number -/

/-- The digits of a number in a base, the most significant first. Zero has one digit. -/
def digitsOf (base n : Nat) : List Nat :=
  if n = 0 then [0] else (Nat.digits base n).reverse

section

variable {base n : Nat}

theorem digitsOf_ne_nil (base n : Nat) : digitsOf base n ≠ [] := by
  by_cases hn : n = 0
  · simp [digitsOf, hn]
  · simp [digitsOf, hn, Nat.digits_ne_nil_iff_ne_zero]

theorem lt_of_mem_digitsOf (hbase : 1 < base) {d : Nat} (hd : d ∈ digitsOf base n) : d < base := by
  by_cases hn : n = 0
  · simp only [digitsOf, hn, if_true, List.mem_singleton] at hd
    omega
  · simp only [digitsOf, hn, if_false, List.mem_reverse] at hd
    exact Nat.digits_lt_base hbase hd

/-- The digits of a number stand for it. -/
theorem ofDigits_digitsOf (base n : Nat) : ofDigits base (digitsOf base n) = n := by
  by_cases hn : n = 0
  · simp [digitsOf, ofDigits, hn]
  · have hfold : ofDigits base (Nat.digits base n).reverse = Nat.ofDigits base (Nat.digits base n) := by
      rw [ofDigits, List.foldl_reverse, Nat.ofDigits_eq_foldr]
      simp only [Nat.cast_id, Nat.add_comm, Nat.mul_comm]
    rw [digitsOf, if_neg hn, hfold, Nat.ofDigits_digits]

/-- No zero stands in front of the digits of a number. -/
theorem eq_zero_of_head?_digitsOf (h : (digitsOf base n).head? = some 0) : n = 0 := by
  by_contra hn
  rw [digitsOf, if_neg hn, List.head?_reverse] at h
  have hlast := Nat.getLast_digit_ne_zero base hn
  rw [List.getLast?_eq_getLast_of_ne_nil (Nat.digits_ne_nil_iff_ne_zero.mpr hn)] at h
  exact hlast (Option.some.inj h)

theorem isWritable_iff (n : Int) : isWritable n = true ↔ n.natAbs < 10 ^ digitLimit := by
  simp only [isWritable, Nat.pow_eq, decide_eq_true_eq]

theorem isWritable_natAbs (n : Int) : isWritable n.natAbs = isWritable n := by
  rw [isWritable, isWritable, Int.natAbs_natCast]

theorem length_digitsOf_le_iff (hbase : 1 < base) {k : Nat} (hk : 0 < k) :
    (digitsOf base n).length ≤ k ↔ n < base ^ k := by
  by_cases hn : n = 0
  · have hpos : 0 < base ^ k := by positivity
    simp only [digitsOf, hn, if_true, List.length_singleton]
    omega
  · rw [digitsOf, if_neg hn, List.length_reverse]
    exact Nat.digits_length_le_iff hbase n

end

/-! ## Rows of digits -/

/-- Whether a code point is written for a digit: a decimal digit of any script, or the letter of a greater
digit in either case. -/
def IsDigitFor (d : Nat) (p : CodePoint) : Prop :=
  decimalValue? p = some d ∨
    10 ≤ d ∧ d < 16 ∧ (p = .char (Nat.digitChar d) ∨ p = .char (Nat.digitChar d).toUpper)

/-- Whether a text is a row of digits, with or without an underscore between two of them. -/
inductive Row : List Nat → Text → Prop
  | last {d : Nat} {p : CodePoint} (digit : IsDigitFor d p) : Row [d] [p]
  | next {d : Nat} {ds : List Nat} {p : CodePoint} {t : Text} (digit : IsDigitFor d p) (rest : Row ds t) :
    Row (d :: ds) (p :: t)
  | parted {d : Nat} {ds : List Nat} {p : CodePoint} {t : Text} (digit : IsDigitFor d p)
    (rest : Row ds t) : Row (d :: ds) (p :: .char '_' :: t)

theorem plainDigit_underscore : plainDigit (.char '_') = '_' := by
  decide

theorem digitOf?_digitChar {d : Nat} (hd : d < 16) : digitOf? (Nat.digitChar d) = some d := by
  interval_cases d <;> decide

namespace IsDigitFor

variable {base d : Nat} {p : CodePoint}

theorem digitOf?_plainDigit (h : IsDigitFor d p) (hd : d < 16) : digitOf? (plainDigit p) = some d := by
  rcases h with h | ⟨hlow, -, h⟩
  · rw [plainDigit, h]
    exact digitOf?_digitChar hd
  · interval_cases d <;> rcases h with rfl | rfl <;> decide

/-- In ASCII, a digit has its value in each base that is greater. -/
theorem digitIn?_plainDigit (h : IsDigitFor d p) (hbase : base ≤ 16) (hd : d < base) :
    digitIn? base (plainDigit p) = some d := by
  rw [digitIn?, h.digitOf?_plainDigit (by omega), Option.filter_some, if_pos (by simpa using hd)]

/-- A digit is neither a sign nor an underscore. -/
theorem plainDigit_ne (h : IsDigitFor d p) (hd : d < 16) {c : Char} (hc : digitOf? c = none) :
    plainDigit p ≠ c := by
  intro heq
  have hsome := h.digitOf?_plainDigit hd
  rw [heq, hc] at hsome
  cases hsome

/-- The digits of all scripts are apart from the blanks. -/
theorem isBlank (h : IsDigitFor d p) : isBlank p = false := by
  rcases h with h | ⟨hlow, hhigh, h⟩
  · have hapart : ∀ start ∈ zeros, ∀ range ∈ blanks, start + 10 ≤ range.1 ∨ range.2 < start := by decide
    obtain ⟨start, hstart, hfound⟩ := List.exists_of_findSome?_eq_some h
    by_contra hblank
    rw [Bool.not_eq_false, Text.isBlank, Ranges.contains_eq_true_iff] at hblank
    obtain ⟨range, hrange, hfirst, hlast⟩ := hblank
    have hmeet := hapart start hstart range hrange
    simp only [Bool.and_eq_true, decide_eq_true_eq] at hfound
    split at hfound
    · omega
    · cases hfound
  · interval_cases d <;> rcases h with rfl | rfl <;> decide

end IsDigitFor

namespace Row

variable {base : Nat} {ds : List Nat} {t : Text}

/-- A row begins with a digit. -/
theorem exists_first (h : Row ds t) : ∃ d rest p after, ds = d :: rest ∧ t = p :: after ∧ IsDigitFor d p := by
  cases h with
  | last digit => exact ⟨_, _, _, _, rfl, rfl, digit⟩
  | next digit _ => exact ⟨_, _, _, _, rfl, rfl, digit⟩
  | parted digit _ => exact ⟨_, _, _, _, rfl, rfl, digit⟩

theorem isBlank (h : Row ds t) : ∀ p ∈ t, isBlank p = false := by
  induction h with
  | last digit => simpa using digit.isBlank
  | next digit _ ih => exact List.forall_mem_cons.mpr ⟨digit.isBlank, ih⟩
  | parted digit _ ih =>
    have hmark : Text.isBlank (.char '_') = false := by decide
    exact List.forall_mem_cons.mpr ⟨digit.isBlank, List.forall_mem_cons.mpr ⟨hmark, ih⟩⟩

/-- A row of digits is read digit by digit. -/
theorem digits? (h : Row ds t) (hbase : base ≤ 16) (hds : ∀ d ∈ ds, d < base) :
    Numeral.digits? base (t.map plainDigit) = some ds := by
  induction h with
  | last digit =>
    have hd := digit.digitIn?_plainDigit hbase (hds _ (List.mem_singleton_self _))
    simp [Numeral.digits?, hd]
  | @next d ds p t digit rest ih =>
    obtain ⟨hd, hds⟩ := List.forall_mem_cons.mp hds
    have hfirst := digit.digitIn?_plainDigit hbase hd
    have hrest := ih hds
    -- What follows is no underscore, since another digit comes first in it.
    obtain ⟨d', ds', p', t', rfl, rfl, digit'⟩ := rest.exists_first
    have hnext : plainDigit p' ≠ '_' :=
      digit'.plainDigit_ne (by have := hds d' (List.mem_cons_self ..); omega) (by decide)
    rw [List.map_cons] at hrest
    simp [Numeral.digits?, hfirst, hrest]
  | parted digit _ ih =>
    obtain ⟨hd, hds⟩ := List.forall_mem_cons.mp hds
    have hfirst := digit.digitIn?_plainDigit hbase hd
    simp [Numeral.digits?, plainDigit_underscore, hfirst, ih hds]

/-- The run at the front of a row is the whole row, and underscores are not counted. -/
theorem runLength? (h : Row ds t) (hds : ∀ d ∈ ds, d < 10) (afterDigit : Bool) :
    Numeral.runLength? afterDigit (t.map plainDigit) = some ds.length := by
  induction h generalizing afterDigit with
  | last digit =>
    have hd := digit.digitIn?_plainDigit (by decide) (hds _ (List.mem_singleton_self _))
    simp [Numeral.runLength?, hd]
  | next digit _ ih =>
    obtain ⟨hd, hds⟩ := List.forall_mem_cons.mp hds
    have hfirst := digit.digitIn?_plainDigit (by decide) hd
    simp [Numeral.runLength?, hfirst, ih hds]
  | parted digit _ ih =>
    obtain ⟨hd, hds⟩ := List.forall_mem_cons.mp hds
    have hfirst := digit.digitIn?_plainDigit (by decide) hd
    have hmark : digitIn? 10 '_' = none := by decide
    simp [Numeral.runLength?, plainDigit_underscore, hfirst, hmark, ih hds]

/-- A row of the digits of a number is read as the number. -/
theorem inBase? {n : Nat} (h : Row (digitsOf base n) t) (hlow : 1 < base) (hhigh : base ≤ 16) :
    Numeral.inBase? base (t.map plainDigit) = some n := by
  rw [Numeral.inBase?, h.digits? hhigh fun d hd => lt_of_mem_digitsOf hlow hd, Option.map_some,
    ofDigits_digitsOf]

/-- A row of decimal digits is read up to the limit, and refused for its length beyond. -/
theorem inBaseTen {n : Nat} (h : Row (digitsOf 10 n) t) :
    Numeral.inBaseTen (t.map plainDigit) =
      if isWritable n then .ok n else .error (.long (digitsOf 10 n).length) := by
  have hrun := h.runLength? (fun d hd => lt_of_mem_digitsOf (by decide) hd) false
  have hlimit := length_digitsOf_le_iff (n := n) (show 1 < 10 by decide) (show 0 < digitLimit by decide)
  have hwritable := isWritable_iff n
  rw [Int.natAbs_natCast] at hwritable
  rw [Numeral.inBaseTen, hrun, Option.getD_some]
  by_cases hn : isWritable n = true
  · have hshort := hlimit.mpr (hwritable.mp hn)
    rw [if_neg (by omega), if_pos hn, h.inBase? (by decide) (by decide)]
  · have hlong := mt (fun hle => hwritable.mpr (hlimit.mp hle)) hn
    rw [if_pos (by omega), if_neg hn]

end Row

/-! ## Spellings -/

/-- The bases that a literal can be written in. -/
inductive Radix
  | decimal
  | hexadecimal
  | octal
  | binary
  deriving DecidableEq, Repr

namespace Radix

def base : Radix → Nat
  | .decimal => 10
  | .hexadecimal => 16
  | .octal => 8
  | .binary => 2

/-- The small letter of the prefix that names a base. Base ten has no prefix. -/
def letter? : Radix → Option Char
  | .decimal => none
  | .hexadecimal => some 'x'
  | .octal => some 'o'
  | .binary => some 'b'

theorem one_lt_base (radix : Radix) : 1 < radix.base := by
  cases radix <;> decide

theorem base_le (radix : Radix) : radix.base ≤ 16 := by
  cases radix <;> decide

/-- The letter of a prefix, in either case, names the base, is no decimal digit and no blank. -/
theorem of_letter {radix : Radix} {letter : Char} {p : CodePoint} (h : radix.letter? = some letter)
    (hp : p = .char letter ∨ p = .char letter.toUpper) :
    baseOf? (plainDigit p) = some radix.base ∧ isBlank p = false := by
  cases radix with
  | decimal => cases h
  | _ =>
    obtain rfl := Option.some.inj h
    rcases hp with rfl | rfl <;> decide

end Radix

/-- Whether a text spells a number: by a row of its decimal digits, or by one of its digits in another base
behind the prefix that names this base. An underscore may follow the prefix. -/
inductive SpellsNat : Radix → Nat → Text → Prop
  | decimal {n : Nat} {t : Text} (digits : Row (digitsOf 10 n) t) : SpellsNat .decimal n t
  | prefixed {radix : Radix} {n : Nat} {letter : Char} {zero p : CodePoint} {mark t : Text}
    (hletter : radix.letter? = some letter) (hzero : IsDigitFor 0 zero)
    (hp : p = .char letter ∨ p = .char letter.toUpper) (hmark : mark = [] ∨ mark = [.char '_'])
    (digits : Row (digitsOf radix.base n) t) : SpellsNat radix n (zero :: p :: (mark ++ t))

/-- The minus sign of a negative integer. -/
def minus (n : Int) : Text :=
  if n < 0 then [.char '-'] else []

/-- Whether a text spells an integer: by its sign and its absolute value, with blanks at both ends. -/
def Spells (radix : Radix) (n : Int) (t : Text) : Prop :=
  ∃ before number after, t = before ++ (minus n ++ number) ++ after ∧ (∀ p ∈ before, isBlank p = true) ∧
    (∀ p ∈ after, isBlank p = true) ∧ SpellsNat radix n.natAbs number

/-- What is read for a number that is spelled in a base, with the given result: nothing for one with too
many decimal digits. -/
def withinLimit {α : Type} (radix : Radix) (n : Nat) (result : α) : Except Problem α :=
  if radix = .decimal ∧ ¬ isWritable n then .error (.long (digitsOf 10 n).length) else .ok result

theorem map_withinLimit {α β : Type} (f : α → β) (radix : Radix) (n : Nat) (result : α) :
    (withinLimit radix n result).map f = withinLimit radix n (f result) := by
  unfold withinLimit
  split <;> rfl

theorem plainDigit_zero {p : CodePoint} (h : IsDigitFor 0 p) : plainDigit p = '0' := by
  rcases h with h | ⟨hlow, -, -⟩
  · rw [plainDigit, h]
    rfl
  · omega

/-- A literal that begins with another digit than zero is decimal. -/
theorem unsignedLiteral_of_head {cs : List Char} (h : cs.head? ≠ some '0') :
    unsignedLiteral cs = inBaseTen cs := by
  unfold unsignedLiteral
  split
  · exact absurd rfl h
  · rfl

namespace SpellsNat

variable {radix : Radix} {n : Nat} {t : Text}

theorem isBlank (h : SpellsNat radix n t) : ∀ p ∈ t, isBlank p = false := by
  cases h with
  | decimal digits => exact digits.isBlank
  | prefixed hletter hzero hp hmark digits =>
    have hunderscore : Text.isBlank (.char '_') = false := by decide
    intro p hmem
    simp only [List.mem_cons, List.mem_append] at hmem
    rcases hmem with rfl | rfl | hmem | hmem
    · exact hzero.isBlank
    · exact (Radix.of_letter hletter hp).2
    · rcases hmark with rfl | rfl
      · cases hmem
      · rwa [List.mem_singleton.mp hmem]
    · exact digits.isBlank p hmem

/-- A spelling begins with a digit. -/
theorem exists_first (h : SpellsNat radix n t) : ∃ d p after, t = p :: after ∧ d < 16 ∧ IsDigitFor d p := by
  cases h with
  | decimal digits =>
    obtain ⟨d, rest, p, after, hds, rfl, digit⟩ := digits.exists_first
    have hd : d < 10 := lt_of_mem_digitsOf (by decide) (hds ▸ List.mem_cons_self ..)
    exact ⟨d, p, after, rfl, by omega, digit⟩
  | prefixed hletter hzero hp hmark digits => exact ⟨0, _, _, rfl, by decide, hzero⟩

/-- **A number is read back from its spellings.** -/
theorem unsignedLiteral (h : SpellsNat radix n t) :
    Numeral.unsignedLiteral (t.map plainDigit) = withinLimit radix n n := by
  cases h with
  | decimal digits =>
    have hdecimal : Numeral.unsignedLiteral (t.map plainDigit) = inBaseTen (t.map plainDigit) := by
      by_cases hn : n = 0
      · -- The only digit is a zero, behind which no prefix can stand.
        subst hn
        cases digits with
        | last digit => rw [List.map_singleton, plainDigit_zero digit]; rfl
        | next _ rest => cases rest
        | parted _ rest => cases rest
      · obtain ⟨d, rest, p, after, hds, rfl, digit⟩ := digits.exists_first
        refine unsignedLiteral_of_head ?_
        rw [List.map_cons, List.head?_cons]
        intro hzero
        have hd : d < 16 := by
          have hlt : d < 10 := lt_of_mem_digitsOf (by decide) (hds ▸ List.mem_cons_self ..)
          omega
        have hvalue := digit.digitOf?_plainDigit hd
        rw [Option.some.inj hzero] at hvalue
        obtain rfl : d = 0 := (Option.some.inj hvalue).symm
        exact hn (eq_zero_of_head?_digitsOf (by rw [hds, List.head?_cons]))
    rw [hdecimal, digits.inBaseTen, withinLimit]
    cases hn : isWritable n <;> simp
  | @prefixed radix n letter zero p mark t hletter hzero hp hmark digits =>
    have hbase := (Radix.of_letter hletter hp).1
    have hradix : radix ≠ .decimal := by
      rintro rfl
      cases hletter
    -- Without an underscore behind the prefix, the row begins with a digit, and nothing is dropped.
    have hafter : afterPrefix ((mark ++ t).map plainDigit) = t.map plainDigit := by
      rcases hmark with rfl | rfl
      · obtain ⟨d, rest, q, after, hds, rfl, digit⟩ := digits.exists_first
        have hlt := lt_of_mem_digitsOf radix.one_lt_base (hds ▸ List.mem_cons_self ..)
        have hle := radix.base_le
        have hne : plainDigit q ≠ '_' := digit.plainDigit_ne (by omega) (by decide)
        rw [List.nil_append, List.map_cons, afterPrefix]
        intro rest heq
        exact hne (List.cons.inj heq).1
      · rfl
    rw [List.map_cons, List.map_cons, plainDigit_zero hzero, Numeral.unsignedLiteral, hbase]
    simp only [hafter, digits.inBase? radix.one_lt_base radix.base_le]
    rw [withinLimit, if_neg (fun h => hradix h.1)]

/-- What spells a number in one code point is a digit. -/
theorem isDigit_of_single {p : CodePoint} (h : SpellsNat radix n [p]) : isDigit p = true := by
  cases h with
  | decimal digits =>
    obtain ⟨d, rest, q, after, hds, hp, digit⟩ := digits.exists_first
    obtain ⟨rfl, -⟩ := List.cons.inj hp
    have hd : d < 10 := lt_of_mem_digitsOf (by decide) (hds ▸ List.mem_cons_self ..)
    rcases digit with hvalue | ⟨hlow, -, -⟩
    · simp [isDigit, hvalue]
    · omega

end SpellsNat

/-! ## Signs and blanks -/

theorem isBlank_of_mem_minus {n : Int} : ∀ p ∈ minus n, isBlank p = false := by
  unfold minus
  split <;> decide

/-- A sign and a number have no blanks at their ends. -/
theorem SpellsNat.plain {radix : Radix} {m : Nat} {n : Int} {number : Text} (h : SpellsNat radix m number) :
    Numeral.plain (minus n ++ number) = (minus n ++ number).map plainDigit := by
  have hcore : ∀ p ∈ minus n ++ number, isMargin p = false := by
    intro p hp
    rw [isMargin, (List.mem_append.mp hp).elim (isBlank_of_mem_minus p) (h.isBlank p), Bool.false_and]
  obtain ⟨d, p, after, rfl, -, -⟩ := h.exists_first
  have htrim := dropWhile_ends (List.forall_mem_nil _) (List.forall_mem_nil _)
    (fun p hp => hcore p (List.mem_of_mem_head? hp)) (fun p hp => hcore p (List.mem_of_mem_getLast? hp)) (by simp)
  rw [List.nil_append, List.append_nil] at htrim
  rw [Numeral.plain, trimMargin, htrim]

/-- **An integer is read back from its sign and a spelling of its absolute value.** -/
theorem SpellsNat.integer {radix : Radix} {n : Int} {number : Text} (h : SpellsNat radix n.natAbs number) :
    Numeral.integer .literal (minus n ++ number) = withinLimit radix n.natAbs n := by
  rw [Numeral.integer, h.plain, minus]
  have hread : unsigned .literal (number.map plainDigit) = withinLimit radix n.natAbs n.natAbs :=
    h.unsignedLiteral
  by_cases hn : n < 0
  · have hsign : plainDigit (.char '-') = '-' := by decide
    have hnegative : -(n.natAbs : Int) = n := by omega
    rw [if_pos hn, List.singleton_append, List.map_cons, hsign, signed, hread]
    unfold withinLimit
    split
    · rfl
    · exact congrArg Except.ok hnegative
  · -- Without a sign, the first character is a digit and is not taken for one.
    obtain ⟨d, p, after, rfl, hd, digit⟩ := h.exists_first
    have hminus : plainDigit p ≠ '-' := digit.plainDigit_ne hd (by decide)
    have hplus : plainDigit p ≠ '+' := digit.plainDigit_ne hd (by decide)
    rw [if_neg hn, List.nil_append, signed, hread, map_withinLimit]
    · congr 1
      exact Int.natAbs_of_nonneg (by omega)
    · intro rest heq
      exact hminus (List.cons.inj heq).1
    · intro rest heq
      exact hplus (List.cons.inj heq).1

/-- Without the blanks at its ends, a spelling is a sign and a number. -/
theorem Spells.exists_trim {radix : Radix} {n : Int} {t : Text} (h : Spells radix n t) :
    ∃ number, t.trim = minus n ++ number ∧ SpellsNat radix n.natAbs number := by
  obtain ⟨before, number, after, rfl, hbefore, hafter, hnumber⟩ := h
  have hcore : ∀ p ∈ minus n ++ number, isBlank p = false := by
    intro p hp
    exact (List.mem_append.mp hp).elim (isBlank_of_mem_minus p) (hnumber.isBlank p)
  obtain ⟨d, p, rest, rfl, -, -⟩ := hnumber.exists_first
  refine ⟨_, dropWhile_ends hbefore hafter ?_ ?_ (by simp), hnumber⟩
  · exact fun p hp => hcore p (List.mem_of_mem_head? hp)
  · exact fun p hp => hcore p (List.mem_of_mem_getLast? hp)

end SimpleBinary.Numeral
