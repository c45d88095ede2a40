import SimpleBinary.Proofs.Class.Completeness
import SimpleBinary.Proofs.Class.OnLine
import SimpleBinary.Proofs.Class.Sizes

/-!
What the wire can carry.

An enumeration and a choice set are written as one integer. The format comes from the primitive type, the
number of bytes that are read from the encoded length, and the numbers that stand for the constants from
texts, and nothing compares the three. So it is said here exactly when they agree: a type that is given must
have the encoded length as its size (`Token.MeasuresWire`), the texts of the values must stand for numbers of
the type (`Enumeration.InRange`), and a set must have no more bits than the type has apart from its sign
(`Primitive.valueBits`). A set over a signed type of its own size has one bit too many: the top one cannot be
written.
-/

set_option autoImplicit false

namespace SimpleBinary

open Code Emission

/-! ## Integers in a format -/

namespace Primitive

/-- The number of bits of an integer type, that of the sign left aside. -/
def valueBits (p : Primitive) : Nat :=
  if p.isSigned then p.size * 8 - 1 else p.size * 8

/-- Whether an integer can be packed in the format of an integer type. -/
def Packs (p : Primitive) (n : Int) : Prop :=
  (if p.isSigned then -2 ^ p.valueBits else 0) ≤ n ∧ n < 2 ^ p.valueBits

instance (p : Primitive) (n : Int) : Decidable (p.Packs n) :=
  inferInstanceAs (Decidable (_ ∧ _))

/-- What is not negative is packed if it has no more bits than the type. -/
theorem packs_natCast {p : Primitive} {n : Nat} : p.Packs n ↔ n < 2 ^ p.valueBits := by
  have hlow : (if p.isSigned then -2 ^ p.valueBits else 0 : Int) ≤ n := by
    split
    · have hpos : (0 : Int) < 2 ^ p.valueBits := by positivity
      omega
    · omega
  rw [Packs, and_iff_right hlow]
  exact_mod_cast Iff.rfl

theorem packs_two_pow {p : Primitive} {k : Nat} : p.Packs (2 ^ k) ↔ k < p.valueBits := by
  have hcast : (2 ^ k : Int) = ((2 ^ k : Nat) : Int) := by push_cast; rfl
  rw [hcast, packs_natCast]
  exact Nat.pow_lt_pow_iff_right (by decide)

end Primitive

/-- Whether a number is an integer that can be packed in the format of a type. -/
def Number.IsPackedBy (p : Primitive) : Number → Prop
  | .int n => p.Packs n
  | .real _ => False

instance (p : Primitive) (n : Number) : Decidable (n.IsPackedBy p) := by
  cases n with
  | int value => exact inferInstanceAs (Decidable (p.Packs value))
  | real _ => exact inferInstanceAs (Decidable False)

/-! ## The integer type of a token -/

/-- Whether the type of a token, if it has one of its own, has the encoded length of the token as its size. -/
def Token.MeasuresWire (t : Token) : Prop :=
  ∀ type, t.primitive = some type → type ≠ .char → t.encodedLength = some (type.size : Int)

namespace Codec

/-- The unsigned integer of a number of bytes has that size. -/
theorem size_of_unsignedOf {length : Option Int} {type : Primitive} (h : unsignedOf length = some type) :
    length = some (type.size : Int) ∧ type.isInteger = true ∧ type.isSigned = false := by
  unfold unsignedOf at h
  split_ifs at h with h1 h2 h4 h8
  all_goals
    obtain rfl := Option.some.inj h
    exact ⟨by assumption, rfl, rfl⟩

/-- The type on the wire is that of the token, or the unsigned one of its length if it has none or that of
characters. -/
theorem integerType_ok {t : Token} {wire : Primitive} (h : integerType t = .ok wire) :
    (t.primitive = some wire ∧ wire.isInteger = true) ∨
      (t.primitive.getD .char = .char ∧ unsignedOf t.encodedLength = some wire) := by
  rw [integerType] at h
  split at h
  · rename_i hnone
    have htype : t.primitive.getD .char = .char := by
      cases htype : t.primitive with
      | none => rfl
      | some type => simpa [htype] using hnone
    split at h
    · rename_i hunsigned
      rw [← Except.ok.inj h]
      exact .inr ⟨htype, hunsigned⟩
    · cases h
  · rename_i type htype
    split at h
    · rename_i hinteger
      obtain rfl := Except.ok.inj h
      exact .inl ⟨(Option.filter_eq_some_iff.mp htype).1, hinteger⟩
    · cases h

/-- The length of a token is the size of its type on the wire, if that is chosen by the length or if the type
of the token measures it. -/
theorem encodedLength_eq_iff {t : Token} {wire : Primitive} (h : integerType t = .ok wire) :
    t.encodedLength = some (wire.size : Int) ↔ t.MeasuresWire := by
  rcases integerType_ok h with ⟨htype, hinteger⟩ | ⟨htype, hunsigned⟩
  · constructor
    · intro hlength type htype' _
      obtain rfl := Option.some.inj (htype.symm.trans htype')
      exact hlength
    · intro hmeasures
      refine hmeasures wire htype ?_
      rintro rfl
      cases hinteger
  · refine iff_of_true (size_of_unsignedOf hunsigned).1 fun type htype' hne => ?_
    rw [htype'] at htype
    exact absurd htype hne

end Codec

/-! ## Sizes -/

/-- All statements of the methods of a class. -/
def Code.ClassDef.statements (c : ClassDef) : List Stmt :=
  c.methods.flatMap Method.body

/-- Whether a class packs a type and nothing else, unpacks it, and reads as many bytes for it as its format
takes and as it tells. -/
def Code.ClassDef.SizesAgree (c : ClassDef) (wire : Primitive) : Prop :=
  ∃ n, Stmt.packed c.statements = [.one wire] ∧ Stmt.unpacked c.statements = [.one wire] ∧
    Stmt.exactly c.statements = [.count n] ∧ .static "encoded_length" [] (.count n) ∈ c.methods ∧
    calcsize none (Format.one wire).text.toList = some n

/-- Whether a class packs and unpacks an integer type, and reads a length for it, which it tells. -/
structure Code.ClassDef.Carries (c : ClassDef) (wire : Primitive) (length : Option Int) : Prop where
  packed : Stmt.packed c.statements = [.one wire]
  unpacked : Stmt.unpacked c.statements = [.one wire]
  exactly : Stmt.exactly c.statements = [.int length]
  told : .static "encoded_length" [] (.int length) ∈ c.methods

/-- Sizes agree if the length is the size of the type. -/
theorem Code.ClassDef.Carries.sizesAgree_iff {c : ClassDef} {wire : Primitive} {length : Option Int}
    (h : c.Carries wire length) : c.SizesAgree wire ↔ length = some (wire.size : Int) := by
  have hsize : calcsize none (Format.one wire).text.toList = some (wire.size : Int) := by
    rw [Codec.calcsize_uncounted (by simp [Format.one]), Format.size_one]
  constructor
  · rintro ⟨n, -, -, hexactly, -, hn⟩
    have hlength := Expr.int.inj (List.singleton_inj.mp (h.exactly.symm.trans hexactly))
    rw [hlength, ← hn, hsize]
  · rintro rfl
    exact ⟨_, h.packed, h.unpacked, h.exactly, h.told, hsize⟩

/-- Whether statements pack, unpack and read nothing. -/
structure Code.Stmt.Silent (stmts : List Stmt) : Prop where
  packed : Stmt.packed stmts = []
  unpacked : Stmt.unpacked stmts = []
  exactly : Stmt.exactly stmts = []

theorem Code.Stmt.silent_flatMap {α : Type} {f : α → List Method} (as : List α)
    (h : ∀ a, Silent ((f a).flatMap Method.body)) : Silent ((as.flatMap f).flatMap Method.body) := by
  induction as with
  | nil => exact ⟨rfl, rfl, rfl⟩
  | cons a rest ih =>
    have hfirst := h a
    rw [List.flatMap_cons, List.flatMap_append]
    constructor
    · rw [packed, partsAll_append, List.filterMap_append]
      exact List.append_eq_nil_iff.mpr ⟨hfirst.packed, ih.packed⟩
    · rw [unpacked, partsAll_append, List.filterMap_append]
      exact List.append_eq_nil_iff.mpr ⟨hfirst.unpacked, ih.unpacked⟩
    · rw [exactly, partsAll_append, List.filterMap_append]
      exact List.append_eq_nil_iff.mpr ⟨hfirst.exactly, ih.exactly⟩

/-- A class whose first methods carry a type, and whose other methods are silent. -/
theorem Code.ClassDef.carries_of_silent {c : ClassDef} {first others : List Method} {wire : Primitive}
    {length : Option Int} (hmethods : c.methods = first ++ others)
    (hsilent : Stmt.Silent (others.flatMap Method.body))
    (hpacked : Stmt.packed (first.flatMap Method.body) = [.one wire])
    (hunpacked : Stmt.unpacked (first.flatMap Method.body) = [.one wire])
    (hexactly : Stmt.exactly (first.flatMap Method.body) = [.int length])
    (htold : .static "encoded_length" [] (.int length) ∈ first) : c.Carries wire length := by
  have hstatements : c.statements = first.flatMap Method.body ++ others.flatMap Method.body := by
    rw [statements, hmethods, List.flatMap_append]
  constructor
  · rw [hstatements, Stmt.packed, Stmt.partsAll_append, List.filterMap_append]
    exact congrArg₂ (· ++ ·) hpacked hsilent.packed
  · rw [hstatements, Stmt.unpacked, Stmt.partsAll_append, List.filterMap_append]
    exact congrArg₂ (· ++ ·) hunpacked hsilent.unpacked
  · rw [hstatements, Stmt.exactly, Stmt.partsAll_append, List.filterMap_append]
    exact congrArg₂ (· ++ ·) hexactly hsilent.exactly
  · rw [hmethods]
    exact List.mem_append_left _ htold

theorem Enumeration.carries (e : Enumeration) : e.toClass.Carries e.wire e.token.encodedLength :=
  ClassDef.carries_of_silent rfl (Stmt.silent_flatMap e.values fun _ => ⟨rfl, rfl, rfl⟩) rfl rfl rfl
    (by simp)

theorem ChoiceSet.carries (s : ChoiceSet) : s.toClass.Carries s.wire s.token.encodedLength :=
  ClassDef.carries_of_silent rfl (Stmt.silent_flatMap s.choices fun _ => ⟨rfl, rfl, rfl⟩) rfl rfl rfl
    (by simp)

/-! ## Enumerations -/

/-- The numbers that are set as members of a class after it, by the names of the members. -/
def Code.ClassDef.members (c : ClassDef) : List (String × Number) :=
  c.trailer.filterMap fun
    | .assign (.member (.name owner) member) (.call (.name type) [.number value]) =>
      if owner = c.name ∧ type = c.name then some (member, value) else none
    | _ => none

namespace Enumeration

/-- The members of the class of an enumeration are its values and the null value. -/
theorem members_toClass (e : Enumeration) :
    e.toClass.members = (e.values.map fun v => (v.name, v.value)) ++ [("NULL_VALUE", e.null)] := by
  simp [ClassDef.members, toClass, setMember, Expr.apply, names]

theorem describes_of_ofTokens {tokens : List Token} {e : Enumeration}
    (h : (ofTokens tokens).outcome = .ok e) : Describes tokens e :=
  (isDefinedBy_of_yields (yields_self h)).toDescribes

/-- Whether the texts of the values, and that of the null value if there is one, stand for numbers that are
packed in the format of a type. -/
structure InRange (tokens : List Token) (first : Token) (wire : Primitive) : Prop where
  values : ∀ t ∈ tokens, t.signal = .validValue → ∀ n,
    (first.primitive.getD .uint8).parse (t.encoding.constValue.getD "None") = .ok n → n.IsPackedBy wire
  null : ∀ text, first.encoding.nullValue = some text → ∀ n,
    (first.primitive.getD .uint8).parse text = .ok n → n.IsPackedBy wire

/-- The null value of a type can always be packed, whatever length the type on the wire is chosen by. -/
theorem isPackedBy_null {t : Token} {wire : Primitive} (h : Codec.integerType t = .ok wire) :
    ((t.primitive.getD .uint8).bounds.null).IsPackedBy wire := by
  rcases Codec.integerType_ok h with ⟨htype, hinteger⟩ | ⟨htype, hunsigned⟩
  · rw [htype, Option.getD_some]
    cases wire with
    | char | float | double => cases hinteger
    | _ => decide
  · have hnull : t.primitive.getD .uint8 = .uint8 ∨ t.primitive.getD .uint8 = .char := by
      cases hgiven : t.primitive with
      | none => exact .inl rfl
      | some type => exact .inr (by rwa [hgiven] at htype)
    obtain ⟨-, hinteger, hsigned⟩ := Codec.size_of_unsignedOf hunsigned
    rcases hnull with hnull | hnull <;> rw [hnull]
    all_goals cases wire with
      | char | float | double => cases hinteger
      | int8 | int16 | int32 | int64 => cases hsigned
      | _ => decide

/-- The null value of an accepted enumeration can be packed if its text, where there is one, stands for a
number in range. -/
theorem Describes.isPackedBy_null_iff {tokens : List Token} {e : Enumeration} (h : Describes tokens e) :
    e.null.IsPackedBy e.wire ↔ ∀ text, e.token.encoding.nullValue = some text → ∀ n,
      (e.token.primitive.getD .uint8).parse text = .ok n → n.IsPackedBy e.wire := by
  have hnull := h.null
  rw [nullOf, h.type] at hnull
  cases htext : e.token.encoding.nullValue with
  | none =>
    rw [htext] at hnull
    refine iff_of_true ?_ (by simp)
    rw [← Except.ok.inj hnull]
    exact isPackedBy_null h.wire
  | some text =>
    rw [htext] at hnull
    constructor
    · rintro hpacked _ ⟨rfl⟩ n hn
      rwa [Except.ok.inj (hn.symm.trans hnull)]
    · exact fun hrange => hrange text rfl e.null hnull

theorem parse_of_enumerator {type : Primitive} {t : Token} {v : Enumerator} (h : enumerator type t = .ok v) :
    type.parse (t.encoding.constValue.getD "None") = .ok v.value := by
  rw [enumerator] at h
  obtain ⟨value, hvalue, h⟩ := except_bind_ok h
  obtain ⟨checked, hchecked, h⟩ := except_bind_ok h
  obtain rfl := Except.ok.inj h
  rw [hvalue, Number.eq_of_checked hchecked]

/-- The values of an accepted enumeration can be packed if their texts stand for numbers in range. -/
theorem Describes.isPackedBy_values_iff {tokens : List Token} {e : Enumeration} (h : Describes tokens e) :
    (∀ v ∈ e.values, v.value.IsPackedBy e.wire) ↔ ∀ t ∈ tokens, t.signal = .validValue → ∀ n,
      (e.token.primitive.getD .uint8).parse (t.encoding.constValue.getD "None") = .ok n →
        n.IsPackedBy e.wire := by
  have hvalues := h.values
  rw [h.type] at hvalues
  constructor
  · intro hpacked t ht hsignal n hn
    obtain ⟨v, hv, hvalue⟩ := exists_mem_of_mapM hvalues (List.mem_filter.mpr ⟨ht, by simp [hsignal]⟩)
    rw [Except.ok.inj (hn.symm.trans (parse_of_enumerator hvalue))]
    exact hpacked v hv
  · intro hrange v hv
    obtain ⟨t, ht, hvalue⟩ := exists_of_mem_mapM hvalues hv
    obtain ⟨ht, hsignal⟩ := List.mem_filter.mp ht
    exact hrange t ht (by simpa using hsignal) _ (parse_of_enumerator hvalue)

/-- Whether the class of an enumeration has the size of what it writes, and its members can all be
written. -/
structure Fits (e : Enumeration) : Prop where
  sizes : e.toClass.SizesAgree e.wire
  members : ∀ m ∈ e.toClass.members, m.2.IsPackedBy e.wire

theorem Describes.fits_iff {tokens : List Token} {e : Enumeration} (h : Describes tokens e) :
    e.Fits ↔ e.token.MeasuresWire ∧ InRange tokens e.token e.wire := by
  have hmembers : (∀ m ∈ e.toClass.members, m.2.IsPackedBy e.wire) ↔
      (∀ v ∈ e.values, v.value.IsPackedBy e.wire) ∧ e.null.IsPackedBy e.wire := by
    simp [members_toClass, or_imp, forall_and]
  rw [h.isPackedBy_values_iff, h.isPackedBy_null_iff] at hmembers
  have hsizes := e.carries.sizesAgree_iff.trans (Codec.encodedLength_eq_iff h.wire)
  constructor
  · intro hfits
    obtain ⟨hvalues, hnull⟩ := hmembers.mp hfits.members
    exact ⟨hsizes.mp hfits.sizes, hvalues, hnull⟩
  · rintro ⟨hmeasures, hvalues, hnull⟩
    exact ⟨hsizes.mpr hmeasures, hmembers.mpr ⟨hvalues, hnull⟩⟩

end Enumeration

/-! ## Choice sets -/

namespace ChoiceSet

/-- The integer that bits are written as, from a bit on: `encodeMethod` sets those that are true. -/
def wireFrom (wire bit : Nat) : List Bool → Nat
  | [] => wire
  | value :: rest => wireFrom (if value then wire ||| 1 <<< bit else wire) (bit + 1) rest

/-- The integer that the bits of a set are written as. -/
def wireOf (bits : List Bool) : Nat :=
  wireFrom 0 0 bits

theorem testBit_set (wire bit k : Nat) (value : Bool) :
    (if value then wire ||| 1 <<< bit else wire).testBit k =
      (wire.testBit k || (value && decide (bit = k))) := by
  cases value with
  | false => simp
  | true => simp [Nat.one_shiftLeft, Nat.testBit_two_pow]

theorem testBit_wireFrom (wire bit : Nat) (bits : List Bool) (k : Nat) :
    (wireFrom wire bit bits).testBit k =
      (wire.testBit k || (decide (bit ≤ k) && bits.getD (k - bit) false)) := by
  induction bits generalizing wire bit with
  | nil => simp [wireFrom]
  | cons value rest ih =>
    rw [wireFrom, ih, testBit_set]
    -- The bits below are those written before, the bit itself is the first value, the others are the rest.
    rcases Nat.lt_trichotomy k bit with hlt | rfl | hgt
    · simp [show bit ≠ k by omega, show ¬ bit ≤ k by omega, show ¬ bit + 1 ≤ k by omega]
    · simp
    · obtain ⟨d, rfl⟩ := Nat.exists_eq_add_of_lt hgt
      have hshift : bit + d + 1 - bit = d + 1 := by omega
      have hrest : bit + d + 1 - (bit + 1) = d := by omega
      rw [hshift, hrest, List.getD_cons_succ]
      simp [show bit ≠ bit + d + 1 by omega, show bit ≤ bit + d + 1 by omega,
        show bit + 1 ≤ bit + d + 1 by omega]

/-- A bit is written exactly if it is true. -/
theorem testBit_wireOf (bits : List Bool) (k : Nat) : (wireOf bits).testBit k = bits.getD k false := by
  simp [wireOf, testBit_wireFrom]

/-- A set of some bits needs no more bits on the wire. -/
theorem wireOf_lt (bits : List Bool) : wireOf bits < 2 ^ bits.length := by
  refine Nat.lt_pow_two_of_testBit _ fun k hk => ?_
  rw [testBit_wireOf, List.getD_eq_default _ _ hk]

/-- The bits of a set in which one bit alone is true. -/
def only (k width : Nat) : List Bool :=
  (List.range width).map (· == k)

theorem wireOf_only {k width : Nat} (h : k < width) : wireOf (only k width) = 2 ^ k := by
  refine Nat.eq_of_testBit_eq fun j => ?_
  rw [testBit_wireOf, Nat.testBit_two_pow]
  by_cases hj : j < width
  · simp [only, hj, Bool.beq_eq_decide_eq, eq_comm]
  · have hne : k ≠ j := by omega
    simp [only, hj, hne]

theorem bit_of_choice {set : String} {width : Int} {t : Token} {c : Choice} (h : choice set width t = .ok c) :
    0 ≤ c.bit ∧ c.bit < width := by
  rw [choice] at h
  obtain ⟨bit, -, h⟩ := except_bind_ok h
  split at h
  · rename_i hbit
    obtain rfl := Except.ok.inj h
    exact hbit
  · cases h

theorem describes_of_ofTokens {tokens : List Token} {s : ChoiceSet}
    (h : (ofTokens tokens).outcome = .ok s) : Describes tokens s :=
  (isDefinedBy_of_yields (yields_self h)).toDescribes

/-- Whether the class of a set has the size of what it writes, and all bits that it holds can be written,
together and each choice alone. -/
structure Fits (s : ChoiceSet) : Prop where
  sizes : s.toClass.SizesAgree s.wire
  patterns : ∀ bits : List Bool, bits.length = s.width.toNat → s.wire.Packs (wireOf bits)
  choices : ∀ c ∈ s.choices, s.wire.Packs (2 ^ c.bit.toNat)

/-- All bits of a set can be written if its type has as many, apart from the sign. -/
theorem packs_wireOf_iff (wire : Primitive) (width : Nat) :
    (∀ bits : List Bool, bits.length = width → wire.Packs (wireOf bits)) ↔ width ≤ wire.valueBits := by
  constructor
  · intro hpacks
    by_contra hwidth
    -- The first bit beyond those of the type, alone, is already out of range.
    have htop := hpacks (only wire.valueBits width) (by simp [only])
    rw [wireOf_only (Nat.not_le.mp hwidth)] at htop
    have hcast : ((2 ^ wire.valueBits : Nat) : Int) = 2 ^ wire.valueBits := by push_cast; rfl
    rw [hcast, Primitive.packs_two_pow] at htop
    exact Nat.lt_irrefl _ htop
  · rintro hwidth bits rfl
    exact Primitive.packs_natCast.mpr
      (Nat.lt_of_lt_of_le (wireOf_lt bits) (Nat.pow_le_pow_right (by decide) hwidth))

/-- A set whose length is the size of its type has a bit for the sign too. -/
theorem Describes.width_le_iff {tokens : List Token} {s : ChoiceSet} (h : Describes tokens s)
    (hmeasures : s.token.MeasuresWire) : s.width.toNat ≤ s.wire.valueBits ↔ s.wire.isSigned = false := by
  have hwidth := h.width
  rw [(Codec.encodedLength_eq_iff h.wire).mpr hmeasures] at hwidth
  have hsize : s.width.toNat = s.wire.size * 8 := by
    rw [← Option.some.inj hwidth]
    exact Int.toNat_natCast (s.wire.size * 8)
  have hpos : 0 < s.wire.size := by cases s.wire <;> decide
  rw [hsize, Primitive.valueBits]
  cases s.wire.isSigned with
  | true =>
    have hless : ¬ s.wire.size * 8 ≤ s.wire.size * 8 - 1 := by omega
    simpa using hless
  | false => simp

theorem Describes.fits_iff {tokens : List Token} {s : ChoiceSet} (h : Describes tokens s) :
    s.Fits ↔ s.token.MeasuresWire ∧ s.wire.isSigned = false := by
  have hsizes := s.carries.sizesAgree_iff.trans (Codec.encodedLength_eq_iff h.wire)
  constructor
  · intro hfits
    have hmeasures := hsizes.mp hfits.sizes
    exact ⟨hmeasures, (h.width_le_iff hmeasures).mp ((packs_wireOf_iff ..).mp hfits.patterns)⟩
  · rintro ⟨hmeasures, hsigned⟩
    have hwidth := (h.width_le_iff hmeasures).mpr hsigned
    refine ⟨hsizes.mpr hmeasures, (packs_wireOf_iff ..).mpr hwidth, fun c hc => ?_⟩
    obtain ⟨t, ht⟩ := h.choices c hc
    obtain ⟨hlow, hhigh⟩ := bit_of_choice ht
    rw [Primitive.packs_two_pow]
    omega

end ChoiceSet

/-! ## Both -/

/-- **Enumerations and sets carry what they declare, if their tokens agree.** The class of an accepted
enumeration has the size of what it writes, and all its members can be written, exactly if the type of its
token measures the wire and the texts of its values are in range. That of an accepted set has the size of what
it writes, and can write all its bits, exactly if the type measures the wire and has no sign. -/
theorem ofTokens_fit_iff (tokens : List Token) :
    (∀ e, (Enumeration.ofTokens tokens).outcome = .ok e →
      (e.Fits ↔ e.token.MeasuresWire ∧ Enumeration.InRange tokens e.token e.wire)) ∧
    (∀ s, (ChoiceSet.ofTokens tokens).outcome = .ok s →
      (s.Fits ↔ s.token.MeasuresWire ∧ s.wire.isSigned = false)) :=
  ⟨fun _ he => (Enumeration.describes_of_ofTokens he).fits_iff,
    fun _ hs => (ChoiceSet.describes_of_ofTokens hs).fits_iff⟩

theorem isPackedBy_of_parse {type wire : Primitive} {text : Text} {n : Number} (h : type.parse text = .ok n)
    (hall : ((type.parse text).toOption.all fun n => decide (n.IsPackedBy wire)) = true) :
    n.IsPackedBy wire := by
  simpa [h, Except.toOption] using hall

/-- The sides of an order and its conditions carry what they declare. -/
theorem sideTokens_fit :
    (∃ e, (Enumeration.ofTokens sideTokens).outcome = .ok e ∧ e.values.length = 1 ∧ e.Fits) ∧
    ∃ s, (ChoiceSet.ofTokens conditionTokens).outcome = .ok s ∧ s.choices.length = 1 ∧ s.Fits := by
  obtain ⟨e, he, hvalues⟩ := exists_sides
  obtain ⟨s, hs, hchoices⟩ := exists_conditions
  have hside := Enumeration.describes_of_ofTokens he
  have hconditions := ChoiceSet.describes_of_ofTokens hs
  have hsideWire : e.wire = .uint8 := by
    have hwire := hside.wire
    rw [← Option.some.inj hside.first] at hwire
    exact (Except.ok.inj hwire).symm
  have hconditionsWire : s.wire = .uint8 := by
    have hwire := hconditions.wire
    rw [← Option.some.inj hconditions.first] at hwire
    exact (Except.ok.inj hwire).symm
  refine ⟨⟨e, he, hvalues, ((ofTokens_fit_iff sideTokens).1 e he).mpr ⟨?_, ?_⟩⟩,
    ⟨s, hs, hchoices, ((ofTokens_fit_iff conditionTokens).2 s hs).mpr ⟨?_, ?_⟩⟩⟩
  · rw [← Option.some.inj hside.first]
    rintro type ⟨rfl⟩ -
    rfl
  · rw [← Option.some.inj hside.first, hsideWire]
    constructor
    · intro t ht hsignal n hn
      obtain rfl : t = { signal := .validValue, name := "buy", encoding := { constValue := some "1" } } := by
        simp only [sideTokens, List.mem_cons, List.not_mem_nil, or_false] at ht
        rcases ht with rfl | rfl | rfl
        · cases hsignal
        · rfl
        · cases hsignal
      exact isPackedBy_of_parse hn (by decide +kernel)
    · intro text htext
      cases htext
  · rw [← Option.some.inj hconditions.first]
    rintro type ⟨rfl⟩ -
    rfl
  · rw [hconditionsWire]
    rfl

/-- The tokens of a level of two bytes that is said to have one, with a value that has three. -/
def levelTokens : List Token := [
  { signal := .opens .enumeration, name := "level", encodedLength := some 1
    encoding := { primitive := some .uint16 } },
  { signal := .validValue, name := "peak", encoding := { constValue := some "70000" } },
  { signal := .closes .enumeration, name := "level" }]

/-- The tokens of flags in a signed byte, the last of which has the bit of the sign. -/
def flagTokens : List Token := [
  { signal := .opens .choiceSet, name := "flags", encodedLength := some 1
    encoding := { primitive := some .int8 } },
  { signal := .choice, name := "last", encoding := { constValue := some "7" } },
  { signal := .closes .choiceSet, name := "flags" }]

/-- The levels and the flags are accepted, but the size of a level is not that of its format, its value is
out of range, and the last flag cannot be written. -/
theorem levelTokens_misfit :
    (∃ e, (Enumeration.ofTokens levelTokens).outcome = .ok e ∧ ¬ e.toClass.SizesAgree e.wire ∧
      ∃ m ∈ e.toClass.members, ¬ m.2.IsPackedBy e.wire) ∧
    ∃ s, (ChoiceSet.ofTokens flagTokens).outcome = .ok s ∧ s.toClass.SizesAgree s.wire ∧
      ∃ c ∈ s.choices, ¬ s.wire.Packs (2 ^ c.bit.toNat) := by
  have hlevel : ((Enumeration.ofTokens levelTokens).outcome.map fun e => (e.wire, e.token.encodedLength,
      decide (∃ v ∈ e.values, ¬ v.value.IsPackedBy e.wire))).toOption =
        some (.uint16, some 1, true) := by
    decide +kernel
  have hflags : ((ChoiceSet.ofTokens flagTokens).outcome.map fun s => (s.wire, s.token.encodedLength,
      decide (∃ c ∈ s.choices, ¬ s.wire.Packs (2 ^ c.bit.toNat)))).toOption =
        some (.int8, some 1, true) := by
    decide +kernel
  obtain ⟨e, he, hlevel⟩ := exists_of_computed hlevel
  obtain ⟨s, hs, hflags⟩ := exists_of_computed hflags
  simp only [Prod.mk.injEq, decide_eq_true_eq] at hlevel hflags
  obtain ⟨hwire, hlength, v, hv, hvalue⟩ := hlevel
  obtain ⟨hwire', hlength', hbit⟩ := hflags
  refine ⟨⟨e, he, ?_, (v.name, v.value), ?_, hvalue⟩, s, hs, ?_, hbit⟩
  · rw [e.carries.sizesAgree_iff, hlength, hwire]
    decide
  · rw [Enumeration.members_toClass]
    exact List.mem_append_left _ (List.mem_map_of_mem hv)
  · rw [s.carries.sizesAgree_iff, hlength', hwire']
    rfl

end SimpleBinary
