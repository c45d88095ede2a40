import SimpleBinary.Proofs.Block.Advance
import SimpleBinary.Proofs.Class.Methods
import SimpleBinary.Proofs.Class.Source

/-!
Sizes on the wire.

How many bytes a field takes is said by each method in its own way: `encode` packs a format, `decode`
unpacks one and asks for a number of bytes, and the walk has advanced by an encoded length. The values at
the start and where the field is not there must have the length that the format packs. All of these are
read off the emitted source here, and the text of a format is measured as a text (`calcsize`), so that
nothing rests on how the source was made.
-/

set_option autoImplicit false

namespace SimpleBinary

open Code Emission

/-! ## Formats -/

/-- The primitive type of a code in a packed format. -/
def Primitive.ofCode? (code : Char) : Option Primitive :=
  Primitive.all.find? fun type => type.code == code

namespace Code

/-- The number of bytes that the text of a format stands for, if it is one: the digits of a count stand
before the code that it belongs to. -/
def calcsize (count : Option Int) : List Char → Option Int
  | [] => if count.isNone then some 0 else none
  | c :: rest =>
    if c.isDigit then calcsize (some (10 * count.getD 0 + ((c.toNat : Int) - 48))) rest
    else do
      let type ← Primitive.ofCode? c
      return count.getD 1 * type.size + (← calcsize none rest)

/-- The digits of a number are read as the number. -/
theorem calcsize_toDigits (n : Nat) (rest : List Char) :
    calcsize none (Nat.toDigits 10 n ++ rest) = calcsize (some n) rest := by
  induction n using Nat.strongRecOn generalizing rest with
  | ind n ih =>
    have hdigit (count : Option Int) (d : Nat) (hd : d < 10) :
        calcsize count (d.digitChar :: rest) = calcsize (some (10 * count.getD 0 + d)) rest := by
      rw [calcsize, if_pos (by rw [Nat.isDigit_digitChar, decide_eq_true hd]),
        Nat.toNat_digitChar_of_lt_ten hd, show ((48 + d : Nat) : Int) - 48 = d by omega]
    by_cases hlt : n < 10
    · rw [Nat.toDigits_of_lt_base hlt, List.singleton_append, hdigit none n hlt]
      simp
    · -- All digits but the last are those of the tenth, to which the last one is added.
      rw [Nat.toDigits_of_base_le (by omega) (by omega), List.append_assoc, ih (n / 10) (by omega),
        List.singleton_append, hdigit _ _ (Nat.mod_lt _ (by omega))]
      congr 2
      simp only [Option.getD_some]
      omega

theorem calcsize_code (count : Option Int) (type : Primitive) (rest : List Char) :
    calcsize count (type.code :: rest) =
      (calcsize none rest).map fun bytes => count.getD 1 * type.size + bytes := by
  have hcode : type.code.isDigit = false ∧ Primitive.ofCode? type.code = some type := by
    cases type <;> decide
  rw [calcsize, hcode.1, hcode.2]
  cases calcsize none rest <;> rfl

namespace Format

/-- The number of values that a format packs. A text of characters counts as so many. -/
def values (f : Format) : Int :=
  (f.map fun p => p.count.getD 1).sum

/-- Whether no count of a format is negative. -/
def IsCounted (f : Format) : Prop :=
  ∀ p ∈ f, ∀ n, p.count = some n → 0 ≤ n

/-- **The text of a format stands for as many bytes as the format packs.** -/
theorem calcsize_text {f : Format} (h : f.IsCounted) : calcsize none f.text.toList = some f.size := by
  induction f with
  | nil => rfl
  | cons p rest ih =>
    obtain ⟨hp, hrest⟩ := List.forall_mem_cons.mp h
    obtain ⟨count, type⟩ := p
    have htext : (Format.text (⟨count, type⟩ :: rest)).toList =
        (count.elim "" fun n => toString n).toList ++ type.code :: (Format.text rest).toList := by
      cases count <;> simp [Format.text, String.join_cons, Packed.text]
    have hsize : Format.size (⟨count, type⟩ :: rest) = count.getD 1 * type.size + Format.size rest := rfl
    rw [htext, hsize]
    cases count with
    | none => simp [calcsize_code, ih hrest]
    | some n =>
      obtain ⟨m, rfl⟩ := Int.eq_ofNat_of_zero_le (hp n rfl)
      have hdigits : (toString (m : Int)).toList = Nat.toDigits 10 m := by
        simp [toString, Int.repr, Nat.repr]
      rw [Option.elim_some, hdigits, calcsize_toDigits, calcsize_code, ih hrest]
      rfl

end Format

/-! ## What the source packs, unpacks and reads -/

/-- The format that an expression packs values in. -/
def Expr.packed? : Expr → Option Format
  | .call (.member (.name "struct") "pack") (.binary .add (.name "order") (.format f) :: _) => some f
  | _ => none

/-- The format that an expression unpacks values from. -/
def Expr.unpacked? : Expr → Option Format
  | .call (.member (.name "struct") "unpack") (.binary .add (.name "order") (.format f) :: _) => some f
  | _ => none

/-- The number of bytes that an expression reads. -/
def Expr.exactly? : Expr → Option Expr
  | .call (.name "read_exact") [.name "reader", size] => some size
  | _ => none

/-- The number of values that an expression stands for; characters are counted in a text of bytes, and a
call of a method without arguments stands for one value. -/
def Expr.values? : Expr → Option Int
  | .int _ | .number _ | .call (.member (.name "self") _) [] => some 1
  | .list items => some items.length
  | .call (.name "bytes") [.int count] => count
  | .call (.name "bytes") [.list items] => some items.length
  | .binary .times (.list items) (.int count) => count.map fun n => items.length * n
  | .binary .times (.call (.name "bytes") [.list items]) (.int count) =>
    count.map fun n => items.length * n
  | _ => none

/-- The formats that statements pack values in. -/
def Stmt.packed (stmts : List Stmt) : List Format :=
  (Stmt.partsAll Expr.never stmts).filterMap Expr.packed?

/-- The formats that statements unpack values from. -/
def Stmt.unpacked (stmts : List Stmt) : List Format :=
  (Stmt.partsAll Expr.never stmts).filterMap Expr.unpacked?

/-- The numbers of bytes that statements read. -/
def Stmt.exactly (stmts : List Stmt) : List Expr :=
  (Stmt.partsAll Expr.never stmts).filterMap Expr.exactly?

end Code

/-! ## What a step says about sizes -/

/-- Whether all that is said about the size of a field on the wire is one number of bytes, and its values
have the length that its format packs. Characters are read as they are, and not unpacked. -/
structure FieldSizes (property : String) (type : Primitive) (bytes : Int) (b : Bodies) : Prop where
  encode : ∃ f, Stmt.packed b.encode = [f] ∧ calcsize none f.text.toList = some bytes ∧
    (∃ zero, b.zero = [.assign (.own property) zero] ∧ zero.values? = some f.values) ∧
    ∃ present null, b.decode =
        [.branch (Codec.isPresent property) present [.assign (.own property) null]] ∧
      null.values? = some f.values
  decode : Stmt.exactly b.decode = [.int (some bytes)]
  unpack : if type = .char then Stmt.unpacked b.decode = []
    else ∃ f, Stmt.unpacked b.decode = [f] ∧ calcsize none f.text.toList = some bytes

/-- Whether a header is unpacked as it is packed, and as many bytes are read for it as it takes. -/
structure HeaderSizes (b : Bodies) : Prop where
  agree : ∃ f bytes, Stmt.packed b.encode = [f] ∧ Stmt.unpacked b.decode = [f] ∧
    (Stmt.exactly b.decode).head? = some (.int (some bytes)) ∧ calcsize none f.text.toList = some bytes

/-- What a step of a walk over tokens and the source that it is rendered to say about sizes. -/
def Step.SizesAgree (blank : Plan) (ts : List Token) (b : Bodies) : Step → Prop
  | .primitive field encoding => Walk.isConstant field encoding = false →
    ∀ type count, encoding.primitive = some type → encoding.arrayLength = some count → 1 ≤ count →
      encoding.encodedLength = some (type.size * count) →
        FieldSizes (Identifier.propertyName field.name) type (type.size * count) b ∧
          Walk.Advances blank ts field encoding (.primitive field encoding) (type.size * count)
  | .group .. | .varData .. => HeaderSizes b
  | _ => True

namespace Codec

section

variable {type : Primitive} {count : Int}

/-- A number of values of a type is a text, an array, or a single value. -/
theorem extent_cases (type : Primitive) (hcount : 1 ≤ count) :
    (Extent.of type count = .text count ∧ type = .char) ∨
      (Extent.of type count = .array count ∧ type ≠ .char) ∨
        Extent.of type count = .single ∧ type ≠ .char ∧ count = 1 := by
  rw [Extent.of]
  split
  · exact .inl ⟨rfl, ‹_›⟩
  · split
    · exact .inr (.inl ⟨rfl, ‹_›⟩)
    · exact .inr (.inr ⟨rfl, ‹_›, by omega⟩)

/-- The format of a number of values packs as many values of the type. -/
theorem format_extent (type : Primitive) (hcount : 1 ≤ count) :
    ((Extent.of type count).format type).IsCounted ∧
      ((Extent.of type count).format type).size = type.size * count ∧
        ((Extent.of type count).format type).values = count := by
  have hmany (type : Primitive) : Format.IsCounted (.many count type) := by
    intro p hp n hn
    rw [List.mem_singleton.mp hp] at hn
    obtain rfl := Option.some.inj hn
    omega
  rcases extent_cases type hcount with ⟨hextent, rfl⟩ | ⟨hextent, -⟩ | ⟨hextent, -, rfl⟩
  · rw [hextent, Extent.format, Format.size_many, mul_comm]
    exact ⟨hmany _, rfl, by simp [Format.values, Format.many]⟩
  · rw [hextent, Extent.format, Format.size_many, mul_comm]
    exact ⟨hmany _, rfl, by simp [Format.values, Format.many]⟩
  · rw [hextent, Extent.format, Format.size_one]
    exact ⟨by simp [Format.IsCounted, Format.one], by simp, by simp [Format.values, Format.one]⟩

/-- The values at the start are as many as the field has. -/
theorem values?_zero (type : Primitive) (hcount : 1 ≤ count) :
    ((Extent.of type count).zero type).values? = some count := by
  rcases extent_cases type hcount with ⟨hextent, -⟩ | ⟨hextent, -⟩ | ⟨hextent, -, rfl⟩
  · rw [hextent]
    rfl
  · rw [hextent]
    simp [Extent.zero, Expr.count, Expr.values?]
  · rw [hextent, Extent.zero, Extent.zeroValue]
    split <;> rfl

/-- The values where the field is not there are as many as the field has. -/
theorem values?_absent (type : Primitive) (accessor : String) (hcount : 1 ≤ count) :
    ((Extent.of type count).absent (.call (.own accessor) [])).values? = some count := by
  rcases extent_cases type hcount with ⟨hextent, -⟩ | ⟨hextent, -⟩ | ⟨hextent, -, rfl⟩
  · rw [hextent]
    simp [Extent.absent, Expr.apply, Expr.count, Expr.values?]
  · rw [hextent]
    simp [Extent.absent, Expr.count, Expr.values?]
  · rw [hextent]
    rfl

end

variable {notes : List Note} {owner property : String} {b : Bodies}

/-- A field on the wire. -/
theorem ValueBodies.fieldSizes {type : Primitive} {count : Int}
    (h : ValueBodies notes owner property type count b) (hcount : 1 ≤ count) :
    FieldSizes property type (type.size * count) b := by
  obtain ⟨hcounted, hsize, hvalues⟩ := format_extent type hcount
  have hcalcsize : calcsize none ((Extent.of type count).format type).text.toList =
      some (type.size * count) := by
    rw [Format.calcsize_text hcounted, hsize]
  have hpacked : Stmt.packed b.encode = [(Extent.of type count).format type] := by
    rw [h.encode]
    rcases extent_cases type hcount with ⟨hextent, -⟩ | ⟨hextent, -⟩ | ⟨hextent, -, -⟩
    all_goals
      rw [hextent]
      rfl
  -- The format of what is packed measures the whole field, its first values and those that stand for an
  -- absent field are as many as it has, and both ways of reading take as many bytes.
  refine ⟨⟨_, hpacked, hcalcsize, ⟨_, h.zero, ?_⟩, _, _, h.decode, ?_⟩, ?_, ?_⟩
  · rw [values?_zero type hcount, hvalues]
  · rw [values?_absent type _ hcount, hvalues]
  · rw [h.decode]
    rcases extent_cases type hcount with ⟨hextent, rfl⟩ | ⟨hextent, -⟩ | ⟨hextent, -, -⟩
    · -- Characters are read without a format, by their number.
      have hone : (Primitive.char.size : Int) * count = count := one_mul count
      rw [hextent, hone]
      rfl
    all_goals
      rw [hextent]
      rfl
  · rw [h.decode]
    rcases extent_cases type hcount with ⟨hextent, rfl⟩ | ⟨hextent, htype⟩ | ⟨hextent, htype, -⟩
    · rw [if_pos rfl, hextent]
      rfl
    all_goals
      rw [if_neg htype]
      refine ⟨_, ?_, hcalcsize⟩
      rw [hextent]
      rfl

/-- The formats of headers have no counts. -/
theorem calcsize_uncounted {f : Format} (h : ∀ p ∈ f, p.count = none) :
    calcsize none f.text.toList = some f.size := by
  refine Format.calcsize_text fun p hp n hn => ?_
  rw [h p hp] at hn
  cases hn

theorem GroupBodies.headerSizes {element : String} {token : Token}
    {blockLengthType numInGroupType : Primitive} {bounds : Bounds}
    (h : GroupBodies notes owner element token blockLengthType numInGroupType bounds b) :
    HeaderSizes b := by
  refine ⟨[{ type := blockLengthType }, { type := numInGroupType }],
    blockLengthType.size + numInGroupType.size, ?_, ?_, ?_, ?_⟩
  · rw [h.encode]
    rfl
  · rw [h.decode]
    rfl
  · rw [h.decode]
    rfl
  · rw [calcsize_uncounted (by simp)]
    simp [Format.size, Packed.size]

theorem VarDataBodies.headerSizes {token data : Token} {lengthType dataType : Primitive}
    {bounds : Bounds} (h : VarDataBodies notes owner token data lengthType dataType bounds b) :
    HeaderSizes b := by
  refine ⟨.one lengthType, lengthType.size, ?_, ?_, ?_, ?_⟩
  · rw [h.encode, dataStmts]
    split <;> rfl
  · rw [h.decode, dataStmts]
    split <;> rfl
  · rw [h.decode]
    rfl
  · rw [calcsize_uncounted (by simp [Format.one]), Format.size_one]

end Codec

/-- Each step of a walk is rendered to source with the sizes that the walk has found. -/
theorem Step.sizesAgree {blank p : Plan} {ts : List Token} {notes : List Note} {s : Step} {b : Bodies}
    (hblank : blank.steps = []) (hwalk : blank.ofTokens ts = .ok p) (hs : s ∈ p.steps)
    (h : (s.bodies p.typeName p.isExtensible).Yields notes b) : s.SizesAgree blank ts b := by
  cases s with
  | primitive field encoding =>
    intro hconstant type count htype hcount hpositive hlength
    have hwire : (Step.primitive field encoding).wire? = some (field, encoding) :=
      Step.wire?_of_not_constant rfl hconstant
    refine ⟨?_, Plan.ofTokens_advances hblank hwalk hs hwire hlength⟩
    obtain ⟨type', _, _, inner, htype', -, -, -, rfl, hinner⟩ := Codec.yields_primitiveBodies h
    obtain rfl := Option.some.inj (htype.symm.trans htype')
    have hrecorded := Plan.Walked.recorded ⟨blank, ts, hblank, hwalk⟩ _ hs
    rw [hrecorded.isConstant_eq, hconstant, if_neg (by simp)] at hinner
    obtain ⟨count', hcount', hb⟩ := Codec.yields_valueBodies hinner
    obtain rfl := Option.some.inj (hcount.symm.trans hcount')
    have hsizes := hb.fieldSizes hpositive
    exact ⟨hsizes.encode, hsizes.decode, hsizes.unpack⟩
  | group token blockLength numInGroup element =>
    obtain ⟨_, _, _, -, -, -, hb⟩ := Codec.yields_groupBodies h
    exact hb.headerSizes
  | varData token length data =>
    obtain ⟨_, _, _, -, -, -, hb⟩ := Codec.yields_varDataBodies h
    exact hb.headerSizes
  | _ => trivial

/-- **The walk and the class agree on sizes.** Whatever a walk records, in the plan of the entity or in one
inside it, the classes are written from bodies that agree with the walk: what a field on the wire packs,
unpacks and reads is what the walk has advanced by, its values at the start and where it is not there have
that length, and headers are unpacked as they are packed. -/
theorem Plan.classes_sizesAgree {e : Edition} {p : Plan} {cs : List ClassDef} (hwalked : p.Walked)
    (h : (p.classes e).outcome = .ok cs) :
    List.Forall₂ (fun q c => ∃ blank ts bodies, blank.steps = [] ∧ blank.ofTokens ts = .ok q ∧
      Written c bodies ∧ List.Forall₂ (fun s b => s.SizesAgree blank ts b) q.steps bodies) p.plans cs :=
  hwalked.classes_of_steps (fun hblank hwalk hs hb => Step.sizesAgree hblank hwalk hs hb) h

/-- The classes of a report and of its legs agree with the walk over its tokens. -/
theorem reportPlan_classes_sizesAgree : ∃ p cs, Plan.ofMessage "Report" reportTokens = .ok p ∧ p.Walked ∧
    (p.classes reportEdition).outcome = .ok cs ∧ cs.length = 2 ∧
    List.Forall₂ (fun q c => ∃ blank ts bodies, blank.steps = [] ∧ blank.ofTokens ts = .ok q ∧
      Plan.Written c bodies ∧ List.Forall₂ (fun s b => s.SizesAgree blank ts b) q.steps bodies)
      p.plans cs := by
  obtain ⟨p, cs, hp, hcs, hlength, -⟩ := exists_reportPlan
  have hwalked := Plan.walked_ofMessage hp
  exact ⟨p, cs, hp, hwalked, hcs, hlength, Plan.classes_sizesAgree hwalked hcs⟩

end SimpleBinary
