import SimpleBinary.Code.Print
import SimpleBinary.Proofs.Text.Quoted

/-!
Values of the schema on one line.

The generated source shows numbers, texts, bytes and other values of the schema by their literals. None of
them holds a line feed: numbers and moments are made of digits and a few signs, and quoted text writes a
line feed as an escape. So the text of a value, wherever it comes from, never ends the line that it stands
in (`Datum.isLine_of_spelling?`, `Number.isLine_literal`).
-/

set_option autoImplicit false

namespace SimpleBinary

open Code

/-- Whether a string holds no line feed. -/
def IsLine (s : String) : Prop :=
  '\n' ∉ s.toList

instance (s : String) : Decidable (IsLine s) :=
  inferInstanceAs (Decidable ('\n' ∉ s.toList))

section

variable {s t : String} {cs : List Char}

@[simp] theorem isLine_append : IsLine (s ++ t) ↔ IsLine s ∧ IsLine t := by
  simp [IsLine, not_or]

@[simp] theorem isLine_ofList : IsLine (String.ofList cs) ↔ '\n' ∉ cs := by
  rw [IsLine, String.toList_ofList]

theorem isLine_ite {c : Prop} [Decidable c] (hs : IsLine s) (ht : IsLine t) :
    IsLine (if c then s else t) := by
  split
  · exact hs
  · exact ht

/-- Lines with a line between them are a line. -/
theorem isLine_intercalate {lines : List String} (hs : IsLine s) (h : ∀ line ∈ lines, IsLine line) :
    IsLine (s.intercalate lines) := by
  induction lines with
  | nil => exact (by decide : IsLine "")
  | cons first rest ih =>
    obtain ⟨hfirst, hrest⟩ := List.forall_mem_cons.mp h
    cases rest with
    | nil => rwa [String.intercalate_singleton]
    | cons second rest =>
      rw [String.intercalate_cons_cons, isLine_append, isLine_append]
      exact ⟨⟨hfirst, hs⟩, ih hrest⟩

theorem isLine_commas {texts : List String} (h : ∀ text ∈ texts, IsLine text) : IsLine (commas texts) :=
  isLine_intercalate (by decide) h

theorem isLine_join {lines : List String} (h : ∀ line ∈ lines, IsLine line) :
    IsLine (String.join lines) := by
  rw [IsLine, String.toList_join]
  intro hmem
  obtain ⟨line, hline, hbreak⟩ := List.mem_flatMap.mp hmem
  exact h line hline hbreak

end

/-! ## Numbers -/

/-- Whether a character may stand in a finite number: a digit, a point, a sign, or the letter in front of an
exponent. -/
def isNumeral (c : Char) : Bool :=
  c.isDigit || ['.', '-', '+', 'e'].contains c

/-- Whether all of some characters may stand in a finite number. -/
def AreNumerals (cs : List Char) : Prop :=
  ∀ c ∈ cs, isNumeral c = true

section

variable {c : Char} {cs ds : List Char}

instance : Decidable (AreNumerals cs) :=
  List.decidableBAll (fun c => isNumeral c = true) cs

theorem AreNumerals.not_mem (h : AreNumerals cs) (hc : isNumeral c = false) : c ∉ cs := by
  intro hmem
  rw [h c hmem] at hc
  cases hc

theorem AreNumerals.cons (hc : isNumeral c = true) (h : AreNumerals cs) : AreNumerals (c :: cs) :=
  List.forall_mem_cons.mpr ⟨hc, h⟩

theorem AreNumerals.append (h : AreNumerals cs) (h' : AreNumerals ds) : AreNumerals (cs ++ ds) :=
  List.forall_mem_append.mpr ⟨h, h'⟩

theorem AreNumerals.mono (h : AreNumerals cs) (hsub : ds ⊆ cs) : AreNumerals ds :=
  fun c hc => h c (hsub hc)

/-- A number is a line. -/
theorem AreNumerals.isLine {s : String} (h : AreNumerals s.toList) : IsLine s :=
  h.not_mem (by decide)

end

theorem areNumerals_toDigits (n : Nat) : AreNumerals (Nat.toDigits 10 n) := by
  intro c hc
  rw [isNumeral, Nat.isDigit_of_mem_toDigits (by decide) (by decide) hc, Bool.true_or]

theorem areNumerals_natToString (n : Nat) : AreNumerals (toString n).toList := by
  show AreNumerals (String.ofList (Nat.toDigits 10 n)).toList
  rw [String.toList_ofList]
  exact areNumerals_toDigits n

theorem areNumerals_intToString (n : Int) : AreNumerals (toString n).toList := by
  cases n with
  | ofNat n => exact areNumerals_natToString n
  | negSucc n =>
    show AreNumerals ("-" ++ toString (n + 1)).toList
    rw [String.toList_append]
    exact AreNumerals.append (by decide) (areNumerals_natToString (n + 1))

@[simp] theorem isLine_natToString (n : Nat) : IsLine (toString n) :=
  (areNumerals_natToString n).isLine

@[simp] theorem isLine_intToString (n : Int) : IsLine (toString n) :=
  (areNumerals_intToString n).isLine

@[simp] theorem isLine_intRepr (n : Int) : IsLine n.repr :=
  isLine_intToString n

@[simp] theorem isLine_countText (n : Option Int) : IsLine (countText n) := by
  cases n with
  | none => decide
  | some n => exact isLine_intToString n

namespace Decimal

theorem areNumerals_zeros (n : Nat) : AreNumerals (List.replicate n '0') := by
  intro c hc
  rw [List.eq_of_mem_replicate hc]
  decide

theorem areNumerals_padded (width : Nat) {ds : List Char} (h : AreNumerals ds) :
    AreNumerals (padded width ds) :=
  (areNumerals_zeros _).append h

theorem Scaled.areNumerals_significant (x : Scaled) : AreNumerals x.significant := by
  refine (areNumerals_toDigits x.digits).mono fun c hc => ?_
  exact List.mem_reverse.mp ((List.dropWhile_sublist _).subset (List.mem_reverse.mp hc))

theorem areNumerals_positional {ds : List Char} (h : AreNumerals ds) (before : Nat) :
    AreNumerals (positional ds before) := by
  have htake : AreNumerals (ds.take before) := h.mono (List.take_subset before ds)
  have hdrop : AreNumerals (ds.drop before) := h.mono (List.drop_subset before ds)
  refine (htake.append (areNumerals_zeros _)).append (.cons (by decide) ?_)
  split
  · decide
  · exact hdrop

theorem areNumerals_scientific {ds : List Char} (h : AreNumerals ds) (exponent : Int) :
    AreNumerals (scientific layout ds exponent) := by
  have hexponent := areNumerals_padded layout.exponentDigits (areNumerals_toDigits exponent.natAbs)
  unfold scientific
  dsimp only
  refine AreNumerals.append ?mantissa (.cons (by decide) (.cons ?sign hexponent))
  case mantissa =>
    split
    · decide
    · exact h
    · obtain ⟨hd, hrest⟩ := List.forall_mem_cons.mp h
      exact .cons hd (.cons (by decide) hrest)
  case sign =>
    split <;> decide

theorem Scaled.areNumerals_chars (x : Scaled) : AreNumerals (x.chars layout) := by
  have hds := x.areNumerals_significant
  unfold Scaled.chars
  dsimp only
  split
  · exact areNumerals_scientific hds _
  · split
    · exact .cons (by decide) (.cons (by decide) ((areNumerals_zeros _).append hds))
    · exact areNumerals_positional hds _

/-- A finite number is written with digits and signs. -/
theorem areNumerals_text {x : Float} {b : Binary} (h : Parts.ofFloat x = .finite b) :
    AreNumerals (text x).toList := by
  have hsign (negative : Bool) : AreNumerals (if negative then "-" else "").toList := by
    cases negative <;> decide
  rw [text, h, Parts.text, String.toList_append]
  refine (hsign b.negative).append ?_
  split
  · decide
  · rw [String.toList_ofList]
    exact Scaled.areNumerals_chars _

@[simp] theorem isLine_text (x : Float) : IsLine (text x) := by
  cases h : Parts.ofFloat x with
  | nan =>
    rw [text, h]
    decide
  | infinite negative =>
    rw [text, h]
    exact isLine_append.mpr ⟨isLine_ite (by decide) (by decide), by decide⟩
  | finite b => exact (areNumerals_text h).isLine

end Decimal

@[simp] theorem Number.isLine_literal (n : Number) : IsLine n.literal := by
  cases n with
  | int n => exact isLine_intToString n
  | real x =>
    rw [literal]
    split
    · decide
    · decide
    · decide
    · exact Decimal.isLine_text x

/-! ## Texts and bytes -/

namespace Text

/-- Quoted text holds no controls, and a line feed is one. -/
@[simp] theorem isLine_quoted (t : Text) : IsLine (quoted t) := by
  rw [quoted, isLine_ofList, quotedChars_eq]
  intro h
  exact absurd (isControl_of_mem_quotedCharsBy isShown t _ h) (by decide)

@[simp] theorem isLine_quotedBytes (bytes : List UInt8) : IsLine (quotedBytes bytes) := by
  intro h
  exact absurd (isAscii_of_mem_quotedBytes bytes _ h).isControl_eq_false (by decide)

end Text

/-! ## Other values -/

theorem Code.Format.isLine_text (f : Format) : IsLine f.text := by
  refine isLine_join fun text htext => ?_
  obtain ⟨p, -, rfl⟩ := List.mem_map.mp htext
  refine isLine_append.mpr ⟨?_, ?_⟩
  · split
    · exact isLine_intToString _
    · decide
  · cases p.type <;> decide

namespace Moment

theorem isLine_spanSpelling (minutes : Int) : IsLine (spanSpelling minutes) := by
  unfold spanSpelling
  dsimp only
  refine isLine_append.mpr ⟨isLine_append.mpr ⟨by decide, ?_⟩, by decide⟩
  refine isLine_ite (by decide) (isLine_intercalate (by decide) ?_)
  refine List.forall_mem_append.mpr ⟨?_, ?_⟩
  all_goals
    split
    · simp
    · refine List.forall_mem_singleton.mpr ?_
      exact isLine_append.mpr ⟨by decide, isLine_intToString _⟩

theorem isLine_zoneSpelling (minutes : Int) : IsLine (zoneSpelling minutes) := by
  unfold zoneSpelling
  refine isLine_ite (by decide) ?_
  exact isLine_append.mpr ⟨isLine_append.mpr ⟨by decide, isLine_spanSpelling minutes⟩, by decide⟩

@[simp] theorem isLine_spelling (m : Moment) : IsLine m.spelling := by
  have hnumbers (ns : List Nat) : ∀ line ∈ ns.map toString, IsLine line := by
    intro line hline
    obtain ⟨n, -, rfl⟩ := List.mem_map.mp hline
    exact isLine_natToString n
  unfold spelling
  dsimp only
  split
  · refine isLine_append.mpr ⟨isLine_append.mpr ⟨by decide, isLine_intercalate (by decide) ?_⟩, by decide⟩
    refine List.forall_mem_append.mpr ⟨hnumbers _, ?_⟩
    split
    · exact List.forall_mem_singleton.mpr (isLine_append.mpr ⟨by decide, isLine_zoneSpelling _⟩)
    · simp
  · exact isLine_append.mpr ⟨isLine_append.mpr ⟨by decide,
      isLine_intercalate (by decide) (hnumbers _)⟩, by decide⟩

end Moment

namespace Datum

/-- Whether a spelling, if there is one, is a line. -/
def SpelledOnLine (spelling : Option String) : Prop :=
  ∀ s ∈ spelling, IsLine s

theorem isLine_ellipsis (d : Datum) : IsLine d.ellipsis := by
  unfold ellipsis
  split <;> decide

/-- Spellings that are listed between two lines are spelled on one line. -/
theorem spelledOnLine_enclosed {spellings : Option (List String)} {front back : String} (hfront : IsLine front)
    (hback : IsLine back) (h : ∀ lines, spellings = some lines → ∀ s ∈ lines, IsLine s) :
    SpelledOnLine (spellings.bind fun lines => some (front ++ ", ".intercalate lines ++ back)) := by
  intro s hs
  obtain ⟨lines, hlines, hs⟩ := Option.bind_eq_some_iff.mp hs
  obtain rfl := Option.some.inj hs
  have hall : IsLine (", ".intercalate lines) := isLine_intercalate (by decide) (h lines hlines)
  exact isLine_append.mpr ⟨isLine_append.mpr ⟨hfront, hall⟩, hback⟩

/-- The spelling of a place of a knot is a line if every row makes lines of lines. -/
theorem spelledOnLine_weave {rows : List ((Nat → Option String) → Option String)} {ellipses : List String}
    (hrows : ∀ row ∈ rows, ∀ linked, (∀ place, SpelledOnLine (linked place)) → SpelledOnLine (row linked))
    (hellipses : ∀ s ∈ ellipses, IsLine s) (steps : Nat) (around : List Nat) (place : Nat) :
    SpelledOnLine (weave rows ellipses steps around place) := by
  have hplace : SpelledOnLine ellipses[place]? := fun s hs => hellipses s (List.mem_of_getElem? hs)
  induction steps generalizing around place with
  | zero => exact hplace
  | succ steps ih =>
    rw [weave]
    split
    · exact hplace
    · intro s hs
      obtain ⟨row, hrow, hs⟩ := Option.bind_eq_some_iff.mp hs
      refine hrows row (List.mem_of_getElem? hrow) _ (fun other => ?_) s hs
      exact ih (place :: around) other fun s hs => hellipses s (List.mem_of_getElem? hs)

mutual

/-- A value whose links are spelled on one line is spelled on one line. -/
theorem spelledOnLine_spell {linked : Nat → Option String}
    (hlinked : ∀ place, SpelledOnLine (linked place)) : ∀ d : Datum, SpelledOnLine (spell linked d)
  | .null | .bool true | .bool false | .set [] => by
    rw [spell]
    rintro _ ⟨⟩
    decide
  | .int n => by
    rw [spell, Numeral.written?]
    intro s hs
    split at hs
    · rw [← Option.some.inj hs]
      exact isLine_intToString n
    · cases hs
  | .real x => by
    rw [spell]
    rintro _ ⟨⟩
    exact Decimal.isLine_text x
  | .text t => by
    rw [spell]
    rintro _ ⟨⟩
    exact Text.isLine_quoted t
  | .bytes b => by
    rw [spell]
    rintro _ ⟨⟩
    exact Text.isLine_quotedBytes b
  | .moment m => by
    rw [spell]
    rintro _ ⟨⟩
    exact m.isLine_spelling
  | .list items => by
    rw [spell]
    exact spelledOnLine_enclosed (by decide) (by decide) (spelledOnLine_spellAll hlinked items)
  | .pair first second => by
    rw [spell]
    intro s hs
    obtain ⟨a, ha, hs⟩ := Option.bind_eq_some_iff.mp hs
    obtain ⟨b, hb, hs⟩ := Option.bind_eq_some_iff.mp hs
    obtain rfl := Option.some.inj hs
    have hfirst := spelledOnLine_spell hlinked first a ha
    have hsecond := spelledOnLine_spell hlinked second b hb
    simp [hfirst, hsecond, (by decide : IsLine "("), (by decide : IsLine ", "), (by decide : IsLine ")")]
  | .set (member :: members) => by
    rw [spell]
    · exact spelledOnLine_enclosed (by decide) (by decide) (spelledOnLine_spellAll hlinked (member :: members))
    · simp
  | .map entries => by
    rw [spell]
    exact spelledOnLine_enclosed (by decide) (by decide) (spelledOnLine_spellEntries hlinked entries)
  | .knot table place => by
    -- The links inside the rows lead to other rows, so this is a matter of the woven spellings.
    rw [spell]
    refine spelledOnLine_weave (spelledOnLine_spellRows table) ?_ _ _ _
    intro s hs
    obtain ⟨d, -, rfl⟩ := List.mem_map.mp hs
    exact isLine_ellipsis d
  | .link place => by
    rw [spell]
    exact hlinked place

theorem spelledOnLine_spellAll {linked : Nat → Option String}
    (hlinked : ∀ place, SpelledOnLine (linked place)) :
    ∀ (items : List Datum) (spellings : List String), spellAll linked items = some spellings →
      ∀ s ∈ spellings, IsLine s
  | [], spellings, h => by
    rw [spellAll] at h
    rw [← Option.some.inj h]
    simp
  | item :: items, spellings, h => by
    rw [spellAll] at h
    obtain ⟨first, hfirst, h⟩ := Option.bind_eq_some_iff.mp h
    obtain ⟨rest, hrest, h⟩ := Option.bind_eq_some_iff.mp h
    rw [← Option.some.inj h]
    exact List.forall_mem_cons.mpr ⟨spelledOnLine_spell hlinked item first hfirst,
      spelledOnLine_spellAll hlinked items rest hrest⟩

theorem spelledOnLine_spellEntries {linked : Nat → Option String}
    (hlinked : ∀ place, SpelledOnLine (linked place)) :
    ∀ (entries : List (Datum × Datum)) (spellings : List String),
      spellEntries linked entries = some spellings → ∀ s ∈ spellings, IsLine s
  | [], spellings, h => by
    rw [spellEntries] at h
    rw [← Option.some.inj h]
    simp
  | (key, value) :: entries, spellings, h => by
    rw [spellEntries] at h
    obtain ⟨k, hk, h⟩ := Option.bind_eq_some_iff.mp h
    obtain ⟨v, hv, h⟩ := Option.bind_eq_some_iff.mp h
    obtain ⟨rest, hrest, h⟩ := Option.bind_eq_some_iff.mp h
    rw [← Option.some.inj h]
    refine List.forall_mem_cons.mpr ⟨?_, spelledOnLine_spellEntries hlinked entries rest hrest⟩
    exact isLine_append.mpr ⟨isLine_append.mpr ⟨spelledOnLine_spell hlinked key k hk, by decide⟩,
      spelledOnLine_spell hlinked value v hv⟩

theorem spelledOnLine_spellRows : ∀ (table : List Datum), ∀ row ∈ spellRows table, ∀ linked,
    (∀ place, SpelledOnLine (linked place)) → SpelledOnLine (row linked)
  | [] => by
    rw [spellRows]
    simp
  | d :: rest => by
    rw [spellRows]
    exact List.forall_mem_cons.mpr ⟨fun _ hlinked => spelledOnLine_spell hlinked d,
      spelledOnLine_spellRows rest⟩

end

/-- **A value is spelled on one line.** -/
theorem isLine_of_spelling? {d : Datum} {s : String} (h : d.spelling? = some s) : IsLine s := by
  refine spelledOnLine_spell (fun _ => ?_) d s h
  rintro _ ⟨⟩

end Datum

end SimpleBinary
