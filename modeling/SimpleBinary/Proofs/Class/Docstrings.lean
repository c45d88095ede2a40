import SimpleBinary.Proofs.Class.Identifiers
import SimpleBinary.Proofs.Class.Names
import SimpleBinary.Proofs.Text.Quoted

/-!
The sentences about classes.

The second line of a class is a sentence about it between tripled quotes. In the sentence about a message or
a group stands the name of its token as it is in the schema. All else in it is harmless, so the sentence
stays between its quotes if the name does (`Plan.docs_contained_iff`). A name that holds tripled quotes ends
the sentence, and what follows in the name is source like any other (`tradePlan_escapes`).
-/

set_option autoImplicit false

namespace SimpleBinary

open Code Emission Literal

/-! ## Contained characters -/

/-- The quotes around a sentence. -/
def tripled : List Char :=
  ['"', '"', '"']

/-- Whether characters stay in one line and between tripled quotes, wherever they stand. -/
structure IsHarmless (cs : List Char) : Prop where
  oneLine : ∀ c ∈ cs, isBreak c = false
  noTripled : ¬ tripled <:+: cs

/-- Whether what stands between tripled quotes is on one line and leaves the quotes behind it alone. -/
structure IsContained (cs : List Char) : Prop extends IsHarmless cs where
  last : ∀ c ∈ cs.getLast?, isQuote c = false ∧ c ≠ '\\'

instance (cs : List Char) : Decidable (IsHarmless cs) :=
  decidable_of_iff ((∀ c ∈ cs, isBreak c = false) ∧ ¬ tripled <:+: cs)
    ⟨fun ⟨oneLine, noTripled⟩ => ⟨oneLine, noTripled⟩, fun ⟨oneLine, noTripled⟩ => ⟨oneLine, noTripled⟩⟩

instance (cs : List Char) : Decidable (IsContained cs) :=
  decidable_of_iff (IsHarmless cs ∧ ∀ c ∈ cs.getLast?, isQuote c = false ∧ c ≠ '\\')
    ⟨fun ⟨harmless, last⟩ => ⟨harmless, last⟩, fun h => ⟨h.toIsHarmless, h.last⟩⟩

section

variable {cs ds : List Char}

theorem IsContained.suffix (h : IsContained cs) (hsuffix : ds <:+ cs) : IsContained ds where
  oneLine c hc := h.oneLine c (hsuffix.subset hc)
  noTripled hwithin := h.noTripled (hwithin.trans hsuffix.isInfix)
  last c hc := by
    obtain ⟨before, rfl⟩ := hsuffix
    refine h.last c ?_
    rw [List.getLast?_append, Option.mem_def.mp hc]
    rfl

/-- Where the rest of a sentence is contained, the quotes behind it do not begin before its end. -/
theorem IsContained.not_prefix {c : Char} (h : IsContained (c :: cs)) (after : List Char) :
    ¬ tripled <+: c :: cs ++ (tripled ++ after) := by
  intro hprefix
  have hlast := h.last
  have hnot := h.noTripled
  -- The quotes would lie inside, or the last one or two of them behind, and the sentence ends in a quote.
  rcases cs with _ | ⟨d, _ | ⟨e, cs⟩⟩
  · simp only [tripled, List.cons_append, List.cons_prefix_cons] at hprefix
    obtain ⟨rfl, -⟩ := hprefix
    exact absurd (hlast '"' rfl).1 (by decide)
  · simp only [tripled, List.cons_append, List.cons_prefix_cons] at hprefix
    obtain ⟨-, rfl, -⟩ := hprefix
    exact absurd (hlast '"' rfl).1 (by decide)
  · simp only [tripled, List.cons_append, List.cons_prefix_cons] at hprefix
    obtain ⟨rfl, rfl, rfl, -⟩ := hprefix
    exact hnot ⟨[], cs, rfl⟩

/-- **What is contained ends where its closing quotes are put.** -/
theorem IsContained.scan_eq (h : IsContained cs) (after : List Char) :
    scan tripled (cs ++ (tripled ++ after)) = some (cs, after) := by
  -- A backslash takes the character behind it along, so the induction is on the length.
  induction hn : cs.length using Nat.strongRecOn generalizing cs with
  | ind n ih =>
    cases cs with
    | nil => simp [tripled, scan, List.isPrefixOf]
    | cons c rest =>
      have hclosing : tripled.isPrefixOf (c :: rest ++ (tripled ++ after)) = false := by
        rw [Bool.eq_false_iff, Ne, List.isPrefixOf_iff_prefix]
        exact h.not_prefix after
      rw [List.cons_append] at hclosing ⊢
      rw [scan.eq_def]
      simp only [hclosing, Bool.false_eq_true, if_false]
      by_cases hslash : c = '\\'
      · cases rest with
        | nil => exact absurd hslash (h.last c rfl).2
        | cons d rest =>
          have hrest := h.suffix (List.suffix_append [c, d] rest)
          have hscan := ih rest.length (by simp [← hn]) hrest rfl
          simp [hslash, hscan, further]
      · have hrest := h.suffix (List.suffix_cons c rest)
        have hscan := ih rest.length (by simp [← hn]) hrest rfl
        have hthree : tripled.length ≠ 1 := by decide
        simp [hslash, hscan, further, hthree]

/-! ## Text around a name -/

/-- Whether a character is no quote, no backslash and no control. -/
def isBare (c : Char) : Bool :=
  !isQuote c && c != '\\' && !Text.isControl c

/-- Whether source holds no quotes, no backslashes and no controls. -/
def IsBare (s : String) : Prop :=
  s.toList.all isBare = true

instance (s : String) : Decidable (IsBare s) :=
  inferInstanceAs (Decidable (_ = true))

theorem IsBare.of_mem {s : String} (h : IsBare s) {c : Char} (hc : c ∈ s.toList) :
    isQuote c = false ∧ c ≠ '\\' ∧ Text.isControl c = false := by
  have hbare := List.all_eq_true.mp h c hc
  simpa [isBare, and_assoc] using hbare

/-- Tripled quotes do not reach into source without quotes on their left, -/
theorem tripled_infix_append_right (h : '"' ∉ ds) : tripled <:+: ds ++ cs ↔ tripled <:+: cs := by
  induction ds with
  | nil => rfl
  | cons d ds ih =>
    obtain ⟨hd, hds⟩ := List.ne_and_not_mem_of_not_mem_cons h
    rw [List.cons_append, List.infix_cons_iff, ih hds]
    refine or_iff_right fun hprefix => hd ?_
    exact (List.cons_prefix_cons.mp hprefix).1

/-- and not on their right either. -/
theorem tripled_infix_append_left (h : '"' ∉ ds) : tripled <:+: cs ++ ds ↔ tripled <:+: cs := by
  have hreverse : '"' ∉ ds.reverse := by
    simpa using h
  have hcs : tripled <:+: cs ↔ tripled.reverse <:+: cs.reverse := List.reverse_infix.symm
  rw [← List.reverse_infix, List.reverse_append, hcs]
  exact tripled_infix_append_right hreverse

theorem chars_append (s t : Text) : Text.chars (s ++ t) = s.chars ++ t.chars :=
  List.map_append

theorem chars_ofString (s : String) : (Text.ofString s).chars = s.toList :=
  Text.chars_ofChars s.toList

/-- Bare source around a name, of which some stands behind it, leaves it to the name whether all of it is
contained. -/
theorem isContained_around {doc : Text} {before after : String} (name : Text) (hbefore : IsBare before)
    (hafter : IsBare after) (hne : after ≠ "")
    (hdoc : doc.chars = before.toList ++ (name.chars ++ after.toList)) :
    IsContained doc.chars ↔ IsHarmless name.chars := by
  have hquote {s : String} (h : IsBare s) : '"' ∉ s.toList := fun hmem =>
    absurd (h.of_mem hmem).1 (by decide)
  have hbreak {s : String} (h : IsBare s) : ∀ c ∈ s.toList, isBreak c = false := fun c hc =>
    isBreak_eq_false (h.of_mem hc).2.2
  -- Tripled quotes in the sentence are all in the name, as there are no quotes around it.
  have hwithin : tripled <:+: before.toList ++ (name.chars ++ after.toList) ↔ tripled <:+: name.chars := by
    rw [tripled_infix_append_right (hquote hbefore), tripled_infix_append_left (hquote hafter)]
  rw [hdoc]
  constructor
  · intro h
    exact ⟨fun c hc => h.oneLine c (by simp [hc]), fun hname => h.noTripled (hwithin.mpr hname)⟩
  · intro h
    refine ⟨⟨?_, fun hname => h.noTripled (hwithin.mp hname)⟩, ?_⟩
    · exact List.forall_mem_append.mpr ⟨hbreak hbefore, List.forall_mem_append.mpr
        ⟨h.oneLine, hbreak hafter⟩⟩
    · intro c hc
      have hcons : after.toList ≠ [] := fun heq => hne (String.toList_eq_nil_iff.mp heq)
      have hlast : c ∈ after.toList := by
        rw [List.getLast?_append_of_ne_nil _ (by simp [hcons]), List.getLast?_append_of_ne_nil _ hcons] at hc
        exact List.mem_of_getLast? hc
      exact ⟨(hafter.of_mem hlast).1, (hafter.of_mem hlast).2.1⟩

theorem isContained_of_isBare {s : String} (h : IsBare s) (hne : s ≠ "") :
    IsContained (Text.ofString s).chars := by
  have hempty : IsHarmless (Text.chars []) := ⟨by simp [Text.chars], by simp [Text.chars, tripled]⟩
  refine (isContained_around [] (by decide : IsBare "") h hne ?_).mpr hempty
  rw [chars_ofString]
  rfl

end

/-! ## Bare parts of sentences -/

section

variable {s t : String}

@[simp] theorem isBare_append : IsBare (s ++ t) ↔ IsBare s ∧ IsBare t := by
  simp [IsBare]

@[simp] theorem isBare_toString {s : String} : IsBare (toString s) ↔ IsBare s :=
  Iff.rfl

theorem isBare_of_isAllowed (h : ∀ c ∈ s.toList, Identifier.isAllowed c = true) : IsBare s := by
  refine List.all_eq_true.mpr fun c hc => ?_
  obtain ⟨hlow, hhigh, hslash⟩ := Identifier.toNat_of_isAllowed (h c hc)
  have hne {d : Char} (hd : d.toNat < 48 ∨ d.toNat = 92) : c ≠ d := by
    rintro rfl
    omega
  have hcontrol : Text.isControl c = false := IsAscii.isControl_eq_false ⟨by omega, by omega⟩
  simp [isBare, isQuote, hne, hcontrol]

@[simp] theorem isBare_natToString (n : Nat) : IsBare (toString n) := by
  refine isBare_of_isAllowed fun c hc => ?_
  have hdigits : c ∈ Nat.toDigits 10 n := by
    rwa [show toString n = String.ofList (Nat.toDigits 10 n) from rfl, String.toList_ofList] at hc
  exact Identifier.isAllowed_of_isDigit (Nat.isDigit_of_mem_toDigits (by decide) (by decide) hdigits)

@[simp] theorem isBare_intToString (n : Int) : IsBare (toString n) := by
  cases n with
  | ofNat n => exact isBare_natToString n
  | negSucc n => exact isBare_append.mpr ⟨by decide, isBare_natToString (n + 1)⟩

@[simp] theorem isBare_countText (n : Option Int) : IsBare (countText n) := by
  cases n with
  | none => decide
  | some n => exact isBare_intToString n

theorem isBare_headerTypes {h : Header} {types : String} (htypes : Plan.headerTypes h = some types) :
    IsBare types := by
  obtain ⟨a, -, htypes⟩ := Option.bind_eq_some_iff.mp htypes
  obtain ⟨b, -, htypes⟩ := Option.bind_eq_some_iff.mp htypes
  obtain ⟨c, -, htypes⟩ := Option.bind_eq_some_iff.mp htypes
  obtain ⟨d, -, htypes⟩ := Option.bind_eq_some_iff.mp htypes
  obtain rfl := Option.some.inj htypes
  have hprimitive (type : Primitive) : IsBare type.name := by cases type <;> decide
  simp +decide [hprimitive]

end

/-! ## Sentences -/

namespace Plan

/-- The name that the sentence about a class shows as it is in the schema. -/
def shownName? (p : Plan) : Option Text :=
  match p.kind with
  | .message | .group => p.token.map Token.name
  | _ => none

/-- **A sentence is contained exactly if the name in it is harmless.** -/
theorem isContained_sentence {e : Edition} {p : Plan} {doc : Text} (h : p.sentence e = some doc)
    (hname : ∀ c ∈ p.typeName.toList, Identifier.isAllowed c = true) :
    IsContained doc.chars ↔ ∀ name ∈ p.shownName?, IsHarmless name.chars := by
  rw [sentence.eq_def] at h
  dsimp only at h
  split at h
  · rename_i hkind
    obtain ⟨token, htoken, h⟩ := Option.bind_eq_some_iff.mp h
    obtain ⟨types, htypes, h⟩ := Option.bind_eq_some_iff.mp h
    obtain rfl := Option.some.inj h
    have hshown : p.shownName? = some token.name := by
      simp [shownName?, hkind, htoken]
    -- Behind the name come numbers and names of types, which hold nothing that could end the sentence.
    have hafter : IsBare (s!" (template {countText token.id}, block length {countText p.blockLength}; " ++
        s!"header types {types}).") := by
      simp +decide [isBare_headerTypes htypes]
    rw [hshown, isContained_around token.name (by decide : IsBare "Message ") hafter (by simp +decide)]
    · simp
    · simp only [chars_append, chars_ofString, List.append_assoc, String.toList_append]
  · rename_i hkind
    obtain ⟨token, htoken, h⟩ := Option.bind_eq_some_iff.mp h
    obtain rfl := Option.some.inj h
    have hshown : p.shownName? = some token.name := by
      simp [shownName?, hkind, htoken]
    have hafter : IsBare s!" (block length {countText p.blockLength})." := by
      simp +decide
    rw [hshown, isContained_around token.name (by decide : IsBare "Element of repeating group ") hafter
      (by simp +decide)]
    · simp
    · simp only [chars_append, chars_ofString, List.append_assoc]
  · -- A composite is named by its class, which holds nothing but letters, digits and underscores.
    rename_i hmessage hgroup
    obtain rfl := Option.some.inj h
    have hshown : p.shownName? = none := by
      unfold shownName?
      split
      · exact absurd ‹_› hmessage
      · exact absurd ‹_› hgroup
      · rfl
    have hbare : IsBare s!"Composite {p.typeName} ({countText p.blockLength} bytes)." := by
      simp +decide [isBare_of_isAllowed hname]
    have hcontained := isContained_of_isBare hbare (by simp +decide)
    simp [hshown, hcontained]

/-- The classes inside a plan are called by allowed characters if the plan is. -/
theorem Walked.isAllowed_of_mem_typeName {p : Plan} (h : p.Walked)
    (hname : ∀ c ∈ p.typeName.toList, Identifier.isAllowed c = true) :
    ∀ q ∈ p.plans, ∀ c ∈ q.typeName.toList, Identifier.isAllowed c = true := by
  refine h.typeName_induction (P := fun name => ∀ c ∈ name.toList, Identifier.isAllowed c = true)
    (fun stem part hstem => ?_) hname
  rw [String.toList_append]
  exact List.forall_mem_append.mpr ⟨hstem, Identifier.isAllowed_of_mem_typeName part⟩

/-- **The sentences about the classes of a plan stay between their quotes exactly if the names of its messages
and groups are harmless.** What is contained is what is found between the quotes of the printed line,
whatever source follows. -/
theorem docs_contained_iff {e : Edition} {p : Plan} {cs : List ClassDef} (hwalked : p.Walked)
    (hname : ∀ c ∈ p.typeName.toList, Identifier.isAllowed c = true)
    (h : (p.classes e).outcome = .ok cs) :
    ((∀ c ∈ cs, IsContained c.doc.chars) ↔ ∀ q ∈ p.plans, ∀ name ∈ q.shownName?, IsHarmless name.chars) ∧
      ∀ c ∈ cs, IsContained c.doc.chars → ∀ after, extent? (c.docLine.chars.drop 4 ++ after) =
        some (c.doc.chars, after) := by
  have hallowed := hwalked.isAllowed_of_mem_typeName hname
  have hemitted := emitted_classes (yields_self h)
  -- Each class has the sentence of its plan.
  have hsentence : List.Forall₂ (fun q c => q.sentence e = some c.doc) p.plans cs := by
    refine hemitted.imp fun q c hc => ?_
    obtain ⟨bodies, hc⟩ := hc
    have hclass := hc.classOf
    rw [classOf] at hclass
    obtain ⟨doc, hdoc, hclass⟩ := Option.bind_eq_some_iff.mp hclass
    obtain ⟨numbers, -, hclass⟩ := Option.bind_eq_some_iff.mp hclass
    obtain rfl := Option.some.inj hclass
    exact hdoc
  constructor
  · constructor
    · intro hcontained q hq
      obtain ⟨c, hc, hdoc⟩ := exists_of_forall₂_left hsentence hq
      exact (isContained_sentence hdoc (hallowed q hq)).mp (hcontained c hc)
    · intro hharmless c hc
      obtain ⟨q, hq, hdoc⟩ := exists_of_forall₂_right hsentence hc
      exact (isContained_sentence hdoc (hallowed q hq)).mpr (hharmless q hq)
  · intro c hc hcontained after
    have hline : c.docLine.chars.drop 4 ++ after =
        tripled ++ (c.doc.chars ++ (tripled ++ after)) := by
      simp only [ClassDef.docLine, chars_append, chars_ofString]
      simp [indent, tripled]
    rw [hline]
    exact hcontained.scan_eq after

/-- The sentences about the classes of the report, which show the names of the message and its group. -/
theorem reportPlan_docs_contained : ∃ p cs, ofMessage "Report" reportTokens = .ok p ∧
    (p.classes reportEdition).outcome = .ok cs ∧
    ((∀ c ∈ cs, IsContained c.doc.chars) ↔ ∀ q ∈ p.plans, ∀ name ∈ q.shownName?, IsHarmless name.chars) ∧
      ∀ c ∈ cs, IsContained c.doc.chars → ∀ after, extent? (c.docLine.chars.drop 4 ++ after) =
        some (c.doc.chars, after) := by
  obtain ⟨p, cs, hp, hcs, -, -⟩ := exists_reportPlan
  have hname : ∀ c ∈ p.typeName.toList, Identifier.isAllowed c = true := by
    rw [typeName_ofMessage hp]
    exact List.all_eq_true.mp (by decide)
  exact ⟨p, cs, hp, hcs, docs_contained_iff (walked_ofMessage hp) hname hcs⟩

end Plan

/-- The name of a message with an expression between tripled quotes of its own. -/
def tradeName : Text :=
  "Trade\"\"\" + total + \"\"\"Note"

/-- The tokens of a message of that name without any fields. -/
def tradeTokens : List Token := [
  { signal := .opens .message, name := tradeName, encodedLength := some 0, tokenCount := some 2 },
  { signal := .closes .message, name := tradeName, tokenCount := some 2 }]

/-- The sentence about that message. -/
def tradeDoc : Text :=
  "Message " ++ tradeName ++ " (template -1, block length 0; header types uint16/uint16/uint16/uint16)."

/-- **A name can leave its sentence.** The sentence about this message ends within its name, and what the name
has behind the quotes is source of the class. -/
theorem tradePlan_escapes : ∃ p cs, Plan.ofMessage (Identifier.typeName tradeName) tradeTokens = .ok p ∧
    (p.classes reportEdition).outcome = .ok cs ∧ ∃ c ∈ cs, ¬ IsContained c.doc.chars ∧
      ∃ after, extent? (c.docLine.chars.drop 4) = some ("Message Trade".toList, " + total + ".toList ++ after) := by
  have h : ∃ p, Plan.ofMessage (Identifier.typeName tradeName) tradeTokens = .ok p ∧
      ((p.classes reportEdition).outcome.map fun cs => cs.map ClassDef.doc).toOption = some [tradeDoc] := by
    refine ⟨?plan, ?walk, ?classes⟩
    case walk =>
      cbv
      rfl
    case classes => decide +kernel
  obtain ⟨p, hp, hdocs⟩ := h
  cases hcs : (p.classes reportEdition).outcome with
  | error fault =>
    rw [hcs] at hdocs
    cases hdocs
  | ok cs =>
    rw [hcs] at hdocs
    obtain ⟨c, rfl, hdoc⟩ := List.map_eq_singleton_iff.mp (Option.some.inj hdocs)
    refine ⟨p, [c], hp, hcs, c, List.mem_singleton_self c, ?_, ?_⟩
    · intro hcontained
      rw [hdoc] at hcontained
      have hchars : tradeDoc.chars = "Message Trade".toList ++ tripled ++
          tradeDoc.chars.drop 16 := by decide +kernel
      exact hcontained.noTripled ⟨_, _, hchars.symm⟩
    · refine ⟨(tradeDoc.chars ++ tripled).drop 27, ?_⟩
      rw [ClassDef.docLine, hdoc]
      decide +kernel

end SimpleBinary
