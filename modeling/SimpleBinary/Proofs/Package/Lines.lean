import Mathlib
import SimpleBinary.Proofs.Class.OnLine
import SimpleBinary.Proofs.Package.Modules

/-!
The lines of modules.

The text of a module is cut at its line feeds. Where it has been put together from texts with line feeds
between them, its lines are those of the texts (`Text.mem_lines_join`), and what has been put together from
lines gives these lines back. So a line of a module is one of its header, of its imports or of its classes
(`Package.Module.mem_lines`), and the first line of each class is a line of the module
(`Package.Module.headLine_mem_lines`).
-/

set_option autoImplicit false

namespace SimpleBinary

open Code
open Package (Module)

/-! ## Lines of texts -/

namespace Text

/-- The parts between the occurrences of a mark are those of the standard library. -/
theorem split_eq_splitOn {α : Type} [DecidableEq α] (mark : α) (cs : List α) :
    split mark cs = cs.splitOn mark := by
  induction cs with
  | nil => rfl
  | cons c rest ih =>
    rw [split, ih]
    unfold List.splitOn
    rw [List.splitOnP_cons_eq_if_modifyHead]
    cases h : rest.splitOnP (· == mark) with
    | nil => exact absurd h (List.splitOnP_ne_nil _ _)
    | cons part parts => simp

/-- The lines of a text. -/
def lines (t : Text) : List Text :=
  split (.char '\n') t

/-- **A text is cut at a line feed.** All that is said here about lines follows from this. -/
theorem lines_append (a b : Text) : lines (a ++ .char '\n' :: b) = lines a ++ lines b := by
  simp only [lines, split_eq_splitOn, List.splitOn]
  exact List.splitOnP_append_cons a b (by simp)

theorem lines_of_not_mem {t : Text} (h : .char '\n' ∉ t) : lines t = [t] := by
  rw [lines, split_eq_splitOn, List.splitOn_eq_singleton h]

theorem lines_ofString {s : String} (h : IsLine s) : lines s = [(s : Text)] :=
  lines_of_not_mem (not_mem_ofString.mpr h)

@[simp] theorem lines_nil : lines [] = [[]] :=
  rfl

@[simp] theorem lines_ofString_empty : lines (ofString "") = [[]] :=
  rfl

variable {line : Text}

/-- Line feeds behind a text add empty lines only. -/
theorem mem_lines_append_breaks (hline : line ≠ []) (t : Text) (k : Nat) :
    line ∈ lines (t ++ List.replicate k (.char '\n')) ↔ line ∈ lines t := by
  induction k generalizing t with
  | zero => simp
  | succ k ih =>
    have hfirst : t ++ List.replicate (k + 1) (.char '\n') =
        (t ++ [.char '\n']) ++ List.replicate k (.char '\n') := by
      simp [List.replicate_succ]
    rw [hfirst, ih, lines_append, List.mem_append, lines_nil, List.mem_singleton, or_iff_left hline]

/-- The line feeds at the end of a text are no matter. -/
theorem mem_lines_withoutLastBreaks (hline : line ≠ []) (t : Text) :
    line ∈ lines (withoutLastBreaks t) ↔ line ∈ lines t := by
  have hbreaks : t.reverse.takeWhile (· == .char '\n') =
      List.replicate (t.reverse.takeWhile (· == .char '\n')).length (.char '\n') := by
    refine List.eq_replicate_iff.mpr ⟨rfl, fun p hp => ?_⟩
    simpa using List.mem_takeWhile_imp hp
  have htext : t = withoutLastBreaks t ++
      List.replicate (t.reverse.takeWhile (· == .char '\n')).length (.char '\n') := by
    conv_lhs => rw [← List.reverse_reverse t, ← List.takeWhile_append_dropWhile
      (p := (· == CodePoint.char '\n')) (l := t.reverse)]
    rw [List.reverse_append, hbreaks, List.reverse_replicate, withoutLastBreaks, List.length_replicate]
  conv_rhs => rw [htext]
  exact (mem_lines_append_breaks hline _ _).symm

/-- **The lines of texts with line feeds between them** are the lines of the texts, and empty ones. -/
theorem mem_lines_join (hline : line ≠ []) (k : Nat) (texts : List Text) :
    line ∈ lines (join (List.replicate (k + 1) (.char '\n')) texts) ↔ ∃ t ∈ texts, line ∈ lines t := by
  induction texts with
  | nil => simp [join, hline]
  | cons first rest ih =>
    cases rest with
    | nil => simp [join]
    | cons second rest =>
      have hfirst : join (List.replicate (k + 1) (.char '\n')) (first :: second :: rest) =
          (first ++ List.replicate k (.char '\n')) ++
            .char '\n' :: join (List.replicate (k + 1) (.char '\n')) (second :: rest) := by
        rw [join, List.intercalate_cons_cons, join, List.replicate_succ']
        simp
      rw [hfirst, lines_append, List.mem_append, mem_lines_append_breaks hline, ih]
      simp

/-- Lines that are put together on lines of their own are the lines of the text. -/
theorem mem_lines_join_lines (hline : line ≠ []) {texts : List Text} (h : ∀ t ∈ texts, .char '\n' ∉ t) :
    line ∈ lines (join "\n" texts) ↔ line ∈ texts := by
  refine (mem_lines_join hline 0 texts).trans ⟨?_, ?_⟩
  · rintro ⟨t, ht, hmem⟩
    rw [lines_of_not_mem (h t ht)] at hmem
    rwa [List.mem_singleton.mp hmem]
  · intro hmem
    refine ⟨line, hmem, ?_⟩
    rw [lines_of_not_mem (h line hmem)]
    exact List.mem_singleton_self _

theorem ofString_append (s t : String) : ofString (s ++ t) = ofString s ++ ofString t := by
  simp [ofString, ofChars]

theorem ofString_intercalate (s : String) (texts : List String) :
    ofString (s.intercalate texts) = join s (texts.map ofString) := by
  induction texts with
  | nil => rfl
  | cons first rest ih =>
    cases rest with
    | nil => rw [String.intercalate_singleton, List.map_singleton, join, List.intercalate_singleton]
    | cons second rest =>
      rw [String.intercalate_cons_cons, ofString_append, ofString_append, ih]
      simp only [List.map_cons, join, List.intercalate_cons_cons]

/-- The lines of a text that ends every line with a line feed. -/
theorem mem_lines_ofString_join {strings : List String} (h : ∀ s ∈ strings, IsLine s) (hline : line ≠ []) :
    line ∈ lines (ofString (String.join (strings.map (· ++ "\n")))) ↔ ∃ s ∈ strings, line = ofString s := by
  induction strings with
  | nil => simpa using hline
  | cons s rest ih =>
    obtain ⟨hs, hrest⟩ := List.forall_mem_cons.mp h
    have hfirst : ofString (String.join ((s :: rest).map (· ++ "\n"))) =
        ofString s ++ .char '\n' :: ofString (String.join (rest.map (· ++ "\n"))) := by
      rw [List.map_cons, String.join_cons, ofString_append, ofString_append, List.append_assoc]
      rfl
    rw [hfirst, lines_append, lines_ofString hs, List.mem_append, List.mem_singleton, ih hrest]
    simp

end Text

/-! ## Lines of classes -/

namespace Code.ClassDef

/-- A printed line of a class: its first, its sentence, or one inside it. -/
def IsLineOf (c : ClassDef) (line : Text) : Prop :=
  line = Text.ofString c.headLine ∨ line = c.docLine ∨ ∃ l ∈ c.bodyLines, line = Text.ofString l

/-- The lines of the text of a class are those that it is printed on. -/
theorem mem_lines_text {c : ClassDef} (h : c.Printed) {line : Text} (hline : line ≠ []) :
    line ∈ c.text.lines ↔ c.IsLineOf line := by
  have hdoc : CodePoint.char '\n' ∉ c.docLine := by
    refine List.not_mem_append (List.not_mem_append (List.not_mem_append ?_ ?_) h.doc) ?_
    all_goals exact Text.not_mem_ofString.mpr (by decide)
  rw [text, Text.mem_lines_join_lines hline, List.mem_cons, List.mem_cons, List.mem_map, IsLineOf]
  · simp only [eq_comm]
  · refine List.forall_mem_cons.mpr ⟨Text.not_mem_ofString.mpr h.head, List.forall_mem_cons.mpr ⟨hdoc, ?_⟩⟩
    intro t ht
    obtain ⟨l, hl, rfl⟩ := List.mem_map.mp ht
    exact Text.not_mem_ofString.mpr (h.body l hl).1

/-- The lines of the sentence about a class are lines of its text, also if there are several. -/
theorem mem_lines_text_of_doc {c : ClassDef} {line : Text} (hline : line ≠ [])
    (h : line ∈ c.docLine.lines) : line ∈ c.text.lines :=
  (Text.mem_lines_join hline 0 _).mpr ⟨c.docLine, List.mem_cons_of_mem _ (List.mem_cons_self ..), h⟩

theorem mem_lines_classesText {cs : List ClassDef} {line : Text} (hline : line ≠ []) :
    line ∈ (classesText cs).lines ↔ ∃ c ∈ cs, line ∈ c.text.lines := by
  refine (Text.mem_lines_join hline 2 _).trans ?_
  simp only [List.mem_map, exists_exists_and_eq_and]

end Code.ClassDef

/-! ## Import lines -/

namespace Imports

variable {i : Imports} {P : String → Prop}

/-- What holds of the import of helpers and of those of other modules holds of all lines that import from the
package. -/
theorem forall_mem_packageLines (hsupport : P (lineFrom supportModule i.helpers))
    (hsiblings : ∀ module ∈ i.siblings, P (lineFrom module (i.typesFrom module))) :
    ∀ l ∈ i.packageLines, P l := by
  refine List.forall_mem_append.mpr ⟨?_, fun l hl => ?_⟩
  · split
    · simp
    · exact List.forall_mem_singleton.mpr hsupport
  · obtain ⟨module, hmodule, rfl⟩ := List.mem_map.mp hl
    exact hsiblings module (NameSet.mem_toList.mp hmodule)

/-- What holds of each kind of import lines, and of the empty one between them, holds of all of them. -/
theorem forall_mem_lines (hstandard : ∀ name ∈ i.modules, P ("import " ++ name)) (hgap : P "")
    (hpackage : ∀ l ∈ i.packageLines, P l) : ∀ l ∈ i.lines, P l := by
  refine List.forall_mem_append.mpr ⟨List.forall_mem_append.mpr ⟨fun l hl => ?_, ?_⟩, hpackage⟩
  · obtain ⟨name, hname, rfl⟩ := List.mem_map.mp hl
    exact hstandard name (NameSet.mem_toList.mp hname)
  · split
    · simp
    · exact List.forall_mem_singleton.mpr hgap

end Imports

/-! ## Lines of modules -/

namespace Package.Module

variable {m : Module} {line : Text}

/-- **The lines of a module** are those of its header, its imports and its classes. -/
theorem mem_lines (hline : line ≠ []) : line ∈ m.source.lines ↔
    line ∈ (Text.ofString moduleHeader).lines ∨ line ∈ (Text.ofString m.imports.text).lines ∨
      ∃ c ∈ m.classes, line ∈ c.text.lines := by
  have hsource : m.source = withoutLastBreaks (Text.join "\n" (Text.ofString moduleHeader ::
      (if m.imports.text.isEmpty then [] else [(m.imports.text ++ "\n\n" : Text)]) ++
        [classesText m.classes])) ++ List.replicate 1 (.char '\n') := rfl
  -- Line feeds at the end, and between the parts, make empty lines only.
  rw [hsource, Text.mem_lines_append_breaks hline, Text.mem_lines_withoutLastBreaks hline]
  refine (Text.mem_lines_join hline 0 _).trans ?_
  rw [← ClassDef.mem_lines_classesText hline]
  have himports : (∃ t ∈ (if m.imports.text.isEmpty then [] else [(m.imports.text ++ "\n\n" : Text)]),
      line ∈ Text.lines t) ↔ line ∈ (Text.ofString m.imports.text).lines := by
    split
    · rename_i hempty
      rw [String.isEmpty_iff.mp hempty]
      simpa using hline
    · simp only [List.mem_singleton, exists_eq_left]
      exact Text.mem_lines_append_breaks hline _ 2
  simp only [List.cons_append, List.mem_cons, List.mem_append, List.not_mem_nil, or_false,
    or_and_right, exists_or, himports, exists_eq_left]

/-- The import lines of a module are those of the text of its imports. -/
theorem mem_lines_imports (himports : ∀ l ∈ m.imports.lines, IsLine l) (hline : line ≠ []) :
    line ∈ (Text.ofString m.imports.text).lines ↔ ∃ l ∈ m.imports.lines, line = Text.ofString l := by
  have hlines : ∀ t ∈ m.imports.lines.map Text.ofString, CodePoint.char '\n' ∉ t := by
    intro t ht
    obtain ⟨l, hl, rfl⟩ := List.mem_map.mp ht
    exact Text.not_mem_ofString.mpr (himports l hl)
  rw [Imports.text, Text.ofString_intercalate, Text.mem_lines_join_lines hline hlines, List.mem_map]
  simp only [eq_comm]

/-- The first line of a class is a line of its module. -/
theorem headLine_mem_lines {c : ClassDef} (hc : c ∈ m.classes) (hprinted : c.Printed) :
    Text.ofString c.headLine ∈ m.source.lines := by
  have hline : Text.ofString c.headLine ≠ [] := by
    unfold ClassDef.headLine
    split <;> simp [Text.ofString, Text.ofChars]
  exact (mem_lines hline).mpr (.inr (.inr ⟨c, hc, (ClassDef.mem_lines_text hprinted hline).mpr (.inl rfl)⟩))

end Package.Module

/-! ## Lines that begin with a small letter -/

theorem Text.head?_ofString (s : String) : (ofString s).head? = s.toList.head?.map CodePoint.char := by
  rw [ofString, ofChars, List.head?_map]

/-- Of the lines of a class, only the first one begins with a small letter. -/
theorem Code.ClassDef.Printed.eq_headLine {c : ClassDef} (h : c.Printed) {line : Text}
    (hline : c.IsLineOf line) {first : Char} (hlower : first.isLower = true)
    (hhead : line.head? = some (.char first)) : line = Text.ofString c.headLine := by
  rcases hline with rfl | rfl | ⟨l, hl, rfl⟩
  · rfl
  · obtain rfl : ' ' = first := CodePoint.char.inj (Option.some.inj hhead)
    cases hlower
  · rw [Text.head?_ofString] at hhead
    obtain ⟨other, hother, hchar⟩ := Option.map_eq_some_iff.mp hhead
    obtain rfl := CodePoint.char.inj hchar
    rw [(h.body l hl).2 other hother] at hlower
    cases hlower

/-- No line of a text of lines begins with a character that none of them begins with. -/
theorem head?_ne_of_mem_lines_join {c : Char} {strings : List String}
    (h : ∀ s ∈ strings, IsLine s ∧ s.toList.head? ≠ some c) :
    ∀ line ∈ (Text.ofString (String.join (strings.map (· ++ "\n")))).lines, line.head? ≠ some (.char c) := by
  intro line hmem hhead
  have hline : line ≠ [] := by
    rintro rfl
    cases hhead
  obtain ⟨s, hs, rfl⟩ := (Text.mem_lines_ofString_join (fun s hs => (h s hs).1) hline).mp hmem
  rw [Text.head?_ofString] at hhead
  obtain ⟨first, hfirst, hchar⟩ := Option.map_eq_some_iff.mp hhead
  rw [CodePoint.char.inj hchar] at hfirst
  exact (h s hs).2 hfirst

/-- The lines that each module begins with are remarks. -/
theorem head?_ne_of_mem_moduleHeader {c : Char} (hc : c ≠ '#') :
    ∀ line ∈ (Text.ofString moduleHeader).lines, line.head? ≠ some (.char c) := by
  have hheader : moduleHeader = String.join (["# Generated SBE (Simple Binary Encoding) message codec",
      "# DO NOT EDIT - regenerate from IR"].map (· ++ "\n")) := by
    simp [moduleHeader, String.join]
  rw [hheader]
  refine head?_ne_of_mem_lines_join (List.forall_mem_cons.mpr ⟨⟨by decide, ?_⟩,
    List.forall_mem_singleton.mpr ⟨by decide, ?_⟩⟩)
  all_goals simpa using hc.symm

/-- **A line of a module that begins with a small letter** imports something or is the first one of a
class. -/
theorem Package.Module.cases_of_isLower {m : Module} {line : Text} (hclasses : ∀ c ∈ m.classes, c.Printed)
    (himports : ∀ l ∈ m.imports.lines, IsLine l) (hmem : line ∈ m.source.lines) {first : Char}
    (hlower : first.isLower = true) (hhead : line.head? = some (.char first)) :
    (∃ name, line = Text.ofString ("import " ++ name)) ∨ (∃ l ∈ m.imports.packageLines, line = Text.ofString l) ∨
      ∃ c ∈ m.classes, line = Text.ofString c.headLine := by
  have hline : line ≠ [] := by
    rintro rfl
    cases hhead
  rcases (mem_lines hline).mp hmem with hheader | himport | ⟨c, hc, hclass⟩
  · have hremark : first ≠ '#' := by
      rintro rfl
      cases hlower
    exact absurd hhead (head?_ne_of_mem_moduleHeader hremark line hheader)
  · obtain ⟨l, hl, rfl⟩ := (mem_lines_imports himports hline).mp himport
    have hkinds : ∀ l ∈ m.imports.lines, (∃ name, l = "import " ++ name) ∨ l = "" ∨ l ∈ m.imports.packageLines :=
      Imports.forall_mem_lines (fun name _ => .inl ⟨name, rfl⟩) (.inr (.inl rfl)) fun l hl => .inr (.inr hl)
    rcases hkinds l hl with ⟨name, rfl⟩ | rfl | hpackage
    · exact .inl ⟨name, rfl⟩
    · exact absurd rfl hline
    · exact .inr (.inl ⟨l, hpackage, rfl⟩)
  · have hprinted := hclasses c hc
    exact .inr (.inr ⟨c, hc, hprinted.eq_headLine ((ClassDef.mem_lines_text hprinted hline).mp hclass) hlower hhead⟩)

/-! ## Lines that import from the package -/

/-- Whether a line imports from the package that it is in. -/
def Text.ImportsSibling (line : Text) : Prop :=
  Text.ofString "from ." <+: line

theorem Text.ImportsSibling.head? {line : Text} (h : line.ImportsSibling) :
    line.head? = some (.char 'f') := by
  obtain ⟨rest, rfl⟩ := h
  rfl

theorem Imports.head?_lineFrom (module : String) (names : NameSet) :
    (lineFrom module names).toList.head? = some 'f' := by
  show ("from ." ++ module ++ " import " ++ ", ".intercalate names.toList).toList.head? = _
  simp

/-- No line of the support module imports from the package. -/
theorem not_importsSibling_supportSource : ∀ line ∈ (Text.ofString supportSource).lines,
    ¬ line.ImportsSibling := by
  intro line hmem hfrom
  exact head?_ne_of_mem_lines_join (c := 'f') (by decide +kernel) line hmem hfrom.head?

/-- The first line of a class begins with the word for it. -/
theorem Code.ClassDef.head?_headLine (c : ClassDef) : c.headLine.toList.head? = some 'c' := by
  unfold ClassDef.headLine
  split <;> simp

/-- **A line of a module that imports from the package** is one of its import lines. -/
theorem Package.Module.eq_of_importsSibling {m : Module} {line : Text}
    (hclasses : ∀ c ∈ m.classes, c.Printed) (himports : ∀ l ∈ m.imports.lines, IsLine l)
    (hmem : line ∈ m.source.lines) (hfrom : line.ImportsSibling) :
    ∃ l ∈ m.imports.packageLines, line = Text.ofString l := by
  have hhead := hfrom.head?
  rcases cases_of_isLower hclasses himports hmem (by decide) hhead with ⟨name, rfl⟩ | hpackage | ⟨c, -, rfl⟩
  · rw [Text.head?_ofString] at hhead
    simp at hhead
  · exact hpackage
  · rw [Text.head?_ofString, ClassDef.head?_headLine] at hhead
    simp at hhead

/-! ## Lines that open a class -/

/-- Whether a line opens a class. -/
def Text.OpensClass (line : Text) : Prop :=
  Text.ofString "class " <+: line

theorem Text.OpensClass.head? {line : Text} (h : line.OpensClass) : line.head? = some (.char 'c') := by
  obtain ⟨rest, rfl⟩ := h
  rfl

/-- **A line of a module that opens a class** is the first one of a class of the module. -/
theorem Package.Module.eq_of_opensClass {m : Module} {line : Text} (hclasses : ∀ c ∈ m.classes, c.Printed)
    (himports : ∀ l ∈ m.imports.lines, IsLine l) (hmem : line ∈ m.source.lines) (hopens : line.OpensClass) :
    ∃ c ∈ m.classes, line = Text.ofString c.headLine := by
  have hhead := hopens.head?
  rcases cases_of_isLower hclasses himports hmem (by decide) hhead with ⟨name, rfl⟩ | ⟨l, hl, rfl⟩ | hclass
  · rw [Text.head?_ofString] at hhead
    simp at hhead
  · -- What imports from the package begins with another letter.
    have hfrom : l.toList.head? = some 'f' := by
      rcases List.mem_append.mp hl with hl | hl
      · split at hl
        · cases hl
        · rw [List.mem_singleton.mp hl, Imports.head?_lineFrom]
      · obtain ⟨module, -, rfl⟩ := List.mem_map.mp hl
        exact Imports.head?_lineFrom ..
    rw [Text.head?_ofString, hfrom] at hhead
    simp at hhead
  · exact hclass

end SimpleBinary
