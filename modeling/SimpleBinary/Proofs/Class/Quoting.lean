import SimpleBinary.Codec.Entity
import SimpleBinary.Proofs.Text.Quoted

/-!
Quoted text in the generated source.

A constant of characters is written as the literal of its bytes, and accessors return what the schema says
about an attribute in literals of texts. A line of source is a row of literals and of characters outside of
them (`Literal.parts?`). In the lines that hold text of the schema, what is outside of the literals does not
depend on that text, and the literals are those of the texts themselves. So no text of the schema gets out of
its quotes (`Codec.quoted_texts_read_back`).
-/

set_option autoImplicit false

namespace SimpleBinary

open Code

/-! ## The parts of a line -/

namespace Literal

theorem length_le_of_scan {closing cs inside after : List Char}
    (h : scan closing cs = some (inside, after)) : after.length ≤ cs.length := by
  fun_induction scan closing cs generalizing inside <;> grind [further, Option.map_eq_some_iff]

theorem length_lt_of_opening? {cs closing rest : List Char} (h : opening? cs = some (closing, rest)) :
    rest.length < cs.length := by
  unfold opening? at h
  grind

theorem length_lt_of_extent? {cs inside after : List Char} (h : extent? cs = some (inside, after)) :
    after.length < cs.length := by
  obtain ⟨⟨closing, rest⟩, hopening, hscan⟩ := Option.bind_eq_some_iff.mp h
  exact (length_le_of_scan hscan).trans_lt (length_lt_of_opening? hopening)

theorem length_lt_of_between? {value? : List Char → Option Literal} {cs after : List Char} {l : Literal}
    (h : between? value? cs = some (l, after)) : after.length < cs.length := by
  obtain ⟨⟨inside, found⟩, hextent, h⟩ := Option.bind_eq_some_iff.mp h
  obtain ⟨value, -, h⟩ := Option.bind_eq_some_iff.mp h
  obtain ⟨-, rfl⟩ := Prod.mk.inj (Option.some.inj h)
  exact length_lt_of_extent? hextent

theorem length_lt_of_read? {names : List Char → Option Nat} {cs after : List Char} {l : Literal}
    (h : read? names cs = some (l, after)) : after.length < cs.length := by
  cases cs with
  | nil => cases h
  | cons c rest =>
    rw [read?] at h
    split at h
    · exact (length_lt_of_between? h).trans (by simp)
    · split at h
      · exact (length_lt_of_between? h).trans (by simp)
      · exact length_lt_of_between? h

/-- Whether a character may be the letter in front of the quotes of a literal. -/
def isMark (c : Char) : Bool :=
  c = 'b' || c = 'B' || c = 'u' || c = 'U'

/-- Whether a literal begins here. -/
def begins : List Char → Bool
  | [] => false
  | c :: rest => isQuote c || isMark c && rest.head?.any isQuote

/-- The parts of a line: its literals, and the characters outside of them. -/
def parts? (names : List Char → Option Nat) (cs : List Char) : Option (List (Char ⊕ Literal)) :=
  match cs with
  | [] => some []
  | c :: rest =>
    if begins (c :: rest) then
      match h : read? names (c :: rest) with
      | none => none
      | some (l, after) => (parts? names after).map ([.inr l] ++ ·)
    else (parts? names rest).map ([.inl c] ++ ·)
termination_by cs.length
decreasing_by
  · exact length_lt_of_read? h
  · simp

/-- Characters outside of literals. -/
def outside (s : String) : List (Char ⊕ Literal) :=
  s.toList.map .inl

/-- Whether source has no quotes and no controls and does not end in a letter that might belong to a
literal behind it. -/
def isOutside (s : String) : Bool :=
  s.toList.all (fun c => !isQuote c && !Text.isControl c) && s.toList.getLast?.all (!isMark ·)

/-- Source with texts in quotes, each behind some source of its own, and with more source behind them. -/
def row (texts : List (String × Text)) (last : String) : String :=
  texts.foldr (fun (before, t) rest => before ++ (Text.quoted t ++ rest)) last

/-- The parts of such source. -/
def rowParts (texts : List (String × Text)) (last : String) : List (Char ⊕ Literal) :=
  texts.flatMap (fun (before, t) => outside before ++ [.inr (.text t)]) ++ outside last

section

variable {names : List Char → Option Nat}

theorem parts?_read {cs after : List Char} {l : Literal} (hbegins : begins cs = true)
    (h : read? names cs = some (l, after)) :
    parts? names cs = (parts? names after).map ([.inr l] ++ ·) := by
  cases cs with
  | nil => cases h
  | cons c rest =>
    rw [parts?, if_pos hbegins]
    split
    · rename_i hnone
      rw [h] at hnone
      cases hnone
    · rename_i l' after' hsome
      rw [h] at hsome
      obtain ⟨rfl, rfl⟩ := Prod.mk.inj (Option.some.inj hsome)
      rfl

theorem parts?_cons {c : Char} {rest : List Char} (h : begins (c :: rest) = false) :
    parts? names (c :: rest) = (parts? names rest).map ([.inl c] ++ ·) := by
  rw [parts?]
  simp [h]

theorem isQuote_eq_false {s : String} (h : isOutside s = true) : ∀ c ∈ s.toList, isQuote c = false := by
  intro c hc
  simp only [isOutside, Bool.and_eq_true, List.all_eq_true, Bool.not_eq_true'] at h
  exact (h.1 c hc).1

theorem parts?_outside {s : String} (h : isOutside s = true) (rest : List Char) :
    parts? names (s.toList ++ rest) = (parts? names rest).map (outside s ++ ·) := by
  have hquotes := isQuote_eq_false h
  have hmark : s.toList.getLast?.all (!isMark ·) = true := (Bool.and_eq_true_iff.mp h).2
  unfold outside
  generalize s.toList = cs at hquotes hmark
  induction cs with
  | nil => simp
  | cons c cs ih =>
    obtain ⟨hc, hquotes⟩ := List.forall_mem_cons.mp hquotes
    have hbegins : begins (c :: (cs ++ rest)) = false := by
      cases cs with
      | nil => simp_all [begins]
      | cons d cs => simp_all [begins]
    have hlast : cs.getLast?.all (!isMark ·) = true := by
      cases cs with
      | nil => rfl
      | cons d cs => exact hmark
    rw [List.cons_append, parts?_cons hbegins, ih hquotes hlast, Option.map_map]
    simp [Function.comp_def]

/-- A quoted text is one part of its line. -/
theorem parts?_quoted (t : Text) {rest : List Char} (hrest : ∀ c ∈ rest.head?, isQuote c = false) :
    parts? names ((Text.quoted t).toList ++ rest) =
      (parts? names rest).map ([.inr (.text t)] ++ ·) := by
  refine parts?_read ?_ (read?_quoted names t hrest)
  have hquote := Text.isQuote_quoteFor t.chars
  rw [Text.quoted, String.toList_ofList, Text.quotedChars, List.cons_append, begins, hquote, Bool.true_or]

/-- Texts in quotes are the literals of these texts, and what is between them is outside of literals,
whatever the texts are. -/
theorem parts?_row {texts : List (String × Text)} {last : String}
    (htexts : ∀ entry ∈ texts, isOutside entry.1 = true ∧ entry.1 ≠ "") (hlast : isOutside last = true) :
    parts? names (row texts last).toList = some (rowParts texts last) := by
  induction texts with
  | nil =>
    have hparts : parts? names (last.toList ++ []) = _ := parts?_outside hlast []
    rw [List.append_nil, parts?] at hparts
    simpa [row, rowParts] using hparts
  | cons entry texts ih =>
    obtain ⟨before, t⟩ := entry
    obtain ⟨⟨hbefore, -⟩, htexts⟩ := List.forall_mem_cons.mp htexts
    -- What follows the text is empty or begins with source of its own, and that has no quotes.
    have hnext : ∀ c ∈ (row texts last).toList.head?, isQuote c = false := by
      intro c hc
      cases texts with
      | nil => exact isQuote_eq_false hlast c (List.mem_of_head? hc)
      | cons next texts =>
        obtain ⟨hnext, hne⟩ := htexts next List.mem_cons_self
        have hhead : (row (next :: texts) last).toList.head? = next.1.toList.head? := by
          have hcons : next.1.toList ≠ [] := fun heq => hne (String.toList_eq_nil_iff.mp heq)
          obtain ⟨d, ds, hds⟩ := List.exists_cons_of_ne_nil hcons
          simp [row, hds]
        rw [hhead] at hc
        exact isQuote_eq_false hnext c (List.mem_of_head? hc)
    have hrow : (row ((before, t) :: texts) last).toList =
        before.toList ++ ((Text.quoted t).toList ++ (row texts last).toList) := by
      simp [row]
    rw [hrow, parts?_outside hbefore, parts?_quoted t hnext, ih htexts]
    simp [rowParts]

theorem isControl_of_mem_row {texts : List (String × Text)} {last : String}
    (htexts : ∀ entry ∈ texts, isOutside entry.1 = true) (hlast : isOutside last = true) :
    ∀ c ∈ (row texts last).toList, Text.isControl c = false := by
  have houtside {s : String} (h : isOutside s = true) : ∀ c ∈ s.toList, Text.isControl c = false := by
    intro c hc
    simp only [isOutside, Bool.and_eq_true, List.all_eq_true, Bool.not_eq_true'] at h
    exact (h.1 c hc).2
  induction texts with
  | nil => exact houtside hlast
  | cons entry texts ih =>
    obtain ⟨hentry, htexts⟩ := List.forall_mem_cons.mp htexts
    have hquoted : ∀ c ∈ (Text.quoted entry.2).toList, Text.isControl c = false := by
      rw [Text.quoted, String.toList_ofList, Text.quotedChars_eq]
      exact Text.isControl_of_mem_quotedCharsBy Text.isShown entry.2
    rw [row, List.foldr_cons, String.toList_append, String.toList_append]
    exact List.forall_mem_append.mpr ⟨houtside hentry, List.forall_mem_append.mpr ⟨hquoted, ih htexts⟩⟩

end

end Literal

/-! ## Lines of accessors -/

/-- Whether the body of a method is one line without controls, and that line consists of the given texts
in quotes and of the given source around them. -/
def Code.Method.IsLineOf (m : Method) (names : List Char → Option Nat) (texts : List (String × Text))
    (last : String) : Prop :=
  ∃ line, Stmt.blockLines 2 m.body = [line] ∧ (∀ c ∈ line.toList, Text.isControl c = false) ∧
    Literal.parts? names line.toList = some (Literal.rowParts texts last)

namespace Codec

open Literal

/-- A text of the schema is shown in quotes; the empty one, which counts as none, is shown just so. -/
theorem text_shown (t : Text) : (shown (.text t)).text = Text.quoted t := by
  have hshown : shown (.text t) = .datum (.text t) := by
    cases t <;> rfl
  rw [hshown, Expr.text, Datum.spelling?, Datum.spell]
  rfl

variable (names : List Char → Option Nat)

theorem isLineOf_row {m : Method} {texts : List (String × Text)} {last : String}
    (hbody : Stmt.blockLines 2 m.body = [row texts last])
    (htexts : texts.all (fun entry => isOutside entry.1 && !entry.1.isEmpty) = true)
    (hlast : isOutside last = true) : m.IsLineOf names texts last := by
  have hentry : ∀ entry ∈ texts, isOutside entry.1 = true ∧ entry.1 ≠ "" := by
    simpa using htexts
  exact ⟨row texts last, hbody, isControl_of_mem_row (fun entry h => (hentry entry h).1) hlast,
    parts?_row hentry hlast⟩

/-- An accessor of one text returns the literal of that text. -/
theorem isLineOf_static (name : String) (params : List String) (t : Text) :
    (Method.static name params (shown (.text t))).IsLineOf names [("        return ", t)] "" := by
  refine isLineOf_row names ?_ (by simp only [List.all_cons, List.all_nil]; decide) rfl
  simp only [row, List.foldr_cons, List.foldr_nil, String.append_empty]
  rw [← text_shown t]
  rfl

/-- The accessor of the meaning of an attribute returns an entry of a dictionary of the three texts. -/
theorem isLineOf_metaAccessor (property : String) {e : Encoding} {s t u : Text} (hs : e.epoch = .text s)
    (ht : e.timeUnit = .text t) (hu : e.semanticType = .text u) :
    (metaAccessor property e).IsLineOf names
      [("        return \x7b", "epoch"), (": ", s), (", ", "time_unit"), (": ", t),
        (", ", "semantic_type"), (": ", u), ("\x7d.get(meta, ", "")] ")" := by
  refine isLineOf_row names ?_ (by simp only [List.all_cons, List.all_nil]; decide) rfl
  have hlabels : Text.quoted "epoch" = "'epoch'" ∧ Text.quoted "time_unit" = "'time_unit'" ∧
      Text.quoted "semantic_type" = "'semantic_type'" ∧ Text.quoted "" = "''" := by decide
  obtain ⟨hepoch, hunit, htype, hempty⟩ := hlabels
  rw [metaAccessor, hs, ht, hu]
  simp only [row, List.foldr_cons, List.foldr_nil, hepoch, hunit, htype, hempty]
  simp only [Method.static, Stmt.blockLines, Stmt.lines, Expr.send, Expr.text, Expr.texts, Expr.entryTexts,
    text_shown, commas]
  refine congrArg (fun line => [line]) (String.toList_injective ?_)
  simp [indent]

/-! ## Constants -/

theorem unencodableFrom_plain (isByte : CodePoint → Bool) {t : Text} (h : t.isPlain = true) (start : Nat) :
    Text.unencodableFrom isByte start t = none := by
  induction t generalizing start with
  | nil => rfl
  | cons p t ih =>
    simp only [Text.isPlain, List.all_cons, Bool.and_eq_true, Bool.not_eq_true'] at h
    rw [Text.unencodableFrom, h.1]
    simpa using ih h.2 (start + 1)

/-- A constant of characters is the bytes of its text. -/
theorem constantValue_char {t : Text} (h : t.isPlain = true) :
    constantValue .char t = .ok (.bytes t.utf8) := by
  have hencode : t.encode = .ok t.utf8 := by
    rw [Text.encode, Text.unencodable?, unencodableFrom_plain _ h]
  rw [constantValue, if_pos rfl, hencode]
  rfl

/-- What it means that the texts of a schema are read back from the source, given the names of
characters. -/
structure ReadsBack (names : List Char → Option Nat) : Prop where
  /-- A constant of characters is printable ASCII, and it is the literal of the bytes of its text. -/
  constant : ∀ t : Text, t.isPlain = true → ∃ value, constantValue .char t = .ok value ∧
    (∀ c ∈ value.text.toList, IsAscii c) ∧ read? names value.text.toList = some (.bytes t.utf8, [])
  /-- Quoted text holds no controls, so no ends of lines, and is the literal of the text, whatever other
  characters it shows as they are. -/
  quoted : ∀ (shows : Char → Bool) (t : Text), (∀ c ∈ Text.quotedCharsBy shows t, Text.isControl c = false) ∧
    read? names (Text.quotedCharsBy shows t) = some (.text t, [])
  /-- The accessor of the meaning of an attribute returns a dictionary of the literals of its texts. -/
  meaning : ∀ (property : String) (e : Encoding) (s t u : Text), e.epoch = .text s → e.timeUnit = .text t →
    e.semanticType = .text u → (metaAccessor property e).IsLineOf names
      [("        return \x7b", "epoch"), (": ", s), (", ", "time_unit"), (": ", t),
        (", ", "semantic_type"), (": ", u), ("\x7d.get(meta, ", "")] ")"
  characterEncoding : ∀ (property : String) (e : Encoding) (t : Text), e.characterEncoding = .text t →
    (characterEncodingAccessor property e).IsLineOf names [("        return ", t)] ""
  semanticType : ∀ (e : Edition) (p : Plan) (token : Token) (methods : List Method) (t : Text),
    p.kind = .message → p.token = some token → token.encoding.semanticType = .text t →
    p.numberMethods e = some methods →
    ∃ m ∈ methods, m.name = "sbe_semantic_type" ∧ m.IsLineOf names [("        return ", t)] ""
  /-- Different texts are different constants. -/
  constant_inj : ∀ (s t : Text) (a b : Expr), s.isPlain = true → t.isPlain = true →
    constantValue .char s = .ok a → constantValue .char t = .ok b → a.text = b.text → s = t
  /-- Different texts are quoted differently. -/
  quoted_inj : ∀ (shows : Char → Bool) (s t : Text),
    Text.quotedCharsBy shows s = Text.quotedCharsBy shows t → s = t

theorem read?_constant (t : Text) :
    read? names (Expr.bytes t.utf8).text.toList = some (.bytes t.utf8, []) := by
  have hread : read? names ((Text.quotedBytes t.utf8).toList ++ []) = _ :=
    read?_quotedBytes names t.utf8 (by simp)
  rwa [List.append_nil] at hread

theorem read?_quotedCharsBy_end (shows : Char → Bool) (t : Text) :
    read? names (Text.quotedCharsBy shows t) = some (.text t, []) := by
  have hread : read? names (Text.quotedCharsBy shows t ++ []) = _ :=
    read?_quotedCharsBy names shows t (by simp)
  rwa [List.append_nil] at hread

/-- **The texts of a schema are read back from the generated source as they are in the schema.** -/
theorem texts_read_back : ReadsBack names where
  constant t h :=
    ⟨.bytes t.utf8, constantValue_char h, Text.isAscii_of_mem_quotedBytes t.utf8, read?_constant names t⟩
  quoted shows t :=
    ⟨Text.isControl_of_mem_quotedCharsBy shows t, read?_quotedCharsBy_end names shows t⟩
  meaning property e s t u hs ht hu := isLineOf_metaAccessor names property hs ht hu
  characterEncoding property e t ht := by
    rw [characterEncodingAccessor, ht]
    exact isLineOf_static names _ [] t
  semanticType e p token methods t hkind htoken ht hmethods := by
    rw [Plan.numberMethods, hkind, htoken] at hmethods
    obtain rfl := Option.some.inj hmethods
    refine ⟨.static "sbe_semantic_type" [] (shown token.encoding.semanticType), by simp, rfl, ?_⟩
    rw [ht]
    exact isLineOf_static names _ [] t
  constant_inj s t a b hs ht ha hb hab := by
    -- Equal literals are read as equal bytes, and texts are told apart by their bytes.
    rw [constantValue_char hs] at ha
    rw [constantValue_char ht] at hb
    obtain rfl := Except.ok.inj ha
    obtain rfl := Except.ok.inj hb
    have hreads := read?_constant names s
    rw [hab, read?_constant names t] at hreads
    refine Text.utf8_inj hs ht ?_
    simpa using hreads.symm
  quoted_inj shows s t hst := by
    have hreads := read?_quotedCharsBy_end names shows s
    rw [hst, read?_quotedCharsBy_end] at hreads
    simpa using hreads.symm

/-- The encoding of a price, with quotes, a backslash, a line feed and half of a surrogate pair in its
texts. -/
def priceEncoding : Encoding :=
  { epoch := .text "it's", timeUnit := .text "a\\ \"\n", semanticType := .text [.half 0] }

theorem priceEncoding_reads_back :
    (∃ value, constantValue .char (Text.ofString "5 €") = .ok value ∧ (∀ c ∈ value.text.toList, IsAscii c) ∧
      read? (fun _ => none) value.text.toList = some (.bytes [0x35, 0x20, 0xe2, 0x82, 0xac], [])) ∧
    (metaAccessor "price" priceEncoding).IsLineOf (fun _ => none)
      [("        return \x7b", "epoch"), (": ", "it's"), (", ", "time_unit"), (": ", "a\\ \"\n"),
        (", ", "semantic_type"), (": ", [.half 0]), ("\x7d.get(meta, ", "")] ")" := by
  have hreads := texts_read_back fun _ => none
  constructor
  · have hbytes : (Text.ofString "5 €").utf8 = [0x35, 0x20, 0xe2, 0x82, 0xac] := by decide
    rw [← hbytes]
    exact hreads.constant _ (by decide)
  · exact hreads.meaning "price" priceEncoding _ _ _ rfl rfl rfl

end Codec

end SimpleBinary
