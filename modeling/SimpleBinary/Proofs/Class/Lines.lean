import SimpleBinary.Proofs.Class.Literals

/-!
The lines of emitted source.

Source is printed line by line, and a line must not end before its time. The values of the schema are
lines by themselves, so what matters are the identifiers and texts in the tree: where all of them are lines
(`Expr.OnLine` and its companions), so is what is printed of a class, its sentence left aside
(`ClassDef.isLine_of_mem_bodyLines`).

Inside a class all lines are indented or empty (`ClassDef.isInside_of_mem_bodyLines`). Only what follows an
enumeration is not.
-/

set_option autoImplicit false

namespace SimpleBinary

@[simp] theorem isLine_toString {s : String} : IsLine (toString s) ↔ IsLine s :=
  Iff.rfl

namespace Code

/-! ## Trees of lines -/

mutual

/-- Whether the identifiers and texts in an expression are lines. -/
@[simp] def Expr.OnLine : Expr → Prop
  | .name identifier => IsLine identifier
  | .member value identifier => value.OnLine ∧ IsLine identifier
  | .item value index => value.OnLine ∧ index.OnLine
  | .call function arguments => function.OnLine ∧ AllOnLine arguments
  | .spread value => value.OnLine
  | .int _ | .number _ | .datum _ | .bytes _ | .format _ => True
  | .label text | .words text => IsLine text
  | .template pieces => PiecesOnLine pieces
  | .list items => AllOnLine items
  | .tuple items => AllOnLine items
  | .dict entries => EntriesOnLine entries
  | .binary _ left right => left.OnLine ∧ right.OnLine
  | .choose test yes no => test.OnLine ∧ yes.OnLine ∧ no.OnLine
  | .each value targets source none => value.OnLine ∧ (∀ target ∈ targets, IsLine target) ∧ source.OnLine
  | .each value targets source (some test) =>
    value.OnLine ∧ (∀ target ∈ targets, IsLine target) ∧ source.OnLine ∧ test.OnLine

/-- Whether the identifiers and texts in several expressions are lines. -/
@[simp] def Expr.AllOnLine : List Expr → Prop
  | [] => True
  | e :: rest => e.OnLine ∧ AllOnLine rest

/-- Whether the identifiers and texts in the entries of a dictionary are lines. -/
@[simp] def Expr.EntriesOnLine : List (Expr × Expr) → Prop
  | [] => True
  | (key, value) :: rest => key.OnLine ∧ value.OnLine ∧ EntriesOnLine rest

/-- Whether the identifiers and texts in the pieces of a template are lines. -/
@[simp] def Expr.PiecesOnLine : List Piece → Prop
  | [] => True
  | .text text :: rest => IsLine text ∧ PiecesOnLine rest
  | .value value :: rest => value.OnLine ∧ PiecesOnLine rest
  | .spelling value :: rest => value.OnLine ∧ PiecesOnLine rest

end

mutual

/-- Whether the identifiers and texts in a statement are lines. -/
@[simp] def Stmt.OnLine : Stmt → Prop
  | .run value => value.OnLine
  | .assign target value => target.OnLine ∧ value.OnLine
  | .unpack targets function arguments =>
    Expr.AllOnLine targets ∧ function.OnLine ∧ Expr.AllOnLine arguments
  | .update target _ value => target.OnLine ∧ value.OnLine
  | .raise value => value.OnLine
  | .give none => True
  | .give (some value) => value.OnLine
  | .remark text => IsLine text
  | .branch test yes no => test.OnLine ∧ Stmt.AllOnLine yes ∧ Stmt.AllOnLine no
  | .loop targets source body =>
    (∀ target ∈ targets, IsLine target) ∧ source.OnLine ∧ Stmt.AllOnLine body

/-- Whether the identifiers and texts in several statements are lines. -/
@[simp] def Stmt.AllOnLine : List Stmt → Prop
  | [] => True
  | s :: rest => s.OnLine ∧ Stmt.AllOnLine rest

end

/-- Whether the identifiers and texts in a method are lines. -/
structure Method.OnLine (m : Method) : Prop where
  decorators : Expr.AllOnLine m.decorators
  name : IsLine m.name
  params : ∀ p ∈ m.params, IsLine p.name ∧ ∀ value, p.default = some value → value.OnLine
  body : Stmt.AllOnLine m.body

/-- Whether the identifiers and texts in a class are lines, its sentence left aside. -/
structure ClassDef.OnLine (c : ClassDef) : Prop where
  name : IsLine c.name
  base : ∀ base ∈ c.base, IsLine base
  constants : Stmt.AllOnLine c.constants
  methods : ∀ m ∈ c.methods, m.OnLine
  trailer : Stmt.AllOnLine c.trailer

namespace Expr

section

variable {value : Expr} {identifier : String} {arguments : List Expr}

@[simp] theorem onLine_self : self.OnLine :=
  (by decide : IsLine "self")

@[simp] theorem onLine_own : (own identifier).OnLine ↔ IsLine identifier := by
  simp [own]

@[simp] theorem onLine_count (n : Int) : (count n).OnLine :=
  trivial

@[simp] theorem onLine_apply :
    (apply identifier arguments).OnLine ↔ IsLine identifier ∧ AllOnLine arguments := by
  simp [apply]

@[simp] theorem onLine_send : (send value identifier arguments).OnLine ↔
    (value.OnLine ∧ IsLine identifier) ∧ AllOnLine arguments := by
  simp [send]

@[simp] theorem onLine_length : value.length.OnLine ↔ value.OnLine := by
  simp +decide [length]

end

end Expr

theorem Expr.allOnLine_iff {es : List Expr} : AllOnLine es ↔ ∀ e ∈ es, e.OnLine := by
  induction es with
  | nil => simp
  | cons e rest ih => simp [ih]

theorem Expr.entriesOnLine_iff {entries : List (Expr × Expr)} :
    EntriesOnLine entries ↔ ∀ entry ∈ entries, entry.1.OnLine ∧ entry.2.OnLine := by
  induction entries with
  | nil => simp
  | cons entry rest ih => simp [ih, and_assoc]

theorem Stmt.allOnLine_iff {ss : List Stmt} : Stmt.AllOnLine ss ↔ ∀ s ∈ ss, s.OnLine := by
  induction ss with
  | nil => simp
  | cons s rest ih => simp [ih]

theorem Stmt.allOnLine_append {a b : List Stmt} :
    Stmt.AllOnLine (a ++ b) ↔ Stmt.AllOnLine a ∧ Stmt.AllOnLine b := by
  simp only [allOnLine_iff, List.forall_mem_append]

theorem Expr.piecesOnLine_append {a b : List Piece} :
    PiecesOnLine (a ++ b) ↔ PiecesOnLine a ∧ PiecesOnLine b := by
  induction a with
  | nil => simp
  | cons piece rest ih => cases piece <;> simp [ih, and_assoc]

/-! ## Printed lines -/

theorem Stmt.exists_of_mem_blockLines {ss : List Stmt} {depth : Nat} {line : String}
    (h : line ∈ Stmt.blockLines depth ss) : ∃ s ∈ ss, line ∈ s.lines depth := by
  induction ss with
  | nil => cases h
  | cons s rest ih =>
    rcases List.mem_append.mp h with h | h
    · exact ⟨s, List.mem_cons_self .., h⟩
    · obtain ⟨s, hs, hline⟩ := ih h
      exact ⟨s, List.mem_cons_of_mem _ hs, hline⟩

theorem isLine_indent (depth : Nat) : IsLine (indent depth) := by
  refine isLine_ofList.mpr fun h => ?_
  exact absurd (List.eq_of_mem_replicate h) (by decide)

theorem isLine_sign (operator : Operator) : IsLine operator.sign := by
  cases operator <;> decide

mutual

/-- An expression of lines is printed on one line. -/
theorem Expr.isLine_text : ∀ {e : Expr}, e.OnLine → IsLine e.text
  | .name identifier, h => by simpa [text] using h
  | .member value identifier, h => by
    simp only [OnLine] at h
    simp +decide [text, isLine_text h.1, h.2]
  | .item value index, h => by
    simp only [OnLine] at h
    simp +decide [text, isLine_text h.1, isLine_text h.2]
  | .call function arguments, h => by
    simp only [OnLine] at h
    simp +decide [text, isLine_text h.1, isLine_commas (isLine_texts h.2)]
  | .spread value, h => by
    simp only [OnLine] at h
    simp +decide [text, isLine_text h]
  | .int value, _ => by simp [text]
  | .number value, _ => by simp [text]
  | .datum value, _ => by
    rw [text]
    cases hvalue : value.spelling? with
    | none => decide
    | some s => exact Datum.isLine_of_spelling? hvalue
  | .bytes value, _ => by simp [text]
  | .format packed, _ => by simp +decide [text, packed.isLine_text]
  | .label t, h => by
    simp only [OnLine] at h
    simp +decide [text, h]
  | .words t, h => by
    simp only [OnLine] at h
    simp +decide [text, h]
  | .template pieces, h => by
    simp only [OnLine] at h
    simp +decide [text, isLine_pieceTexts h]
  | .list items, h => by
    simp only [OnLine] at h
    simp +decide [text, isLine_commas (isLine_texts h)]
  | .tuple [], _ => (by decide : IsLine "()")
  | .tuple [only], h => by
    simp only [OnLine, AllOnLine] at h
    simp +decide [text, isLine_text h.1]
  | .tuple (first :: second :: rest), h => by
    simp only [OnLine] at h
    simp +decide [text, isLine_commas (isLine_texts h)]
  | .dict entries, h => by
    simp only [OnLine] at h
    simp +decide [text, isLine_commas (isLine_entryTexts h)]
  | .binary operator left right, h => by
    simp only [OnLine] at h
    simp +decide [text, isLine_text h.1, isLine_text h.2, isLine_sign]
  | .choose test yes no, h => by
    simp only [OnLine] at h
    simp +decide [text, isLine_text h.1, isLine_text h.2.1, isLine_text h.2.2]
  | .each value targets source none, h => by
    simp only [OnLine] at h
    simp +decide [text, isLine_text h.1, isLine_commas h.2.1, isLine_text h.2.2]
  | .each value targets source (some test), h => by
    simp only [OnLine] at h
    simp +decide [text, isLine_text h.1, isLine_commas h.2.1, isLine_text h.2.2.1, isLine_text h.2.2.2]

theorem Expr.isLine_texts : ∀ {es : List Expr}, AllOnLine es → ∀ t ∈ texts es, IsLine t
  | [], _ => by simp [texts]
  | e :: rest, h => by
    simp only [AllOnLine] at h
    rw [texts]
    exact List.forall_mem_cons.mpr ⟨isLine_text h.1, isLine_texts h.2⟩

theorem Expr.isLine_entryTexts : ∀ {entries : List (Expr × Expr)}, EntriesOnLine entries →
    ∀ t ∈ entryTexts entries, IsLine t
  | [], _ => by simp [entryTexts]
  | (key, value) :: rest, h => by
    simp only [EntriesOnLine] at h
    rw [entryTexts]
    refine List.forall_mem_cons.mpr ⟨?_, isLine_entryTexts h.2.2⟩
    simp +decide [isLine_text h.1, isLine_text h.2.1]

theorem Expr.isLine_pieceTexts : ∀ {pieces : List Piece}, PiecesOnLine pieces → IsLine (pieceTexts pieces)
  | [], _ => (by decide : IsLine "")
  | .text t :: rest, h => by
    simp only [PiecesOnLine] at h
    simp [pieceTexts, h.1, isLine_pieceTexts h.2]
  | .value value :: rest, h => by
    simp only [PiecesOnLine] at h
    simp +decide [pieceTexts, isLine_text h.1, isLine_pieceTexts h.2]
  | .spelling value :: rest, h => by
    simp only [PiecesOnLine] at h
    simp +decide [pieceTexts, isLine_text h.1, isLine_pieceTexts h.2]

end

theorem Expr.isLine_of_mem_map {es : List Expr} (h : AllOnLine es) : ∀ t ∈ es.map text, IsLine t := by
  intro t ht
  obtain ⟨e, he, rfl⟩ := List.mem_map.mp ht
  exact isLine_text (allOnLine_iff.mp h e he)

mutual

/-- A statement of lines is printed on lines. -/
theorem Stmt.isLine_of_mem_lines : ∀ {s : Stmt} (depth : Nat), s.OnLine → ∀ line ∈ s.lines depth, IsLine line
  | .run value, depth, h => by
    simp only [OnLine] at h
    simp [lines, isLine_indent, Expr.isLine_text h]
  | .assign target value, depth, h => by
    simp only [OnLine] at h
    simp +decide [lines, isLine_indent, Expr.isLine_text h.1, Expr.isLine_text h.2]
  | .unpack [target] function arguments, depth, h => by
    simp only [OnLine, Expr.AllOnLine] at h
    have hcall : (Expr.call function arguments).OnLine := by simpa using h.2
    simp +decide [lines, isLine_indent, Expr.isLine_text h.1.1, Expr.isLine_text hcall]
  | .unpack [] function arguments, depth, h
  | .unpack (_ :: _ :: _) function arguments, depth, h => by
    rw [OnLine] at h
    -- A call with other than one target has its arguments on a line of their own.
    have htargets := isLine_commas (Expr.isLine_of_mem_map h.1)
    have harguments := isLine_commas (Expr.isLine_of_mem_map h.2.2)
    rw [lines]
    · refine List.forall_mem_cons.mpr ⟨?_, List.forall_mem_singleton.mpr ?_⟩
      · simp only [isLine_append]
        exact ⟨⟨⟨⟨isLine_indent _, htargets⟩, by decide⟩, Expr.isLine_text h.2.1⟩, by decide⟩
      · simp only [isLine_append]
        exact ⟨⟨isLine_indent _, harguments⟩, by decide⟩
    · simp
  | .update target operator value, depth, h => by
    simp only [OnLine] at h
    simp +decide [lines, isLine_indent, isLine_sign, Expr.isLine_text h.1, Expr.isLine_text h.2]
  | .raise value, depth, h => by
    simp only [OnLine] at h
    simp +decide [lines, isLine_indent, Expr.isLine_text h]
  | .give none, depth, _ => by simp +decide [lines, isLine_indent]
  | .give (some value), depth, h => by
    simp only [OnLine] at h
    simp +decide [lines, isLine_indent, Expr.isLine_text h]
  | .remark text, depth, h => by
    simp only [OnLine] at h
    simp +decide [lines, isLine_indent, h]
  | .branch test yes [], depth, h => by
    simp only [OnLine] at h
    rw [lines]
    refine List.forall_mem_cons.mpr ⟨?_, isLine_of_mem_blockLines (depth + 1) h.2.1⟩
    simp +decide [isLine_indent, Expr.isLine_text h.1]
  | .branch test yes (no :: others), depth, h => by
    simp only [OnLine, AllOnLine] at h
    rw [lines]
    refine List.forall_mem_cons.mpr ⟨?_, List.forall_mem_append.mpr
      ⟨isLine_of_mem_blockLines (depth + 1) h.2.1, List.forall_mem_cons.mpr ⟨?_, List.forall_mem_append.mpr
        ⟨isLine_of_mem_lines (depth + 1) h.2.2.1, isLine_of_mem_blockLines (depth + 1) h.2.2.2⟩⟩⟩⟩
    · simp +decide [isLine_indent, Expr.isLine_text h.1]
    · simp +decide [isLine_indent]
  | .loop targets source body, depth, h => by
    simp only [OnLine] at h
    rw [lines]
    refine List.forall_mem_cons.mpr ⟨?_, isLine_of_mem_blockLines (depth + 1) h.2.2⟩
    simp +decide [isLine_indent, isLine_commas h.1, Expr.isLine_text h.2.1]

theorem Stmt.isLine_of_mem_blockLines : ∀ {ss : List Stmt} (depth : Nat), Stmt.AllOnLine ss →
    ∀ line ∈ Stmt.blockLines depth ss, IsLine line
  | [], depth, _ => by simp [blockLines]
  | s :: rest, depth, h => by
    simp only [AllOnLine] at h
    rw [blockLines]
    exact List.forall_mem_append.mpr ⟨isLine_of_mem_lines depth h.1, isLine_of_mem_blockLines depth h.2⟩

end

/-- A method of lines is printed on lines. -/
theorem Method.isLine_of_mem_lines {m : Method} (h : m.OnLine) : ∀ line ∈ m.lines, IsLine line := by
  have hparams : ∀ text ∈ m.params.map Param.text, IsLine text := by
    intro text htext
    obtain ⟨p, hp, rfl⟩ := List.mem_map.mp htext
    obtain ⟨hname, hdefault⟩ := h.params p hp
    unfold Param.text
    split
    · rename_i value hvalue
      simp +decide [hname, Expr.isLine_text (hdefault value hvalue)]
    · exact hname
  refine List.forall_mem_cons.mpr ⟨by decide, List.forall_mem_append.mpr
    ⟨?_, List.forall_mem_cons.mpr ⟨?_, ?_⟩⟩⟩
  · intro line hline
    obtain ⟨d, hd, rfl⟩ := List.mem_map.mp hline
    simp +decide [Expr.isLine_text (Expr.allOnLine_iff.mp h.decorators d hd)]
  · simp +decide [h.name, isLine_commas hparams]
  · split
    · simp +decide
    · exact Stmt.isLine_of_mem_blockLines 2 h.body

namespace ClassDef

theorem isLine_headLine {c : ClassDef} (h : c.OnLine) : IsLine c.headLine := by
  unfold headLine
  split
  · rename_i base hbase
    simp +decide [h.name, h.base base hbase]
  · simp +decide [h.name]

/-- A class of lines is printed on lines. -/
theorem isLine_of_mem_bodyLines {c : ClassDef} (h : c.OnLine) : ∀ line ∈ c.bodyLines, IsLine line := by
  refine List.forall_mem_append.mpr ⟨List.forall_mem_append.mpr ⟨?_, ?_⟩, ?_⟩
  · split
    · simp
    · exact List.forall_mem_cons.mpr ⟨by decide, Stmt.isLine_of_mem_blockLines 1 h.constants⟩
  · intro line hline
    obtain ⟨m, hm, hline⟩ := List.mem_flatMap.mp hline
    exact Method.isLine_of_mem_lines (h.methods m hm) line hline
  · split
    · simp
    · exact List.forall_mem_cons.mpr ⟨by decide, List.forall_mem_cons.mpr
        ⟨by decide, Stmt.isLine_of_mem_blockLines 0 h.trailer⟩⟩

end ClassDef

/-! ## How lines begin -/

theorem head?_indent (depth : Nat) (t : String) : (indent (depth + 1) ++ t).toList.head? = some ' ' := by
  rw [indent, String.toList_append, String.toList_ofList, Nat.mul_succ, List.replicate_succ]
  rfl

mutual

/-- The lines of a statement that belongs to something are indented. -/
theorem Stmt.head?_of_mem_lines : ∀ (s : Stmt) (depth : Nat), ∀ line ∈ s.lines (depth + 1),
    line.toList.head? = some ' '
  | .run _, depth | .assign _ _, depth | .unpack [_] _ _, depth | .update _ _ _, depth | .raise _, depth
  | .give none, depth | .give (some _), depth | .remark _, depth => by
    simp only [lines, String.append_assoc]
    exact List.forall_mem_singleton.mpr (head?_indent depth _)
  | .unpack [] _ _, depth | .unpack (_ :: _ :: _) _ _, depth => by
    rw [lines]
    · simp only [String.append_assoc]
      exact List.forall_mem_cons.mpr
        ⟨head?_indent depth _, List.forall_mem_singleton.mpr (head?_indent (depth + 1) _)⟩
    · simp
  | .branch _ yes [], depth => by
    simp only [lines, String.append_assoc]
    exact List.forall_mem_cons.mpr ⟨head?_indent depth _, head?_of_mem_blockLines yes (depth + 1)⟩
  | .branch _ yes (no :: others), depth => by
    simp only [lines, String.append_assoc]
    exact List.forall_mem_cons.mpr ⟨head?_indent depth _, List.forall_mem_append.mpr
      ⟨head?_of_mem_blockLines yes (depth + 1), List.forall_mem_cons.mpr
        ⟨head?_indent depth _, List.forall_mem_append.mpr
          ⟨head?_of_mem_lines no (depth + 1), head?_of_mem_blockLines others (depth + 1)⟩⟩⟩⟩
  | .loop _ _ body, depth => by
    simp only [lines, String.append_assoc]
    exact List.forall_mem_cons.mpr ⟨head?_indent depth _, head?_of_mem_blockLines body (depth + 1)⟩

theorem Stmt.head?_of_mem_blockLines : ∀ (ss : List Stmt) (depth : Nat),
    ∀ line ∈ Stmt.blockLines (depth + 1) ss, line.toList.head? = some ' '
  | [], depth => by simp [blockLines]
  | s :: rest, depth => by
    rw [blockLines]
    exact List.forall_mem_append.mpr ⟨head?_of_mem_lines s depth, head?_of_mem_blockLines rest depth⟩

end

/-- Whether a line is empty or indented. -/
def IsInside (line : String) : Prop :=
  line = "" ∨ line.toList.head? = some ' '

theorem Method.isInside_of_mem_lines (m : Method) : ∀ line ∈ m.lines, IsInside line := by
  refine List.forall_mem_cons.mpr ⟨.inl rfl, List.forall_mem_append.mpr
    ⟨?_, List.forall_mem_cons.mpr ⟨?_, ?_⟩⟩⟩
  · intro line hline
    obtain ⟨d, -, rfl⟩ := List.mem_map.mp hline
    refine .inr ?_
    rw [String.append_assoc]
    exact head?_indent 0 _
  · refine .inr ?_
    simp only [String.append_assoc]
    exact head?_indent 0 _
  · intro line hline
    split at hline
    · rw [List.mem_singleton.mp hline]
      exact .inr (head?_indent 1 _)
    · exact .inr (Stmt.head?_of_mem_blockLines m.body 1 line hline)

/-- **Inside a class every line is empty or indented**, unless it is of what follows the class. -/
theorem ClassDef.isInside_of_mem_bodyLines {c : ClassDef} : ∀ line ∈ c.bodyLines,
    IsInside line ∨ line ∈ Stmt.blockLines 0 c.trailer := by
  refine List.forall_mem_append.mpr ⟨List.forall_mem_append.mpr ⟨?_, ?_⟩, ?_⟩
  · intro line hline
    split at hline
    · cases hline
    · rcases List.mem_cons.mp hline with rfl | hline
      · exact .inl (.inl rfl)
      · exact .inl (.inr (Stmt.head?_of_mem_blockLines c.constants 0 line hline))
  · intro line hline
    obtain ⟨m, -, hline⟩ := List.mem_flatMap.mp hline
    exact .inl (m.isInside_of_mem_lines line hline)
  · intro line hline
    split at hline
    · cases hline
    · rcases List.mem_cons.mp hline with rfl | hline
      · exact .inl (.inl rfl)
      · rcases List.mem_cons.mp hline with rfl | hline
        · exact .inl (.inl rfl)
        · exact .inr hline

end Code

end SimpleBinary
