import SimpleBinary.Code.Basic

/-!
The text of generated source.

Statements stand four spaces deeper than what they belong to. Before the constants of a class and
before each of its methods there is an empty line, before its trailer and between two classes there
are two. The results of a call that go to several targets are written with the arguments on a line of
their own.

The text is that of a class whose integers can be written, and all of it but the sentence about the
class is made of characters.
-/

set_option autoImplicit false

namespace SimpleBinary.Code

/-- A count; one that is not given is `None`. -/
def countText : Option Int → String
  | some n => toString n
  | none => "None"

/-- Texts with commas between them. -/
def commas (texts : List String) : String :=
  ", ".intercalate texts

mutual

/-- The text of an expression. -/
def Expr.text : Expr → String
  | .name identifier => identifier
  | .member value identifier => value.text ++ "." ++ identifier
  | .item value index => value.text ++ "[" ++ index.text ++ "]"
  | .call function arguments => function.text ++ "(" ++ commas (texts arguments) ++ ")"
  | .spread value => "*" ++ value.text
  | .int value => countText value
  | .number value => value.literal
  | .datum value => value.spelling?.getD ""
  | .bytes value => Text.quotedBytes value
  | .format packed => "'" ++ packed.text ++ "'"
  | .label text => "'" ++ text ++ "'"
  | .words text => "\"" ++ text ++ "\""
  | .template pieces => "f'" ++ pieceTexts pieces ++ "'"
  | .list items => "[" ++ commas (texts items) ++ "]"
  | .tuple [only] => "(" ++ only.text ++ ",)"
  | .tuple items => "(" ++ commas (texts items) ++ ")"
  | .dict entries => "\x7b" ++ commas (entryTexts entries) ++ "\x7d"
  | .binary operator left right => left.text ++ " " ++ operator.sign ++ " " ++ right.text
  | .choose test yes no => yes.text ++ " if " ++ test.text ++ " else " ++ no.text
  | .each value targets source none =>
    value.text ++ " for " ++ commas targets ++ " in " ++ source.text
  | .each value targets source (some test) =>
    value.text ++ " for " ++ commas targets ++ " in " ++ source.text ++ " if " ++ test.text

/-- The texts of several expressions. -/
def Expr.texts : List Expr → List String
  | [] => []
  | e :: rest => e.text :: texts rest

/-- The texts of the entries of a dictionary. -/
def Expr.entryTexts : List (Expr × Expr) → List String
  | [] => []
  | (key, value) :: rest => (key.text ++ ": " ++ value.text) :: entryTexts rest

/-- The text of the pieces of a template. -/
def Expr.pieceTexts : List Piece → String
  | [] => ""
  | .text text :: rest => text ++ pieceTexts rest
  | .value value :: rest => "\x7b" ++ value.text ++ "\x7d" ++ pieceTexts rest
  | .spelling value :: rest => "\x7b" ++ value.text ++ "!r\x7d" ++ pieceTexts rest

end

/-- What stands before a line at a depth. -/
def indent (depth : Nat) : String :=
  String.ofList (List.replicate (4 * depth) ' ')

mutual

/-- The lines of a statement. -/
def Stmt.lines (depth : Nat) : Stmt → List String
  | .run value => [indent depth ++ value.text]
  | .assign target value => [indent depth ++ target.text ++ " = " ++ value.text]
  | .unpack [target] function arguments =>
    [indent depth ++ target.text ++ ", = " ++ (Expr.call function arguments).text]
  | .unpack targets function arguments =>
    [indent depth ++ commas (targets.map Expr.text) ++ " = " ++ function.text ++ "(",
      indent (depth + 1) ++ commas (arguments.map Expr.text) ++ ")"]
  | .update target operator value =>
    [indent depth ++ target.text ++ " " ++ operator.sign ++ "= " ++ value.text]
  | .raise value => [indent depth ++ "raise " ++ value.text]
  | .give none => [indent depth ++ "return"]
  | .give (some value) => [indent depth ++ "return " ++ value.text]
  | .remark text => [indent depth ++ "# " ++ text]
  | .branch test yes [] =>
    (indent depth ++ "if " ++ test.text ++ ":") :: Stmt.blockLines (depth + 1) yes
  | .branch test yes (no :: others) =>
    (indent depth ++ "if " ++ test.text ++ ":") :: Stmt.blockLines (depth + 1) yes ++
      (indent depth ++ "else:") :: (no.lines (depth + 1) ++ Stmt.blockLines (depth + 1) others)
  | .loop targets source body =>
    (indent depth ++ "for " ++ commas targets ++ " in " ++ source.text ++ ":") ::
      Stmt.blockLines (depth + 1) body

/-- The lines of several statements. -/
def Stmt.blockLines (depth : Nat) : List Stmt → List String
  | [] => []
  | s :: rest => s.lines depth ++ Stmt.blockLines depth rest

end

/-- The text of a parameter. -/
def Param.text (p : Param) : String :=
  match p.default with
  | some value => p.name ++ "=" ++ value.text
  | none => p.name

/-- The lines of a method, after an empty one. -/
def Method.lines (m : Method) : List String :=
  "" :: m.decorators.map (fun d => indent 1 ++ "@" ++ d.text) ++
    (indent 1 ++ "def " ++ m.name ++ "(" ++ commas (m.params.map Param.text) ++ "):") ::
      (if m.body.isEmpty then [indent 2 ++ "pass"] else Stmt.blockLines 2 m.body)

namespace ClassDef

/-- The line that a class begins with. -/
def headLine (c : ClassDef) : String :=
  match c.base with
  | some base => "class " ++ c.name ++ "(" ++ base ++ "):"
  | none => "class " ++ c.name ++ ":"

/-- The line that says what a class is. -/
def docLine (c : ClassDef) : Text :=
  indent 1 ++ "\"\"\"" ++ c.doc ++ "\"\"\""

/-- The lines of a class after the first two. -/
def bodyLines (c : ClassDef) : List String :=
  (if c.constants.isEmpty then [] else "" :: Stmt.blockLines 1 c.constants) ++
    c.methods.flatMap Method.lines ++
    (if c.trailer.isEmpty then [] else "" :: "" :: Stmt.blockLines 0 c.trailer)

/-- The text of a class. -/
def text (c : ClassDef) : Text :=
  Text.join "\n" (Text.ofString c.headLine :: c.docLine :: c.bodyLines.map Text.ofString)

end ClassDef

/-- The text of several classes. -/
def classesText (classes : List ClassDef) : Text :=
  Text.join "\n\n\n" (classes.map ClassDef.text)

end SimpleBinary.Code
