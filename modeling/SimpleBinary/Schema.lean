import SimpleBinary.Header
import SimpleBinary.Text.Split
import SimpleBinary.Token.Stream

/-!
Schemas: the documents that packages are generated from.

A document names its package, gives the header, and lists the tokens of its types and of its
messages. The package that the user asks for comes before the namespaces in the document, and those
before the package there, whose name is cut at its points.
-/

set_option autoImplicit false

namespace SimpleBinary

/-- A schema. -/
structure Schema extends Edition where
  namespaces : List Text
  types : List (List Token)
  messages : List (List Token)

namespace Schema

/-- The name of the package: the namespaces in small letters, with underscores between them and for
points and spaces. -/
def packageName (s : Schema) : Text :=
  (Text.lower (Text.join "_" s.namespaces)).map fun p =>
    if p = .char '.' || p = .char ' ' then .char '_' else p

/-- The value of a key, if it counts as given. -/
def given? (entries : List (Datum × Datum)) (key : String) : Option Datum :=
  (Datum.find? key entries).filter Datum.isGiven

/-- The namespaces of a document, for a package that may be asked for. -/
def namespacesOf (entries : List (Datum × Datum)) (package : Option String) :
    Except Fault (List Text) :=
  match package.filter (!·.isEmpty), given? entries "namespaces", given? entries "package" with
  | some name, _, _ => .ok [Text.ofString name]
  | none, some names, _ => do (← names.partsOf).mapM Datum.written
  | none, none, some name => do
    return Text.split (.char '.') (← name.written)
  | none, none, none => inconsistent .documentPackage

/-- The token lists under a key. -/
def tokenLists (entries : List (Datum × Datum)) (key : String) :
    Except Fault (List (List Token)) :=
  match given? entries key with
  | none => .ok []
  | some lists => do (← lists.partsOf).mapM Token.listOfDatum

/-- The integer under a key, zero if there is none. -/
def number (entries : List (Datum × Datum)) (key : String) : Except Fault Int :=
  match Datum.find? key entries with
  | none => .ok 0
  | some value => value.toInteger

/-- Whether tokens begin a message. -/
def beginsMessage (tokens : List Token) : Bool :=
  tokens.head?.any fun t => t.signal == .opens .message

/-- The schema of a document. -/
def ofDatum (package : Option String) (d : Datum) : Except Fault Schema :=
  match d.entries? with
  | some entries => do
    let namespaces ← namespacesOf entries package
    match Datum.find? "header" entries with
    | none => inconsistent .documentHeader
    | some header =>
      let header ← Header.ofTokens (← Token.listOfDatum header)
      let types ← tokenLists entries "types"
      let messages ← tokenLists entries "messages"
      if messages.all beginsMessage then
        let id ← number entries "id"
        let version ← number entries "version"
        return { namespaces, id, version, header, types, messages }
      else
        inconsistent .messageStart
  | none => inconsistent .documentKind

end Schema

end SimpleBinary
