import SimpleBinary.Document.Yaml.Lexeme
import SimpleBinary.Document.Yaml.Plain

/-!
The nodes of a YAML document, from its lexemes.

The reader goes down the grammar of nodes and numbers them as they begin. An anchor names the node it
stands before and a reference gives that node's number, so a node can be a part of several, and even
of itself. What the nodes stand for is found out when the whole document has been read.
-/

set_option autoImplicit false

namespace SimpleBinary.Yaml

/-- A node, with the numbers of the nodes that it is made of. -/
inductive Node
  | scalar (tag : Tag) (text : Text)
  | sequence (tag : Tag) (items : List Nat)
  | mapping (tag : Tag) (entries : List (Nat × Nat))

/-- What a node stands for. -/
def Node.tag : Node → Tag
  | .scalar tag _ | .sequence tag _ | .mapping tag _ => tag

/-- Whether a node is a mapping. -/
def Node.isMapping : Node → Bool
  | .mapping _ _ => true
  | _ => false

/-- The nodes of a document by their numbers, and the number of the outermost one. -/
structure Graph where
  nodes : Array Node
  root : Nat

/-- The lexemes that are left and the fault after them, the handles of tags, the number of collections
around the current place, the names of the nodes so far, and the nodes. -/
structure Reading where
  rest : List Lexeme
  ending : Option Fault
  handles : List (String × String) := standardHandles
  depth : Nat := 0
  anchors : List (String × Nat) := []
  nodes : Array Node := #[]

/-- A reader of lexemes. -/
abbrev Reader := StateT Reading (Except Fault)

namespace Reader

/-- The next lexeme. Where the text goes wrong before it, that is the fault. -/
def peek : Reader (Option Lexeme) := do
  let r ← get
  match r.rest, r.ending with
  | [], some fault => throw fault
  | rest, _ => return rest.head?

/-- Passes over the next lexeme. -/
def skip : Reader Unit :=
  modify fun r => { r with rest := r.rest.tail }

/-- Fails: the text is no YAML document. -/
def refuse {α : Type} : Reader α :=
  throw .notYaml

/-- The node of a name. -/
def reference (name : String) : Reader Nat := do
  match (← get).anchors.lookup name with
  | some id => return id
  | none => refuse

/-- Names the node that begins next; a name can be given once. -/
def declare (name : String) : Reader Unit := do
  if ((← get).anchors.lookup name).isSome then refuse
  modify fun r => { r with anchors := (name, r.nodes.size) :: r.anchors }

/-- Begins a node, which may have a name. -/
def add (anchor : Option String) (node : Node) : Reader Nat := do
  if let some name := anchor then declare name
  modifyGet fun r => (r.nodes.size, { r with nodes := r.nodes.push node })

/-- Completes a node. -/
def complete (id : Nat) (node : Node) : Reader Unit :=
  modify fun r => { r with nodes := r.nodes.setIfInBounds id node }

/-- How many collections may stand inside one another. -/
def nestingLimit : Nat := 488

/-- Reads what is in a collection. -/
def nested {α : Type} (inner : Reader α) : Reader α := do
  if nestingLimit ≤ (← get).depth then throw .endless
  modify fun r => { r with depth := r.depth + 1 }
  let result ← inner
  modify fun r => { r with depth := r.depth - 1 }
  return result

/-- The name that a tag stands for. -/
def nameOf (written : WrittenTag) : Reader String := do
  match written.handle with
  | none => return written.rest
  | some handle =>
    match (← get).handles.lookup handle with
    | some start => return start ++ written.rest
    | none => refuse

end Reader

open Reader

/-- What stands before a node: its anchor and the name of its tag. -/
structure Properties where
  anchor : Option String := none
  tagName : Option String := none

namespace Properties

/-- Whether a node has no properties. -/
def isEmpty (p : Properties) : Bool :=
  p.anchor.isNone && p.tagName.isNone

/-- The tag of a node: the one written, or else the one that its form gives. A lone exclamation mark
stands for the latter. -/
def tagOr (p : Properties) (byForm : Tag) : Tag :=
  match p.tagName with
  | none | some "!" => byForm
  | some name => .ofName name

/-- The tag of a scalar. The form of a text in quotes does not count without the mark. -/
def scalarTag (p : Properties) (text : Text) (plain : Bool) : Tag :=
  if plain || p.tagName.isSome then p.tagOr (Plain.tagOf text) else .text

/-- The properties before a node, in either order. -/
def read : Reader Properties := do
  match ← peek with
  | some (.anchor name) =>
    skip
    match ← peek with
    | some (.tag written) =>
      skip
      return { anchor := some name, tagName := some (← nameOf written) }
    | _ => return { anchor := some name }
  | some (.tag written) =>
    skip
    match ← peek with
    | some (.anchor name) =>
      skip
      return { anchor := some name, tagName := some (← nameOf written) }
    | _ => return { tagName := some (← nameOf written) }
  | _ => return {}

end Properties

/-- A scalar. -/
def scalar (p : Properties) (text : Text) (plain : Bool) : Reader Nat :=
  add p.anchor (.scalar (p.scalarTag text plain) text)

/-- The scalar that stands where a node is left out. -/
def absent : Reader Nat :=
  scalar {} [] true

/-- A sequence with the items that are read. -/
def sequence (p : Properties) (items : Reader (List Nat)) : Reader Nat := do
  let tag := p.tagOr .sequence
  let id ← add p.anchor (.sequence tag [])
  complete id (.sequence tag (← nested items))
  return id

/-- A mapping with the entries that are read. -/
def mapping (p : Properties) (entries : Reader (List (Nat × Nat))) : Reader Nat := do
  let tag := p.tagOr .mapping
  let id ← add p.anchor (.mapping tag [])
  complete id (.mapping tag (← nested entries))
  return id

/-- Whether a lexeme ends an entry of a block mapping without a node. -/
def endsBlockEntry : Lexeme → Bool
  | .key | .value | .blockEnd => true
  | _ => false

/-- Whether a lexeme ends an item of a block sequence without a node. -/
def endsBlockItem : Lexeme → Bool
  | .blockEntry | .blockEnd => true
  | _ => false

/-- Whether a lexeme ends an item of an unindented block sequence without a node. -/
def endsFlatItem (lexeme : Lexeme) : Bool :=
  endsBlockEntry lexeme || endsBlockItem lexeme

/-- Whether a lexeme ends a value of a flow collection without a node. -/
def endsFlowValue : Lexeme → Bool
  | .flowEntry | .flowSequenceEnd | .flowMappingEnd => true
  | _ => false

/-- Whether a lexeme ends a key of a flow collection without a node. -/
def endsFlowKey : Lexeme → Bool
  | .value => true
  | lexeme => endsFlowValue lexeme

/-- A node, or an absent one where a lexeme comes that ends the place of the node. -/
def nodeUnless (ends : Lexeme → Bool) (node : Reader Nat) : Reader Nat := do
  if (← peek).any ends then absent else node

/-- What comes after a colon, or an absent node where no colon comes. -/
def valueUnless (ends : Lexeme → Bool) (node : Reader Nat) : Reader Nat := do
  match ← peek with
  | some .value =>
    skip
    nodeUnless ends node
  | _ => absent

/-- Passes over the comma before every item but the first. -/
def comma (first : Bool) : Reader Unit := do
  if !first then
    match ← peek with
    | some .flowEntry => skip
    | _ => refuse

mutual

/-- A node. `block` tells whether a block collection may begin, and `flat` whether a block sequence
may begin without indentation. -/
def node : (fuel : Nat) → (block flat : Bool) → Reader Nat
  | 0, _, _ => refuse
  | fuel + 1, block, flat => do
    match ← peek with
    | some (.reference name) =>
      skip
      reference name
    | _ => content fuel block flat (← Properties.read)

/-- A node after its properties. What has any may be empty. -/
def content : (fuel : Nat) → (block flat : Bool) → Properties → Reader Nat
  | 0, _, _, _ => refuse
  | fuel + 1, block, flat, p => do
    match ← peek, block, flat with
    | some .blockEntry, _, true => sequence p (flatItems fuel)
    | some (.scalar text plain), _, _ =>
      skip
      scalar p text plain
    | some .flowSequenceStart, _, _ =>
      skip
      sequence p (flowItems fuel true)
    | some .flowMappingStart, _, _ =>
      skip
      mapping p (flowEntries fuel true)
    | some .blockSequenceStart, true, _ =>
      skip
      sequence p (blockItems fuel)
    | some .blockMappingStart, true, _ =>
      skip
      mapping p (blockEntries fuel)
    | _, _, _ => if p.isEmpty then refuse else scalar p [] true

/-- The items of a block sequence. -/
def blockItems : (fuel : Nat) → Reader (List Nat)
  | 0 => refuse
  | fuel + 1 => do
    match ← peek with
    | some .blockEntry =>
      skip
      let item ← nodeUnless endsBlockItem (node fuel true false)
      return item :: (← blockItems fuel)
    | some .blockEnd =>
      skip
      return []
    | _ => refuse

/-- The items of a block sequence that stands at the column of its key. -/
def flatItems : (fuel : Nat) → Reader (List Nat)
  | 0 => refuse
  | fuel + 1 => do
    match ← peek with
    | some .blockEntry =>
      skip
      let item ← nodeUnless endsFlatItem (node fuel true false)
      return item :: (← flatItems fuel)
    | _ => return []

/-- The entries of a block mapping. -/
def blockEntries : (fuel : Nat) → Reader (List (Nat × Nat))
  | 0 => refuse
  | fuel + 1 => do
    match ← peek with
    | some .key =>
      skip
      let key ← nodeUnless endsBlockEntry (node fuel true true)
      let value ← valueUnless endsBlockEntry (node fuel true true)
      return (key, value) :: (← blockEntries fuel)
    | some .blockEnd =>
      skip
      return []
    | _ => refuse

/-- The items of a flow sequence. An item may be a mapping with one entry and no brackets. -/
def flowItems : (fuel : Nat) → (first : Bool) → Reader (List Nat)
  | 0, _ => refuse
  | fuel + 1, first => do
    match ← peek with
    | some .flowSequenceEnd =>
      skip
      return []
    | _ =>
      comma first
      match ← peek with
      | some .key =>
        skip
        let item ← mapping {} do
          let key ← nodeUnless endsFlowKey (node fuel false false)
          let value ← valueUnless endsFlowValue (node fuel false false)
          return [(key, value)]
        return item :: (← flowItems fuel false)
      | some .flowSequenceEnd =>
        skip
        return []
      | _ =>
        let item ← node fuel false false
        return item :: (← flowItems fuel false)

/-- The entries of a flow mapping. A key may stand alone. -/
def flowEntries : (fuel : Nat) → (first : Bool) → Reader (List (Nat × Nat))
  | 0, _ => refuse
  | fuel + 1, first => do
    match ← peek with
    | some .flowMappingEnd =>
      skip
      return []
    | _ =>
      comma first
      match ← peek with
      | some .key =>
        skip
        let key ← nodeUnless endsFlowKey (node fuel false false)
        let value ← valueUnless endsFlowValue (node fuel false false)
        return (key, value) :: (← flowEntries fuel false)
      | some .flowMappingEnd =>
        skip
        return []
      | _ =>
        let key ← node fuel false false
        let value ← absent
        return (key, value) :: (← flowEntries fuel false)

end

/-- Passes over directives. A version is given at most once, and is 1 before its point; a handle is
given at most once. A handle that is given counts instead of the standard one. -/
def directives : (fuel : Nat) → (versioned : Bool) → (handles : List (String × String)) → Reader Unit
  | 0, _, _ => refuse
  | fuel + 1, versioned, handles => do
    match ← peek with
    | some (.version major) =>
      skip
      if versioned || major ≠ 1 then refuse
      directives fuel true handles
    | some (.tagHandle handle start) =>
      skip
      if (handles.lookup handle).isSome then refuse
      directives fuel versioned ((handle, start) :: handles)
    | some .otherDirective =>
      skip
      directives fuel versioned handles
    | _ => modify fun r => { r with handles := handles ++ standardHandles }

/-- Whether a lexeme is a directive. -/
def isDirective : Lexeme → Bool
  | .version _ | .tagHandle _ _ | .otherDirective => true
  | _ => false

/-- Whether a lexeme begins a document explicitly. -/
def isDocumentStart : Lexeme → Bool
  | .documentStart => true
  | _ => false

/-- Whether a lexeme ends a document explicitly. -/
def isDocumentEnd : Lexeme → Bool
  | .documentEnd => true
  | _ => false

/-- Whether a lexeme ends a document without a node. -/
def endsDocument (lexeme : Lexeme) : Bool :=
  isDirective lexeme || isDocumentStart lexeme || isDocumentEnd lexeme

/-- Passes over the ends of the document. No other document may come after them. If something does, the
fault is the first one up to the lexeme after its directives. -/
def closing : (fuel : Nat) → Reader Unit
  | 0 => refuse
  | fuel + 1 => do
    match ← peek with
    | none => pure ()
    | some .documentEnd =>
      skip
      closing fuel
    | some _ =>
      directives fuel false []
      refuse

/-- The one document of a text; a text without any stands for an absent node. -/
def document (fuel : Nat) : Reader Nat := do
  match ← peek with
  | none => absent
  | some lexeme =>
    let root ←
      if isDirective lexeme || isDocumentStart lexeme then do
        directives fuel false []
        if (← peek).any isDocumentStart then skip else refuse
        if (← peek).isNone then absent else nodeUnless endsDocument (node fuel true false)
      else
        node fuel true false
    closing fuel
    return root

/-- Reads a text as the nodes of a YAML document. A lexeme takes four steps of the grammar at the
most, so the fuel lasts. -/
def Graph.ofText (text : List Char) : Except Fault Graph := do
  let lexemes := Lexemes.ofText text
  let (root, reading) ← (document (4 * lexemes.items.length + 8)).run
    { rest := lexemes.items, ending := lexemes.ending }
  return { nodes := reading.nodes, root }

end SimpleBinary.Yaml
