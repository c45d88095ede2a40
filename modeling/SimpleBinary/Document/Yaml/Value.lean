import SimpleBinary.Document.Yaml.Members
import SimpleBinary.Document.Yaml.Node

/-!
What a YAML document stands for, from its nodes.

The nodes are gone through in waves: first the outermost one, then its parts, then theirs, each node
once. A scalar gets its value when it is met, and a collection is looked into one wave later. Before
a mapping is looked into, the mappings that it merges are put in front of its own entries, so that
these replace theirs.

When every node is known to stand for something the value is put together from the outside. As long
as no collection is met inside itself that is a tree. The collections that contain themselves, and
those that contain such, are the collections of one knot.
-/

set_option autoImplicit false

namespace SimpleBinary.Yaml

/-- What a node was found to stand for: a value of its own, with the text that it was read from, or a
collection of the values of other nodes. -/
inductive Meaning
  | leaf (value : Datum) (written : Text)
  | list
  | pairs
  | set
  | map

/-- How far a document has been gone through: its nodes, what those that were met stand for, and the
collections to look into next, the last first. -/
structure Survey where
  nodes : Array Node
  meanings : Array (Option Meaning)
  next : List Nat := []

/-- A step through a document. -/
abbrev Surveyor := StateT Survey (Except Fault)

namespace Surveyor

/-- A node. Every number that a node is made of is one. -/
def node (id : Nat) : Surveyor Node := do
  match (← get).nodes[id]? with
  | some node => return node
  | none => throw .notYaml

/-- Replaces a node. -/
def put (id : Nat) (node : Node) : Surveyor Unit :=
  modify fun s => { s with nodes := s.nodes.setIfInBounds id node }

/-- The entries of a mapping. -/
def entries (id : Nat) : Surveyor (List (Nat × Nat)) := do
  match ← node id with
  | .mapping _ entries => return entries
  | _ => throw .notYaml

/-- Replaces the entries of a mapping. -/
def putEntries (id : Nat) (entries : List (Nat × Nat)) : Surveyor Unit := do
  put id (.mapping (← node id).tag entries)

/-! ## Merging -/

/-- The first entry with a key of a tag: the entries before it, its value, and those after it. -/
def splitAtTag (tag : Tag) (nodes : Array Node) :
    List (Nat × Nat) → Option (List (Nat × Nat) × Nat × List (Nat × Nat))
  | [] => none
  | (key, value) :: rest =>
    if nodes[key]?.map Node.tag = some tag then
      some ([], value, rest)
    else
      (splitAtTag tag nodes rest).map fun (front, found, back) => ((key, value) :: front, found, back)

/-- Turns the key of a default value into a text. -/
def nameDefault (key : Nat) : Surveyor Unit := do
  match ← node key with
  | .scalar .default text => put key (.scalar .text text)
  | .sequence .default items => put key (.sequence .text items)
  | .mapping .default entries => put key (.mapping .text entries)
  | _ => pure ()

mutual

/-- Puts the entries of the mappings that a mapping merges in front of its own. Every merge is taken
out before it is followed, so there is fuel enough if there is three times that of the entries. -/
def flatten : (fuel : Nat) → Nat → Surveyor Unit
  | 0, _ => throw .endless
  | fuel + 1, id => do
    let merged ← merges fuel id
    let own ← entries id
    own.forM fun (key, _) => nameDefault key
    putEntries id (merged ++ own)

/-- Takes the merges out of a mapping: the entries that they bring. -/
def merges : (fuel : Nat) → Nat → Surveyor (List (Nat × Nat))
  | 0, _ => throw .endless
  | fuel + 1, id => do
    match splitAtTag .merge (← get).nodes (← entries id) with
    | none => return []
    | some (front, value, back) =>
      putEntries id (front ++ back)
      let brought ← match ← node value with
        | .scalar _ _ => throw .notYaml
        | .mapping _ _ => brings fuel value
        | .sequence _ items => pure (← items.mapM (brings fuel)).reverse.flatten
      return brought ++ (← merges fuel id)

/-- The entries of a mapping that is merged. -/
def brings : (fuel : Nat) → Nat → Surveyor (List (Nat × Nat))
  | 0, _ => throw .endless
  | fuel + 1, id => do
    discard (entries id)
    flatten fuel id
    entries id

end

/-! ## Waves -/

/-- The text of a node that stands for a scalar. For a mapping it is that of its default value. -/
def textOf : (fuel : Nat) → Nat → Surveyor Text
  | 0, _ => throw .endless
  | fuel + 1, id => do
    match ← node id with
    | .scalar _ text => return text
    | .sequence _ _ => throw .notYaml
    | .mapping _ entries =>
      match splitAtTag .default (← get).nodes entries with
      | some (_, value, _) => textOf fuel value
      | none => throw .notYaml

/-- Keeps what a node stands for. -/
def found (id : Nat) (meaning : Meaning) : Surveyor Unit :=
  modify fun s => { s with meanings := s.meanings.setIfInBounds id (some meaning) }

/-- What a node with the tag of a collection stands for. -/
def collection? : Tag → Option Meaning
  | .sequence => some .list
  | .pairs => some .pairs
  | .set => some .set
  | .mapping => some .map
  | _ => none

/-- Meets a node: finds the value of a scalar, and leaves a collection for the next wave. Of a date
the default value does not count. -/
def meet (fuel id : Nat) : Surveyor Unit := do
  match (← get).meanings[id]?.join with
  | some _ => pure ()
  | none =>
    let node ← node id
    match collection? node.tag with
    | some meaning =>
      found id meaning
      modify fun s => { s with next := id :: s.next }
    | none =>
      if [.merge, .default, .other].contains node.tag then throw .notYaml
      let text ← textOf fuel id
      if node.tag = .moment && node.isMapping then throw (.notText .list)
      found id (.leaf (← Plain.valueOf node.tag text) text)

/-- Meets the two nodes of a pair, which is written as a mapping with one entry. -/
def meetPair (fuel id : Nat) : Surveyor Unit := do
  match ← entries id with
  | [(first, second)] =>
    meet fuel first
    meet fuel second
  | _ => throw .notYaml

/-- Meets the nodes of a mapping. No collection can be a key. -/
def meetEntries (fuel id : Nat) : Surveyor Unit := do
  flatten fuel id
  (← entries id).forM fun (key, value) => do
    meet fuel key
    if (← node key).tag.isCollection then throw .notYaml
    meet fuel value

/-- Looks into a collection. -/
def expand (fuel id : Nat) : Surveyor Unit := do
  match ← node id with
  | .sequence .sequence items => items.forM (meet fuel)
  | .sequence .pairs items => items.forM (meetPair fuel)
  | .mapping .mapping _ | .mapping .set _ => meetEntries fuel id
  | _ => throw .notYaml

/-- Wave after wave, as long as there are collections to look into. Each wave meets a node more. -/
def waves (fuel : Nat) : (rounds : Nat) → Surveyor Unit
  | 0 => throw .endless
  | rounds + 1 => do
    match (← get).next with
    | [] => pure ()
    | next =>
      modify fun s => { s with next := [] }
      next.reverse.forM (expand fuel)
      waves fuel rounds

end Surveyor

/-! ## Keys -/

namespace Plain

/-- Whether a text is the mark of what is not a number. -/
def isNaNMark (t : Text) : Bool :=
  match signedDigits t with
  | .ok (_, rest) => rest.lower == Text.ofString ".nan"
  | .error _ => false

end Plain

namespace Survey

/-- The items of a sequence. -/
def items (s : Survey) (id : Nat) : List Nat :=
  match s.nodes[id]? with
  | some (.sequence _ items) => items
  | _ => []

/-- The entries of a mapping. -/
def entries (s : Survey) (id : Nat) : List (Nat × Nat) :=
  match s.nodes[id]? with
  | some (.mapping _ entries) => entries
  | _ => []

/-- The pairs of a sequence of pairs. -/
def pairs (s : Survey) (id : Nat) : List (Nat × Nat) :=
  (s.items id).flatMap s.entries

/-- The value of a scalar. -/
def leaf (s : Survey) (id : Nat) : Datum :=
  match s.meanings[id]?.join with
  | some (.leaf value _) => value
  | _ => .null

/-- The text that a scalar was read from. -/
def written (s : Survey) (id : Nat) : Text :=
  match s.meanings[id]?.join with
  | some (.leaf _ written) => written
  | _ => []

/-- Whether two nodes are one key of a mapping: their values are the same, or neither is a number and
they are one node or both the mark of that. -/
def isSameKey (s : Survey) (a b : Nat) : Bool :=
  match s.leaf a, s.leaf b with
  | .real x, .real y =>
    if x.isNaN && y.isNaN then
      a = b || (Plain.isNaNMark (s.written a) && Plain.isNaNMark (s.written b))
    else
      Datum.sameKey (.real x) (.real y)
  | x, y => x.sameKey y

/-- The entries with the value of a key set: in place if the key is there, at the end if not. -/
def putEntry (s : Survey) (key value : Nat) : List (Nat × Nat) → List (Nat × Nat)
  | [] => [(key, value)]
  | (k, v) :: rest =>
    if s.isSameKey k key then (k, value) :: rest else (k, v) :: putEntry s key value rest

/-- The entries of a mapping in which every key comes once, with the last of its values. -/
def distinctEntries (s : Survey) (id : Nat) : List (Nat × Nat) :=
  (s.entries id).foldl (fun done (key, value) => s.putEntry key value done) []

/-! ## Trees -/

/-- What is known of the value of a node. -/
inductive Standing
  | unseen
  /-- Its parts are being looked at. -/
  | open
  /-- It is part of a collection that contains itself, or contains one. -/
  | tied
  | tree (value : Datum)

/-- What is known of the values of all nodes. -/
abbrev Builder := StateM (Array Standing)

/-- Keeps what is known of a node: its value, unless one of its parts was not to be had. -/
def settle (id : Nat) (value : Option Datum) : Builder (Option Datum) := do
  let standing := match value with
    | some value => Standing.tree value
    | none => .tied
  modify fun standings => standings.setIfInBounds id standing
  return value

/-- The values of two nodes. -/
def both (build : Nat → Builder (Option Datum)) (a b : Nat) : Builder (Option (Datum × Datum)) := do
  let first ← build a
  let second ← build b
  return do return (← first, ← second)

/-- The value of a node, if no collection in it contains itself. A collection that comes up while its
parts are being looked at is one that does. Every step goes into a node that was not open, so as many
steps are enough as there are nodes. -/
def tree (s : Survey) : (steps : Nat) → (id : Nat) → Builder (Option Datum)
  | 0, _ => return none
  | steps + 1, id => do
    match (← get)[id]?.getD .unseen, s.meanings[id]?.join with
    | .tree value, _ => return some value
    | .open, _ | .tied, _ => return none
    | .unseen, none => return none
    | .unseen, some (.leaf value _) => return some value
    | .unseen, some .set =>
      settle id (some (.set (Members.inOrder ((s.distinctEntries id).map fun e => s.leaf e.1))))
    | .unseen, some .list =>
      modify fun standings => standings.setIfInBounds id .open
      let items ← (s.items id).mapM (tree s steps)
      settle id ((items.mapM fun item => item).map Datum.list)
    | .unseen, some .pairs =>
      modify fun standings => standings.setIfInBounds id .open
      let pairs ← (s.pairs id).mapM fun (first, second) => both (tree s steps) first second
      settle id ((pairs.mapM fun pair => pair).map fun pairs =>
        .list (pairs.map fun (first, second) => .pair first second))
    | .unseen, some .map =>
      modify fun standings => standings.setIfInBounds id .open
      let entries ← (s.distinctEntries id).mapM fun (key, value) => both (tree s steps) key value
      settle id ((entries.mapM fun entry => entry).map Datum.map)

/-! ## Knots -/

/-- The collections at a node that is tied: itself, and the pairs in it. -/
def cellCount (s : Survey) (id : Nat) : Nat :=
  match s.meanings[id]?.join with
  | some .pairs => (s.pairs id).length + 1
  | _ => 1

/-- The tied nodes with the places of their collections in a knot of all of them. -/
def places (s : Survey) (standings : Array Standing) : List (Nat × Nat) :=
  let tied := (List.range standings.size).filter fun id =>
    match standings[id]? with
    | some .tied => true
    | _ => false
  let step (done : Nat × List (Nat × Nat)) (id : Nat) :=
    (done.1 + s.cellCount id, (id, done.1) :: done.2)
  (tied.foldl step (0, [])).2.reverse

/-- A node as a part of a knot: its value if it has one of its own, and else its place. -/
def part (s : Survey) (standings : Array Standing) (places : List (Nat × Nat)) (id : Nat) : Datum :=
  match places.lookup id, standings[id]? with
  | some place, _ => .link place
  | none, some (.tree value) => value
  | none, _ => s.leaf id

/-- The collections of a knot at a node. -/
def cells (s : Survey) (part : Nat → Datum) (id place : Nat) : List Datum :=
  match s.meanings[id]?.join with
  | some .pairs =>
    let pairs := s.pairs id
    .list ((List.range pairs.length).map fun n => .link (place + 1 + n)) ::
      pairs.map fun (first, second) => .pair (part first) (part second)
  | some .map => [.map ((s.distinctEntries id).map fun (key, value) => (part key, part value))]
  | _ => [.list ((s.items id).map part)]

/-- The value of a node: a tree, or a place of the knot of all nodes that are tied. -/
def value (s : Survey) (id : Nat) : Datum :=
  match (s.tree (s.nodes.size + 1) id).run (Array.replicate s.nodes.size .unseen) with
  | (some value, _) => value
  | (none, standings) =>
    let places := s.places standings
    let table := places.flatMap fun (id, place) => s.cells (s.part standings places) id place
    .knot table ((places.lookup id).getD 0)

end Survey

namespace Graph

/-- The number of nodes and of entries of mappings. -/
def size (g : Graph) : Nat :=
  g.nodes.foldl (fun n node =>
    match node with
    | .mapping _ entries => n + 1 + entries.length
    | _ => n + 1) 0

/-- What every node stands for. -/
def survey (g : Graph) : Except Fault Survey := do
  let fuel := 3 * g.size + 4
  let steps : Surveyor Unit := do
    Surveyor.meet fuel g.root
    Surveyor.waves fuel fuel
  let (_, survey) ← steps.run
    { nodes := g.nodes, meanings := Array.replicate g.nodes.size none }
  return survey

/-- What the document stands for. -/
def value (g : Graph) : Except Fault Datum := do
  return (← g.survey).value g.root

end Graph

/-- Reads a text as a YAML document. -/
def read (text : List Char) : Except Fault Datum := do
  (← Graph.ofText text).value

end SimpleBinary.Yaml
