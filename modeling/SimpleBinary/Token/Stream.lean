import SimpleBinary.Token.Attribute

/-!
Token lists of a document.

A list may hold lists in any nesting, and only the tokens in them count. The tokens must be well
bracketed: a closing token closes the construct that was opened last and is of its kind. An opening
token that gives no count of its tokens gets the one that the brackets show; a count that is given is
kept, right or wrong.
-/

set_option autoImplicit false

namespace SimpleBinary

/-- A token of a list, and whether it gives a count. -/
structure Entry where
  token : Token
  counted : Bool

/-- The token of an entry, with the count that the brackets show if it gives none. -/
def Entry.withCount (e : Entry) (count : Nat) : Token :=
  if e.counted then e.token else { e.token with tokenCount := some count }

/-- An entry of a list. -/
def Entry.ofDatum (index : Nat) (d : Datum) : Except Fault Entry := do
  let given ← Given.ofDatum index d
  let token ← given.token index
  return ⟨token, (given.value? .tokenCount).isSome⟩

namespace Datum

/-- What is found in a list: a value that is no list, or, where there is none, a list that stands
inside itself, so that the search does not end. -/
abbrev Leaf := Option Datum

/-- What is found at a place of a knot, inside the lists at the places `around`. Each row is for a
list, and gives what is found in it, given what is found at all places. Every step adds a place, so as
many steps are enough as there are places. -/
def leavesAt (table : List Datum) (rows : List (Option ((Nat → List Leaf) → List Leaf))) :
    (steps : Nat) → (around : List Nat) → (place : Nat) → List Leaf
  | 0, _, _ => [none]
  | steps + 1, around, place =>
    match rows[place]?.join with
    | some row =>
      if around.contains place then [none]
      else row (leavesAt table rows steps (place :: around))
    | none => [some (.knot table place)]

mutual

/-- What is found in a value, given what is found at the links in it. A value that is no list is
found itself. -/
def leavesWith (linked : Nat → List Leaf) : Datum → List Leaf
  | .list items => leavesOf linked items
  | .link place => linked place
  | .knot table place => leavesAt table (leafRows table) (table.length + 1) [] place
  | d => [some d]

/-- What is found in several values, lists in any nesting left aside, up to the first list that stands
inside itself. -/
def leavesOf (linked : Nat → List Leaf) : List Datum → List Leaf
  | [] => []
  | d :: rest =>
    let found := leavesWith linked d
    if found.any Option.isNone then found else found ++ leavesOf linked rest

/-- What is found in the lists of a knot, each given what is found at all places. -/
def leafRows : List Datum → List (Option ((Nat → List Leaf) → List Leaf))
  | [] => []
  | .list items :: rest => some (fun linked => leavesOf linked items) :: leafRows rest
  | _ :: rest => none :: leafRows rest

end

/-- What is found in several values, lists in any nesting left aside, up to the first list that stands
inside itself. -/
def leaves (items : List Datum) : List Leaf :=
  leavesOf (fun _ => [none]) items

end Datum

/-- The entries of a list, the first of which has the given index. -/
def Entry.listOf (index : Nat) : List Datum.Leaf → Except Fault (List Entry)
  | [] => .ok []
  | none :: _ => .error .endless
  | some d :: rest => do
    let e ← Entry.ofDatum index d
    let es ← Entry.listOf (index + 1) rest
    return e :: es

/-- A construct that is open: the entry that opened it, and the tokens of the construct around it
that came before, the last first. -/
structure Opened where
  construct : Construct
  entry : Entry
  outer : List Token

/-- The tokens of a well-bracketed list. `index` counts the entries so far, `opened` holds the open
constructs, the innermost first, and `done` the tokens of the innermost one, the last first. -/
def Entry.pair (index : Nat) (opened : List Opened) (done : List Token) :
    List Entry → Except Fault (List Token)
  | [] =>
    match opened with
    | [] => .ok done.reverse
    | o :: _ => inconsistent (.neverClosed o.entry.token.signal o.entry.token.name)
  | e :: rest =>
    match e.token.signal with
    | .opens construct => Entry.pair (index + 1) (⟨construct, e, done⟩ :: opened) [] rest
    | .closes construct =>
      match opened with
      | [] => inconsistent (.neverOpened e.token.signal e.token.name index)
      | o :: opened =>
        if o.construct = construct then
          let whole := e.token :: (done ++ o.entry.withCount (done.length + 2) :: o.outer)
          Entry.pair (index + 1) opened whole rest
        else
          inconsistent (.crossed e.token.signal e.token.name index
            o.entry.token.signal o.entry.token.name)
    | _ => Entry.pair (index + 1) opened (e.token :: done) rest

/-- The tokens of a list in a document. What is not given is an empty list. -/
def Token.listOfDatum (d : Datum) : Except Fault (List Token) := do
  if d.isGiven then
    Entry.pair 0 [] [] (← Entry.listOf 0 (Datum.leaves (← d.partsOf)))
  else
    return []

end SimpleBinary
