import SimpleBinary.Decimal.Text
import SimpleBinary.Moment
import SimpleBinary.Numeral.Integer
import SimpleBinary.Text.Quoted

/-!
The values that a schema document is made of.

A document is a tree of scalars and collections. A mapping keeps its entries in the order in which
they were written, and a key that is written again replaces the value and keeps its place. Every value
has two texts: the one that stands for it where a text is asked for, and its *spelling*, the same
except that text is quoted; messages and generated source show values by their spelling. Neither can
be written if the value holds an integer with more digits than are written.

A collection may also contain itself. Such a collection is a place in a *knot*: a table of collections
that refer to each other by the numbers of their places. It is opened step by step, and its parts are
again places in the knot, so it can be gone into for ever. Its spelling is finite all the same: a
collection that comes up inside itself is spelled as three points between its brackets.
-/

set_option autoImplicit false

namespace SimpleBinary

/-- A value of a schema document. -/
inductive Datum
  | null
  | bool (value : Bool)
  | int (value : Int)
  | real (value : Float)
  | text (value : Text)
  | bytes (value : List UInt8)
  | moment (value : Moment)
  | list (items : List Datum)
  /-- Two values that belong together. -/
  | pair (first second : Datum)
  | set (members : List Datum)
  | map (entries : List (Datum × Datum))
  /-- The collection at a place of a knot, which is given by its collections. -/
  | knot (table : List Datum) (place : Nat)
  /-- Inside a knot: the collection at a place of it. -/
  | link (place : Nat)
  deriving Inhabited

/-- A kind of value, for messages. Tuples are the lists that never change. -/
inductive Kind
  | null
  | bool
  | int
  | real
  | text
  | bytes
  | date
  | time
  | list
  | tuple
  | set
  | map
  deriving DecidableEq, Repr

/-- The name of a kind. -/
def Kind.name : Kind → String
  | .null => "NoneType"
  | .bool => "bool"
  | .int => "int"
  | .real => "float"
  | .text => "str"
  | .bytes => "bytes"
  | .date => "datetime.date"
  | .time => "datetime.datetime"
  | .list => "list"
  | .tuple => "tuple"
  | .set => "set"
  | .map => "dict"

namespace Datum

/-! ## Knots -/

/-- A part of a collection of a knot as a value of its own. -/
def untie (table : List Datum) : Datum → Datum
  | .link place => .knot table place
  | d => d

/-- The value with its parts in sight: what stands at the place, if it is one of a knot. -/
def opened : Datum → Datum
  | .knot table place =>
    match table[place]? with
    | some (.list items) => .list (items.map (untie table))
    | some (.pair first second) => .pair (untie table first) (untie table second)
    | some (.map entries) => .map (entries.map fun (key, value) => (key, untie table value))
    | some d => d
    | none => .null
  | d => d

/-- The kind of a value. -/
def kind (d : Datum) : Kind :=
  match d.opened with
  | .null | .knot _ _ | .link _ => .null
  | .bool _ => .bool
  | .int _ => .int
  | .real _ => .real
  | .text _ => .text
  | .bytes _ => .bytes
  | .moment m => if m.time.isSome then .time else .date
  | .list _ => .list
  | .pair _ _ => .tuple
  | .set _ => .set
  | .map _ => .map

/-! ## Spelling -/

/-- The spelling of a collection inside itself. -/
def ellipsis : Datum → String
  | .pair _ _ => "(...)"
  | .map _ => "\x7b...\x7d"
  | _ => "[...]"

/-- The spelling of the collection at a place of a knot, inside the collections at the places
`around`. Each row gives the spelling of the collection at one place, given those at all places. Every
step adds a place, so as many steps are enough as there are places. -/
def weave (rows : List ((Nat → Option String) → Option String)) (ellipses : List String) :
    (steps : Nat) → (around : List Nat) → (place : Nat) → Option String
  | 0, _, place => ellipses[place]?
  | steps + 1, around, place =>
    if around.contains place then ellipses[place]?
    else rows[place]?.bind fun row => row (weave rows ellipses steps (place :: around))

mutual

/-- The spelling of a value, given those of the links in it, unless it holds an integer that is too
long. -/
def spell (linked : Nat → Option String) : Datum → Option String
  | .null => some "None"
  | .bool true => some "True"
  | .bool false => some "False"
  | .int n => Numeral.written? n
  | .real x => some (Decimal.text x)
  | .text t => some (Text.quoted t)
  | .bytes b => some (Text.quotedBytes b)
  | .moment m => some m.spelling
  | .list items => do return "[" ++ ", ".intercalate (← spellAll linked items) ++ "]"
  | .pair first second => do
    return "(" ++ (← spell linked first) ++ ", " ++ (← spell linked second) ++ ")"
  | .set [] => some "set()"
  | .set members => do return "\x7b" ++ ", ".intercalate (← spellAll linked members) ++ "\x7d"
  | .map entries => do return "\x7b" ++ ", ".intercalate (← spellEntries linked entries) ++ "\x7d"
  | .knot table place =>
    weave (spellRows table) (table.map ellipsis) (table.length + 1) [] place
  | .link place => linked place

/-- The spellings of several values. -/
def spellAll (linked : Nat → Option String) : List Datum → Option (List String)
  | [] => some []
  | item :: items => do
    let spelling ← spell linked item
    return spelling :: (← spellAll linked items)

/-- The spellings of the entries of a mapping. -/
def spellEntries (linked : Nat → Option String) : List (Datum × Datum) → Option (List String)
  | [] => some []
  | (key, value) :: entries => do
    let spelling := (← spell linked key) ++ ": " ++ (← spell linked value)
    return spelling :: (← spellEntries linked entries)

/-- The spellings of the collections of a knot, each given those of all. -/
def spellRows : List Datum → List ((Nat → Option String) → Option String)
  | [] => []
  | d :: rest => (fun linked => spell linked d) :: spellRows rest

end

/-- The spelling of a value. -/
def spelling? (d : Datum) : Option String :=
  spell (fun _ => none) d

/-- The text that stands for a value: a text itself, a moment by its text, and any other value by its
spelling. -/
def asText? : Datum → Option Text
  | .text t => some t
  | .moment m => some (Text.ofString m.text)
  | d => d.spelling?.map Text.ofString

/-! ## Parts -/

/-- Whether a value counts as given: null, false, zero and the empty text and collections do not. -/
def isGiven (d : Datum) : Bool :=
  match d.opened with
  | .null => false
  | .bool b => b
  | .int n => n != 0
  | .real x => !(x == 0.0)
  | .text t => !t.isEmpty
  | .bytes b => !b.isEmpty
  | .list items => !items.isEmpty
  | .set members => !members.isEmpty
  | .map entries => !entries.isEmpty
  | .moment _ | .pair _ _ | .knot _ _ | .link _ => true

/-- A number by its value, in which a truth value counts as one or zero. -/
inductive KeyNumber
  | whole (n : Int)
  | broken (bits : UInt64)
  deriving DecidableEq

/-- The number that a key is equal to, if it is one. -/
def keyNumber? : Datum → Option KeyNumber
  | .bool b => some (.whole (if b then 1 else 0))
  | .int n => some (.whole n)
  | .real x =>
    match Decimal.Parts.ofFloat x with
    | .finite parts =>
      if Float.ofInt parts.wholePart == x then some (.whole parts.wholePart)
      else some (.broken x.toBits)
    | _ => some (.broken x.toBits)
  | _ => none

/-- Whether two keys of a mapping are one key: equal texts, equal bytes, one moment, equal numbers, or
both null. -/
def sameKey : Datum → Datum → Bool
  | .text s, .text t => s == t
  | .bytes a, .bytes b => a == b
  | .moment m, .moment n => m.isSame n
  | .null, .null => true
  | a, b =>
    match a.keyNumber?, b.keyNumber? with
    | some m, some n => m == n
    | _, _ => false

/-- The entries with the value of a key set: in place if the key is there, at the end if not. -/
def put (key value : Datum) : List (Datum × Datum) → List (Datum × Datum)
  | [] => [(key, value)]
  | (k, v) :: rest => if k.sameKey key then (k, value) :: rest else (k, v) :: put key value rest

/-- The value of a key that is a text. -/
def find? (key : String) : List (Datum × Datum) → Option Datum
  | [] => none
  | (.text k, v) :: rest => if k = key then some v else find? key rest
  | _ :: rest => find? key rest

/-- The entries of a mapping. -/
def entries? (d : Datum) : Option (List (Datum × Datum)) :=
  match d.opened with
  | .map entries => some entries
  | _ => none

/-- The values that a value yields one by one: the items of a list, a pair or a set, the code points
of a text, the numbers of bytes and the keys of a mapping. No other value has parts. -/
def parts? (d : Datum) : Option (List Datum) :=
  match d.opened with
  | .list items => some items
  | .pair first second => some [first, second]
  | .set members => some members
  | .text t => some (t.map fun p => .text [p])
  | .bytes b => some (b.map fun n => .int n.toNat)
  | .map entries => some (entries.map Prod.fst)
  | _ => none

theorem asText?_text (t : Text) : asText? (.text t) = some t := rfl

theorem find?_put_self (key : String) (value : Datum) (entries : List (Datum × Datum)) :
    find? key (put (.text key) value entries) = some value := by
  induction entries with
  | nil => simp [put, find?]
  | cons entry rest ih =>
    obtain ⟨k, v⟩ := entry
    cases k with
    | text s =>
      by_cases h : s = Text.ofString key
      · simp [put, sameKey, find?, h]
      · simp [put, sameKey, find?, h, ih]
    | _ => simp [put, sameKey, keyNumber?, find?, ih]

end Datum

end SimpleBinary
