import SimpleBinary.Datum

/-!
The order in which a set yields its members.

The order in which members are written means nothing in a set. Members that are numbers have places of
their own in a table, and come in the order of these places: with few small numbers that is the
ascending order. A place is the residue of the member by the size of the table, and a member whose place
is taken goes to another one. The empty text and the empty row of bytes count as zero here. A set
with other members yields them as they are written.
-/

set_option autoImplicit false

namespace SimpleBinary.Yaml.Members

/-- The prime number by which numbers are reduced. -/
def modulus : Nat := Nat.pow 2 61 - 1

/-- A reduced number with its sign. Minus one is passed over. -/
def signed (negative : Bool) (residue : Nat) : Int :=
  if negative then if residue = 1 then -2 else -(residue : Int) else residue

/-- A real number reduced. A half is the number whose double is one by the modulus, so a power of two
goes round with sixty-one steps. -/
def reduceReal (x : Float) : Option Int :=
  match Decimal.Parts.ofFloat x with
  | .nan => none
  | .infinite negative => some (signed negative 314159)
  | .finite x =>
    some (signed x.negative (x.mantissa * Nat.pow 2 (x.exponent % 61).toNat % modulus))

/-- A member reduced to a number that is the same for equal members. -/
def reduce? : Datum → Option Int
  | .bool b => some (if b then 1 else 0)
  | .int n => some (signed (n < 0) (n.natAbs % modulus))
  | .real x => reduceReal x
  | .text [] | .bytes [] => some 0
  | _ => none

/-- The size of the table for a number of members. -/
def tableSize (members : Nat) : Nat :=
  if members < 5 then 8 else Nat.nextPowerOfTwo (2 * members + 1)

/-- The places that are looked at together: ten in a row if there are as many, and otherwise one. -/
def row (size place : Nat) : List Nat :=
  if place + 10 ≤ size then (List.range 10).map (place + ·) else [place]

/-- A free place of a table, looked for from `place` on. `rest` is what the member has beyond its
residue; it is used up step by step, and from then on every place comes up. -/
def freePlace (isFree : Nat → Bool) (size : Nat) : (steps place rest : Nat) → Nat
  | 0, place, _ => place
  | steps + 1, place, rest =>
    match (row size place).find? isFree with
    | some free => free
    | none => freePlace isFree size steps ((place * 5 + 1 + rest / 32) % size) (rest / 32)

/-- The table with a member more. -/
def seat (table : Array (Option Datum)) (member : Datum) (reduced : Int) : Array (Option Datum) :=
  let n := (reduced % (Nat.pow 2 64 : Nat)).toNat
  let isFree (place : Nat) := table[place]?.any Option.isNone
  let place := freePlace isFree table.size (table.size + 16) (n % table.size) n
  table.setIfInBounds place (some member)

/-- Different members in the order in which a set yields them. -/
def inOrder (members : List Datum) : List Datum :=
  match members.mapM reduce? with
  | none => members
  | some numbers =>
    let empty := Array.replicate (tableSize members.length) none
    let table := (members.zip numbers).foldl (fun table m => seat table m.1 m.2) empty
    table.toList.filterMap id

end SimpleBinary.Yaml.Members
