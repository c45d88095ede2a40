/-!
The signals of a token stream.

A stream is a tree written in pre-order: a construct is opened by one token and closed by another,
and between the two stand the tokens of its parts. Values of an enumeration, choices of a set and
encodings have no parts, and one token stands for each.
-/

set_option autoImplicit false

namespace SimpleBinary

/-- What a pair of tokens can enclose. -/
inductive Construct
  | message
  | composite
  | field
  | group
  | enumeration
  | choiceSet
  | varData
  deriving DecidableEq, Repr

namespace Construct

/-- All constructs. -/
def all : List Construct :=
  [.message, .composite, .field, .group, .enumeration, .choiceSet, .varData]

/-- The name of a construct in the names of its two signals. -/
def name : Construct → String
  | .message => "MESSAGE"
  | .composite => "COMPOSITE"
  | .field => "FIELD"
  | .group => "GROUP"
  | .enumeration => "ENUM"
  | .choiceSet => "SET"
  | .varData => "VAR_DATA"

theorem mem_all (c : Construct) : c ∈ all := by
  cases c <;> simp [all]

end Construct

/-- What a token says. -/
inductive Signal
  | opens (construct : Construct)
  | closes (construct : Construct)
  | validValue
  | choice
  | encoding
  deriving DecidableEq, Repr

namespace Signal

/-- All signals. -/
def all : List Signal :=
  Construct.all.map .opens ++ Construct.all.map .closes ++ [.validValue, .choice, .encoding]

/-- The name of a signal in a document. -/
def name : Signal → String
  | .opens c => "BEGIN_" ++ c.name
  | .closes c => "END_" ++ c.name
  | .validValue => "VALID_VALUE"
  | .choice => "CHOICE"
  | .encoding => "ENCODING"

theorem mem_all (s : Signal) : s ∈ all := by
  cases s <;> simp [all, Construct.mem_all]

end Signal

end SimpleBinary
