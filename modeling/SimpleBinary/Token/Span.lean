import SimpleBinary.Fault
import SimpleBinary.Token.Basic

/-!
The tokens that one token spans.

A token says how many tokens its construct has, itself included, so a reader can pass over the whole
construct. A count that does not lead to the token that closes the construct would shift everything
after it, so it is checked before it is used.
-/

set_option autoImplicit false

namespace SimpleBinary

/-- How many tokens a span has: at least one, and no more than there are. -/
abbrev SpanLength (tokens : List Token) := { n : Nat // 0 < n ∧ n ≤ tokens.length }

/-- Whether `last` may be the last token of the span that `first` starts. A construct ends with the
token that closes it, and any token may end the span of a token that opens nothing. -/
def Token.mayEndWith (first last : Token) : Bool :=
  match first.signal with
  | .opens construct => last.signal == .closes construct
  | _ => true

/-- The length of the span of the first token. -/
def spanLength : (tokens : List Token) → Except Fault (SpanLength tokens)
  | [] => .error (.pastEnd .list)
  | token :: rest =>
    match token.tokenCount with
    | none => .error (.noOrder "<" .null .int)
    | some count =>
      if few : count < 1 then
        inconsistent (.emptySpan token.name count)
      else if far : (rest.length : Int) + 1 < count then
        inconsistent (.longSpan token.name count (rest.length + 1))
      else
        have inside : 0 < count.toNat ∧ count.toNat ≤ (token :: rest).length := by
          simp only [List.length_cons]
          omega
        let last := (token :: rest).get ⟨count.toNat - 1, by omega⟩
        if token.mayEndWith last then
          .ok ⟨count.toNat, inside⟩
        else
          inconsistent (.openSpan token.signal token.name count last.signal last.name)

/-- The index just past the span of the token at an index. -/
def endIndex (tokens : List Token) (index : Nat) : Except Fault Nat :=
  (spanLength (tokens.drop index)).map fun n => index + n

/-- What is left after a span is shorter. -/
theorem length_drop_span_lt {tokens : List Token} (n : SpanLength tokens) :
    (tokens.drop n.1).length < tokens.length := by
  have positive : 0 < n.1 := n.2.1
  have bounded : n.1 ≤ tokens.length := n.2.2
  rw [List.length_drop]
  omega

end SimpleBinary
