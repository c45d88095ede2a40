import SimpleBinary.Proofs.Forest.Count

/-!
Counts left aside.

A count that a document gives is kept, right or wrong; one that it does not give is derived. Here are
tokens, plans and forests without their counts: two plans are the same apart from the counts in their
tokens if they are the same without them (`Plan.uncounted`), and a forest whose counts are all left to
the reader (`Node.uncounted`) has the same tokens apart from these.
-/

set_option autoImplicit false

namespace SimpleBinary

open Node (openToken closeToken tokensAll sizeAll)

/-! ## Counts left aside -/

/-- The token without its count. -/
def Token.uncounted (t : Token) : Token :=
  { t with tokenCount := some 1 }

/-- What does not depend on the count of a token is the same for tokens that differ in it only. -/
theorem Token.congr_uncounted {α : Type} (f : Token → α) {t u : Token}
    (h : t.uncounted = u.uncounted) (hf : ∀ t : Token, f t.uncounted = f t := by exact fun _ => rfl) :
    f t = f u := by
  rw [← hf t, h, hf u]

mutual

/-- The step without the counts of its tokens. -/
def Step.uncounted : Step → Step
  | .gap size since trailing => .gap size since trailing
  | .primitive field encoding => .primitive field.uncounted encoding.uncounted
  | .typed construct typeName field type none =>
    .typed construct typeName field.uncounted type.uncounted none
  | .typed construct typeName field type (some nested) =>
    .typed construct typeName field.uncounted type.uncounted (some (Plan.uncounted nested))
  | .extensionSkip known => .extensionSkip known
  | .group token blockLength numInGroup element =>
    .group token.uncounted blockLength.uncounted numInGroup.uncounted (Plan.uncounted element)
  | .varData token length data => .varData token.uncounted length.uncounted data.uncounted
  | .encodeValidation => .encodeValidation
  | .decodeValidation => .decodeValidation

/-- The steps without the counts of their tokens. -/
def Step.uncountedAll : List Step → List Step
  | [] => []
  | s :: rest => s.uncounted :: Step.uncountedAll rest

/-- The plan without the counts of its tokens. -/
def Plan.uncounted : Plan → Plan
  | ⟨typeName, kind, blockLength, isExtensible, token, steps, consumed⟩ =>
    ⟨typeName, kind, blockLength, isExtensible, token.map Token.uncounted, Step.uncountedAll steps,
      consumed⟩

end

/-- The entry with the count left to the reader. -/
def Entry.uncounted (e : Entry) : Entry :=
  ⟨e.token.uncounted, false⟩

namespace Node

mutual

/-- The node with all counts left to the reader. -/
def uncounted : Node → Node
  | .leaf atom entry => .leaf atom entry.uncounted
  | .span construct opening parts closing =>
    .span construct opening.uncounted (uncountedAll parts) closing.uncounted

/-- The forest with all counts left to the reader. -/
def uncountedAll : List Node → List Node
  | [] => []
  | n :: rest => n.uncounted :: uncountedAll rest

end

mutual

theorem entries_uncounted : ∀ n : Node, n.uncounted.entries = n.entries.map Entry.uncounted
  | .leaf _ _ => rfl
  | .span construct opening parts closing => by
    simp only [uncounted, entries, entriesAll_uncounted parts, List.map_cons, List.map_append,
      List.map_nil]
    rfl

theorem entriesAll_uncounted : ∀ forest : List Node,
    entriesAll (uncountedAll forest) = (entriesAll forest).map Entry.uncounted
  | [] => rfl
  | n :: rest => by
    rw [uncountedAll, entriesAll, entriesAll, entries_uncounted n, entriesAll_uncounted rest,
      List.map_append]

end

mutual

theorem derived_uncounted : ∀ n : Node, n.uncounted.Derived
  | .leaf _ _ => trivial
  | .span _ _ parts _ => ⟨rfl, derivedAll_uncounted parts⟩

theorem derivedAll_uncounted : ∀ forest : List Node, DerivedAll (uncountedAll forest)
  | [] => trivial
  | n :: rest => ⟨derived_uncounted n, derivedAll_uncounted rest⟩

end

theorem openToken_uncounted (construct : Construct) (opening : Entry) (parts others : List Node) :
    (openToken construct opening.uncounted others).uncounted =
      (openToken construct opening parts).uncounted := by
  unfold openToken Entry.withCount
  split <;> split <;> rfl

theorem closeToken_uncounted (construct : Construct) (closing : Entry) :
    (closeToken construct closing.uncounted).uncounted = (closeToken construct closing).uncounted :=
  rfl

mutual

theorem tokens_uncounted : ∀ n : Node,
    n.uncounted.tokens.map Token.uncounted = n.tokens.map Token.uncounted
  | .leaf _ _ => rfl
  | .span construct opening parts closing => by
    simp only [uncounted, tokens, List.map_cons, List.map_append, List.map_nil,
      tokensAll_uncounted parts, closeToken_uncounted,
      openToken_uncounted construct opening parts]

theorem tokensAll_uncounted : ∀ forest : List Node,
    (tokensAll (uncountedAll forest)).map Token.uncounted =
      (tokensAll forest).map Token.uncounted
  | [] => rfl
  | n :: rest => by
    rw [uncountedAll, tokensAll, tokensAll, List.map_append, List.map_append, tokens_uncounted n,
      tokensAll_uncounted rest]

end

theorem inside_uncounted (construct : Construct) (parts : List Node) (closing : Entry) :
    (tokensAll parts ++ [closeToken construct closing]).map Token.uncounted =
      (tokensAll (uncountedAll parts) ++ [closeToken construct closing.uncounted]).map
        Token.uncounted := by
  rw [List.map_append, List.map_append, tokensAll_uncounted]
  rfl

end Node

/-! ## Plans -/

namespace Plan

theorem uncounted_eq_iff {p q : Plan} : p.uncounted = q.uncounted ↔
    p.typeName = q.typeName ∧ p.kind = q.kind ∧ p.blockLength = q.blockLength ∧
      p.isExtensible = q.isExtensible ∧
      p.token.map Token.uncounted = q.token.map Token.uncounted ∧
      Step.uncountedAll p.steps = Step.uncountedAll q.steps ∧ p.consumed = q.consumed := by
  obtain ⟨_, _, _, _, _, _, _⟩ := p
  obtain ⟨_, _, _, _, _, _, _⟩ := q
  simp only [uncounted, mk.injEq]

end Plan

theorem Step.uncountedAll_append (a b : List Step) :
    uncountedAll (a ++ b) = uncountedAll a ++ uncountedAll b := by
  induction a with
  | nil => rfl
  | cons s rest ih => rw [List.cons_append, uncountedAll, uncountedAll, ih, List.cons_append]

end SimpleBinary
